import Pico2wTfm.Support.Bytes
import Pico2wTfm.Support.Pattern

/-!
# Tools — Header

`parse_tinymaix_header` of `tinymaix_model_encryptor.py`, and the C declarations it is applied to.

The classes `\s`, `\d` and `\w` of Python hold characters of all scripts; `Python` says of them what
is the same everywhere.  It also says how many digits `int` takes, which is a setting.

A `Declaration` is the text of a C array of bytes: an initialiser of constants, with white space,
line splices and comments around them.  `Declaration.seen` is what the function picks up of it.
-/

namespace Encryptor
open Bytes Pattern

/-! ### The function -/

def isDecDigit (c : Char) : Bool := '0' ≤ c && c ≤ '9'

def isHexDigit (c : Char) : Bool :=
  isDecDigit c || ('a' ≤ c && c ≤ 'f') || ('A' ≤ c && c ≤ 'F')

def isIdentifierChar (c : Char) : Bool :=
  isDecDigit c || ('a' ≤ c && c ≤ 'z') || ('A' ≤ c && c ≤ 'Z') || c == '_'

def isAsciiSpace (c : Char) : Bool := (9 ≤ c.toNat && c.toNat ≤ 13) || (28 ≤ c.toNat && c.toNat ≤ 32)

section Chars

variable {c : Char}

theorem isDecDigit_iff : isDecDigit c = true ↔ 48 ≤ c.toNat ∧ c.toNat ≤ 57 := by
  rw [isDecDigit, Bool.and_eq_true, decide_eq_true_eq, decide_eq_true_eq]
  exact Iff.rfl

theorem isHexDigit_iff : isHexDigit c = true ↔ (48 ≤ c.toNat ∧ c.toNat ≤ 57) ∨
    (97 ≤ c.toNat ∧ c.toNat ≤ 102) ∨ (65 ≤ c.toNat ∧ c.toNat ≤ 70) := by
  rw [isHexDigit, Bool.or_eq_true, Bool.or_eq_true, or_assoc, isDecDigit_iff, Bool.and_eq_true,
    Bool.and_eq_true, decide_eq_true_eq, decide_eq_true_eq, decide_eq_true_eq, decide_eq_true_eq]
  exact Iff.rfl

theorem isIdentifierChar_iff : isIdentifierChar c = true ↔ (48 ≤ c.toNat ∧ c.toNat ≤ 57) ∨
    (97 ≤ c.toNat ∧ c.toNat ≤ 122) ∨ (65 ≤ c.toNat ∧ c.toNat ≤ 90) ∨ c = '_' := by
  rw [isIdentifierChar, Bool.or_eq_true, Bool.or_eq_true, Bool.or_eq_true, or_assoc, or_assoc,
    isDecDigit_iff, Bool.and_eq_true, Bool.and_eq_true, decide_eq_true_eq, decide_eq_true_eq,
    decide_eq_true_eq, decide_eq_true_eq, beq_iff_eq]
  exact Iff.rfl

theorem isAsciiSpace_iff : isAsciiSpace c = true ↔ (9 ≤ c.toNat ∧ c.toNat ≤ 13) ∨
    (28 ≤ c.toNat ∧ c.toNat ≤ 32) := by
  rw [isAsciiSpace, Bool.or_eq_true, Bool.and_eq_true, Bool.and_eq_true, decide_eq_true_eq,
    decide_eq_true_eq, decide_eq_true_eq, decide_eq_true_eq]

/-- White space is not part of an identifier. -/
theorem not_identifierChar_of_space (h : isAsciiSpace c = true) : isIdentifierChar c = false := by
  have hs := isAsciiSpace_iff.mp h
  refine Bool.eq_false_iff.mpr fun hi => ?_
  rcases isIdentifierChar_iff.mp hi with hi | hi | hi | rfl
  · omega
  · omega
  · omega
  · exact absurd h (by decide)

end Chars

/-- What depends on the Python that runs the tool. -/
structure Python where
  space : Char → Bool
  digit : Char → Bool
  word : Char → Bool
  digitValue : Char → Nat
  /-- The number of digits that `int` takes. -/
  maxStrDigits : Option Nat
  space_ascii : ∀ c, c.toNat < 128 → space c = isAsciiSpace c
  digit_ascii : ∀ c, c.toNat < 128 → digit c = isDecDigit c
  word_ascii : ∀ c, c.toNat < 128 → word c = isIdentifierChar c
  space_word : ∀ c, space c = true → word c = false

/-- A Python that knows the ASCII characters. -/
def asciiPython : Python where
  space := isAsciiSpace
  digit := isDecDigit
  word := isIdentifierChar
  digitValue c := c.toNat - '0'.toNat
  maxStrDigits := some 4300
  space_ascii _ _ := rfl
  digit_ascii _ _ := rfl
  word_ascii _ _ := rfl
  space_word _ h := not_identifierChar_of_space h

/-- The errors of the function; `int` is one of Python's own. -/
inductive ValueError where
  | noArray
  | noData (arrayName : List Char)
  | noHex
  | int
deriving DecidableEq, Repr

def ValueError.message : ValueError → Option String
  | .noArray => some "Could not find model data array in header file"
  | .noData arrayName => some ("Could not find data for array '" ++ String.ofList arrayName ++ "'")
  | .noHex => some "No hex values found in array data"
  | .int => none

/-- What the function returns. -/
structure ParsedHeader where
  modelData : List Byte
  arrayName : List Char
  mdlBufLen : Nat
  lbufLen : Nat
deriving DecidableEq, Repr

/-- The value of a digit, in any base up to 16. -/
def digitOf (c : Char) : Nat :=
  if isDecDigit c then c.toNat - 48
  else if 'a' ≤ c && c ≤ 'f' then c.toNat - 87 else c.toNat - 55

/-- The value of a string of digits. -/
def numeral (base : Nat) (digits : List Char) : Nat :=
  digits.foldl (fun n c => base * n + digitOf c) 0

def constText : List Char := ['c', 'o', 'n', 's', 't']
def uint8Text : List Char := ['u', 'i', 'n', 't', '8', '_', 't']
def defineText : List Char := ['#', 'd', 'e', 'f', 'i', 'n', 'e']
def mdlBufLenText : List Char := ['M', 'D', 'L', '_', 'B', 'U', 'F', '_', 'L', 'E', 'N']
def lbufLenText : List Char := ['L', 'B', 'U', 'F', '_', 'L', 'E', 'N']

/-- `0x([0-9a-fA-F]{2})`. -/
def hexPattern : List (Pattern.Part Char) := [.lit ['0', 'x'], .one isHexDigit, .one isHexDigit]

/-- `re.findall` of the pattern, converted. -/
def hexBytes (s : List Char) : List Byte :=
  (findAll hexPattern s).map fun m => BitVec.ofNat 8 (numeral 16 (m.drop 1).flatten)

section Python

variable (py : Python)

/-- `const\s+uint8_t\s+(\w+)\[\d*\]\s*=`. -/
def arrayPattern : List (Pattern.Part Char) :=
  [.lit constText, .run py.space 1, .lit uint8Text, .run py.space 1, .run py.word 1, .lit ['['],
    .run py.digit 0, .lit [']'], .run py.space 0, .lit ['=']]

/-- `const\s+uint8_t\s+<array_name>\[\d*\]\s*=\s*\{([^}]+)\}`. -/
def dataPattern (arrayName : List Char) : List (Pattern.Part Char) :=
  [.lit constText, .run py.space 1, .lit uint8Text, .run py.space 1, .lit arrayName, .lit ['['],
    .run py.digit 0, .lit [']'], .run py.space 0, .lit ['='], .run py.space 0, .lit ['{'],
    .run (· != '}') 1, .lit ['}']]

/-- `#define\s+<name>\s+\((\d+)\)`. -/
def definePattern (name : List Char) : List (Pattern.Part Char) :=
  [.lit defineText, .run py.space 1, .lit name, .run py.space 1, .lit ['('], .run py.digit 1,
    .lit [')']]

/-- `int` of a string of digits. -/
def Python.int (digits : List Char) : Except ValueError Nat :=
  if py.maxStrDigits.any (· < digits.length) then .error .int
  else .ok (digits.foldl (fun n c => 10 * n + py.digitValue c) 0)

/-- `MDL_BUF_LEN` or `LBUF_LEN`; 0 if it is not defined. -/
def defined (name headerContent : List Char) : Except ValueError Nat :=
  match search (definePattern py name) headerContent with
  | some m => py.int (m.getD 5 [])
  | none => .ok 0

/-- The array, once its name and the two lengths are known. -/
def parseData (headerContent arrayName : List Char) (mdlBufLen lbufLen : Nat) :
    Except ValueError ParsedHeader :=
  match search (dataPattern py arrayName) headerContent with
  | none => .error (.noData arrayName)
  | some m =>
      if hexBytes (m.getD 12 []) = [] then .error .noHex
      else .ok ⟨hexBytes (m.getD 12 []), arrayName, mdlBufLen, lbufLen⟩

/-- `parse_tinymaix_header`. -/
def parseTinymaixHeader (headerContent : List Char) : Except ValueError ParsedHeader :=
  match search (arrayPattern py) headerContent with
  | none => .error .noArray
  | some m => do
      let mdlBufLen ← defined py mdlBufLenText headerContent
      let lbufLen ← defined py lbufLenText headerContent
      parseData py headerContent (m.getD 4 []) mdlBufLen lbufLen

end Python

/-! ### Declarations -/

/-- White space of C. -/
def isCSpace (c : Char) : Bool :=
  c == ' ' || c == '\t' || c == '\n' || c == '\r' || c.toNat == 11 || c.toNat == 12

/-- Line splices are taken out before a text is split into tokens. -/
def unsplice : List Char → List Char
  | '\\' :: '\n' :: s => unsplice s
  | c :: s => c :: unsplice s
  | [] => []

/-- White space, line splices and comments. -/
inductive Gap : List Char → Prop where
  | nil : Gap []
  | space {c : Char} {t : List Char} (hc : isCSpace c = true) (ht : Gap t) : Gap (c :: t)
  | splice {t : List Char} (ht : Gap t) : Gap ('\\' :: '\n' :: t)
  | block {s t : List Char} (hs : ¬['*', '/'] <:+: unsplice s) (ht : Gap t) :
      Gap ('/' :: '*' :: s ++ '*' :: '/' :: t)
  | line {s t : List Char} (hs : '\n' ∉ unsplice s) (hlast : s.getLast? ≠ some '\\') (ht : Gap t) :
      Gap ('/' :: '/' :: s ++ '\n' :: t)

/-- A comma between gaps. -/
def Separator (t : List Char) : Prop := ∃ g g', Gap g ∧ Gap g' ∧ t = g ++ ',' :: g'

inductive Spelling where
  | hex (upper : Bool) (digits : List Char)
  | dec (digits : List Char)
deriving DecidableEq, Repr

namespace Spelling

def text : Spelling → List Char
  | hex upper digits => '0' :: (if upper then 'X' else 'x') :: digits
  | dec digits => digits

def value : Spelling → Nat
  | hex _ digits => numeral 16 digits
  | dec digits => numeral 10 digits

/-- The spelling is that of a constant of C. -/
def Valid : Spelling → Prop
  | hex _ digits => digits ≠ [] ∧ ∀ c ∈ digits, isHexDigit c = true
  | dec digits => digits ≠ [] ∧ (∀ c ∈ digits, isDecDigit c = true) ∧
      (digits = ['0'] ∨ digits.head? ≠ some '0')

instance : ∀ s : Spelling, Decidable s.Valid
  | hex _ digits => decidable_of_iff (digits ≠ [] ∧ digits.all isHexDigit = true)
      (and_congr Iff.rfl List.all_eq_true)
  | dec digits => decidable_of_iff (digits ≠ [] ∧ digits.all isDecDigit = true ∧
      (digits = ['0'] ∨ digits.head? ≠ some '0'))
      (and_congr Iff.rfl (and_congr List.all_eq_true Iff.rfl))

end Spelling

/-- A constant from 0 to 255. -/
structure Constant where
  spelling : Spelling
  valid : spelling.Valid
  le : spelling.value ≤ 255

namespace Constant

def byte (c : Constant) : Byte := BitVec.ofNat 8 c.spelling.value

/-- What `hexPattern` finds in a constant. -/
def picked (c : Constant) : List Byte :=
  match c.spelling with
  | .hex false (a :: b :: _) => [BitVec.ofNat 8 (numeral 16 [a, b])]
  | _ => []

/-- The constant is written as `hexPattern` expects it: `0x` and two digits; a zero may have more. -/
def Plain (c : Constant) : Prop :=
  ∃ digits, c.spelling = .hex false digits ∧
    (digits.length = 2 ∨ 2 ≤ digits.length ∧ c.spelling.value = 0)

end Constant

/-- The constants of an initialiser, each with the text up to the next. -/
inductive Items : List (Constant × List Char) → Prop where
  | last {c : Constant} {t : List Char} (ht : Gap t ∨ Separator t) : Items [(c, t)]
  | more {c : Constant} {t : List Char} {l : List (Constant × List Char)} (ht : Separator t)
      (hl : Items l) : Items ((c, t) :: l)

/-- `const uint8_t name[length] = {…}`. -/
structure Declaration where
  space₁ : List Char
  space₂ : List Char
  name : List Char
  /-- The digits in the brackets; none declare no length. -/
  length : List Char
  space₃ : List Char
  space₄ : List Char
  lead : List Char
  items : List (Constant × List Char)
  space₁_ne : space₁ ≠ []
  space₂_ne : space₂ ≠ []
  name_ne : name ≠ []
  spaces : ∀ c ∈ space₁ ++ space₂ ++ space₃ ++ space₄, isCSpace c = true
  identifier : ∀ c ∈ name, isIdentifierChar c = true
  digits : (∀ c ∈ length, isDecDigit c = true) ∧ length.head? ≠ some '0'
  gap : Gap lead
  list : Items items

namespace Declaration

def bodyOf (items : List (Constant × List Char)) : List Char :=
  items.flatMap fun a => a.1.spelling.text ++ a.2

/-- What stands between the braces. -/
def body (d : Declaration) : List Char := d.lead ++ bodyOf d.items

/-- The declaration up to the closing brace, and a text after it. -/
def before (d : Declaration) (rest : List Char) : List Char :=
  constText ++ (d.space₁ ++ (uint8Text ++ (d.space₂ ++ (d.name ++ (['['] ++ (d.length ++
    ([']'] ++ (d.space₃ ++ (['='] ++ (d.space₄ ++ (['{'] ++ (d.body ++ '}' :: rest))))))))))))

/-- The listed values. -/
def values (d : Declaration) : List Byte := d.items.map fun a => a.1.byte

/-- The declared length agrees with the number of values `n`. -/
def LengthIs (d : Declaration) (n : Nat) : Prop := d.length ≠ [] → numeral 10 d.length = n

/-- What `hexPattern` finds in the constants and comments up to the first closing brace. -/
def seenOf : List (Constant × List Char) → List Byte
  | [] => []
  | (c, t) :: l =>
      c.picked ++ (hexBytes (t.takeWhile (· != '}')) ++ if '}' ∈ t then [] else seenOf l)

def seen (d : Declaration) : List Byte :=
  hexBytes (d.lead.takeWhile (· != '}')) ++ if '}' ∈ d.lead then [] else seenOf d.items

/-- No comment holds a closing brace, or anything like a constant. -/
def Quiet (d : Declaration) : Prop :=
  ('}' ∉ d.lead ∧ hexBytes d.lead = []) ∧ ∀ a ∈ d.items, '}' ∉ a.2 ∧ hexBytes a.2 = []

end Declaration

end Encryptor
