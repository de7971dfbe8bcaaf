import Pico2wTfm.Results.HeaderParsing
import Pico2wTfm.Tools.Files

/-!
# Results — GeneratedSource

The source that `generate_c_header` writes is read back by `parse_tinymaix_header`.  It is a comment,
an `#include`, a comment and one array, whose initialiser lists the bytes of the package in rows of
16.  The `#include` holds the base name of the header file as it is, so that the patterns may find
something in it:

* `source_round_trip`: what is read back is the package, if they do not;
* `include_read_back`: otherwise it may be another array.
-/

namespace Encryptor
open Bytes Pattern

/-! ### A row -/

theorem digitChar_spec : ∀ n < 16, isHexDigit (Nat.digitChar n) = true ∧
    digitOf (Nat.digitChar n) = n := by
  decide

theorem hex2_spec (b : Byte) : (∀ c ∈ hex2 b, isHexDigit c = true) ∧
    numeral 16 (hex2 b) = b.toNat := by
  have hb := b.isLt
  obtain ⟨hhigh, vhigh⟩ := digitChar_spec (b.toNat / 16) (by omega)
  obtain ⟨hlow, vlow⟩ := digitChar_spec (b.toNat % 16) (Nat.mod_lt _ (by decide))
  refine ⟨List.forall_mem_cons.mpr ⟨hhigh, List.forall_mem_singleton.mpr hlow⟩, ?_⟩
  show 16 * (16 * 0 + digitOf (Nat.digitChar (b.toNat / 16))) +
    digitOf (Nat.digitChar (b.toNat % 16)) = b.toNat
  rw [vhigh, vlow]
  omega

/-- A byte as it is written. -/
def hexConstant (b : Byte) : Constant where
  spelling := .hex false (hex2 b)
  valid := ⟨List.cons_ne_nil _ _, (hex2_spec b).1⟩
  le := (hex2_spec b).2.trans_le (Nat.le_of_lt_succ b.isLt)

theorem byte_hexConstant (b : Byte) : (hexConstant b).byte = b := by
  show BitVec.ofNat 8 (numeral 16 (hex2 b)) = b
  rw [(hex2_spec b).2, BitVec.ofNat_toNat, BitVec.setWidth_eq]

/-- The items list the bytes, each in the way that `hexPattern` expects, and it finds nothing between
them; nor is there anything that starts a `#define`. -/
structure Lists (l : List (Constant × List Char)) (p : List Byte) : Prop where
  items : Items l
  values : l.map (fun a => a.1.byte) = p
  plain : ∀ a ∈ l, a.1.Plain
  quiet : ∀ a ∈ l, '}' ∉ a.2 ∧ hexBytes a.2 = []
  hash : '#' ∉ Declaration.bodyOf l

/-- A comma and white space. -/
structure Comma (e : List Char) : Prop where
  separator : Separator e
  quiet : '}' ∉ e ∧ hexBytes e = []
  hash : '#' ∉ e

theorem comma_spaces {t : List Char} (ht : ∀ c ∈ t, c = ' ' ∨ c = '\n') : Comma (',' :: t) := by
  have gap : Gap t := by
    induction t with
    | nil => exact .nil
    | cons c t ih =>
        obtain ⟨hc, ht⟩ := List.forall_mem_cons.mp ht
        exact .space (by rcases hc with rfl | rfl <;> rfl) (ih ht)
  have absent : ∀ {d : Char}, d ≠ ',' → d ≠ ' ' → d ≠ '\n' → d ∉ ',' :: t := by
    intro d h₁ h₂ h₃ hd
    rcases List.mem_cons.mp hd with rfl | hd
    · exact h₁ rfl
    · exact (ht d hd).elim h₂ h₃
  exact ⟨⟨[], t, .nil, gap, rfl⟩, ⟨absent (by decide) (by decide) (by decide),
    hexBytes_of_no_x (absent (by decide) (by decide) (by decide))⟩,
    absent (by decide) (by decide) (by decide)⟩

theorem Constant.no_hash (c : Constant) : '#' ∉ c.spelling.text := by
  intro h
  rcases c.text_chars.2 '#' h with h | h | h
  · exact absurd h (by decide)
  · exact absurd h (by decide)
  · exact absurd h (by decide)

section Rows

variable {l : List (Constant × List Char)} {p chunk : List Byte} {e : List Char}

/-- One more byte. -/
theorem Lists.push (h : l = [] ∧ p = [] ∨ Lists l p) (he : Comma e) (b : Byte) :
    Lists ((hexConstant b, e) :: l) (b :: p) := by
  have plain : (hexConstant b).Plain := ⟨hex2 b, rfl, Or.inl rfl⟩
  have hash : ∀ l, '#' ∉ Declaration.bodyOf l →
      '#' ∉ Declaration.bodyOf ((hexConstant b, e) :: l) := by
    intro l hl hmem
    rw [Declaration.bodyOf, List.flatMap_cons, List.mem_append, List.mem_append] at hmem
    rcases hmem with (hmem | hmem) | hmem
    · exact (hexConstant b).no_hash hmem
    · exact he.hash hmem
    · exact hl hmem
  rcases h with ⟨rfl, rfl⟩ | h
  · refine ⟨.last (Or.inr he.separator), ?_, ?_, ?_, hash [] List.not_mem_nil⟩
    · rw [List.map_cons, byte_hexConstant, List.map_nil]
    · exact List.forall_mem_singleton.mpr plain
    · exact List.forall_mem_singleton.mpr he.quiet
  · refine ⟨.more he.separator h.items, ?_, ?_, ?_, hash l h.hash⟩
    · rw [List.map_cons, byte_hexConstant, h.values]
    · exact List.forall_mem_cons.mpr ⟨plain, h.plain⟩
    · exact List.forall_mem_cons.mpr ⟨he.quiet, h.quiet⟩

/-- **A row**, a comma, and the items after it. -/
theorem hexRow_lists (hne : chunk ≠ []) (he : Comma e) (h : l = [] ∧ p = [] ∨ Lists l p) :
    ∃ l', Lists l' (chunk ++ p) ∧
      Declaration.bodyOf l' = hexRow chunk ++ (e ++ Declaration.bodyOf l) := by
  induction chunk with
  | nil => exact absurd rfl hne
  | cons b chunk ih =>
      cases chunk with
      | nil =>
          refine ⟨(hexConstant b, e) :: l, .push h he b, ?_⟩
          rw [hexRow, List.map_cons, List.map_nil, List.intercalate_singleton, Declaration.bodyOf,
            List.flatMap_cons, List.append_assoc]
          rfl
      | cons b' chunk =>
          obtain ⟨l', hl', hbody⟩ := ih (List.cons_ne_nil _ _)
          have hcomma : Comma ", ".toList := comma_spaces (t := [' ']) fun c hc =>
            Or.inl (List.mem_singleton.mp hc)
          refine ⟨(hexConstant b, ", ".toList) :: l', .push (Or.inr hl') hcomma b, ?_⟩
          rw [Declaration.bodyOf, List.flatMap_cons, ← Declaration.bodyOf, hbody, hexRow, hexRow,
            List.map_cons, List.map_cons, List.map_cons, List.intercalate_cons_cons]
          simp only [List.append_assoc]
          rfl

theorem hexRows_nil : hexRows [] = [] := rfl

theorem hexRows_step (hp : p ≠ []) : hexRows p =
    ("    ".toList ++ hexRow (p.take 16) ++ [',']) :: hexRows (p.drop 16) := by
  have hlen := List.length_pos_iff.mpr hp
  have hcount : (p.length + 15) / 16 = ((p.drop 16).length + 15) / 16 + 1 := by
    rw [List.length_drop]
    omega
  rw [hexRows, hcount, List.range_succ_eq_map, List.map_cons, List.map_map, hexRows]
  refine congrArg₂ _ rfl (List.map_congr_left fun i _ => ?_)
  rw [Function.comp_apply, List.drop_drop, Nat.succ_eq_add_one, Nat.mul_succ, Nat.add_comm (16 * i)]

/-- **The rows.** -/
theorem hexRows_lists (hp : p ≠ []) :
    ∃ l, Lists l p ∧ unlines (hexRows p) = "    ".toList ++ Declaration.bodyOf l := by
  induction hn : p.length using Nat.strong_induction_on generalizing p with
  | _ n ih =>
      have htake : p.take 16 ≠ [] := by
        intro h
        rcases List.take_eq_nil_iff.mp h with h | h
        · cases h
        · exact hp h
      have hsplit : p.take 16 ++ p.drop 16 = p := List.take_append_drop 16 p
      have hrow : ∀ rest, unlines (("    ".toList ++ hexRow (p.take 16) ++ [',']) :: rest) =
          "    ".toList ++ (hexRow (p.take 16) ++ (",\n".toList ++ unlines rest)) := by
        intro rest
        rw [unlines, List.flatMap_cons]
        simp only [List.append_assoc]
        rfl
      rw [hexRows_step hp, hrow]
      by_cases hrest : p.drop 16 = []
      · have hcomma : Comma ",\n".toList := comma_spaces (t := ['\n']) fun c hc =>
          Or.inr (List.mem_singleton.mp hc)
        obtain ⟨l, hl, hbody⟩ := hexRow_lists htake hcomma (Or.inl ⟨rfl, rfl⟩)
        rw [hrest, List.append_nil] at hsplit
        rw [List.append_nil, hsplit] at hl
        exact ⟨l, hl, by rw [hbody, hrest, hexRows_nil]; rfl⟩
      · have hlt : (p.drop 16).length < n := by
          have := List.length_pos_iff.mpr hp
          rw [List.length_drop]
          omega
        obtain ⟨l, hl, hrows⟩ := ih _ hlt hrest rfl
        have hcomma : Comma (",\n".toList ++ "    ".toList) := by
          refine comma_spaces (t := '\n' :: "    ".toList) fun c hc => ?_
          rcases List.mem_cons.mp hc with rfl | hc
          · exact Or.inr rfl
          · have spaces : c ∈ List.replicate 4 ' ' := hc
            exact Or.inl (List.eq_of_mem_replicate spaces)
        obtain ⟨l', hl', hbody⟩ := hexRow_lists htake hcomma (Or.inr hl)
        rw [hsplit] at hl'
        exact ⟨l', hl', by rw [hbody, hrows, List.append_assoc]⟩

end Rows

/-! ### The array -/

theorem space_ne : [' '] ≠ ([] : List Char) := List.cons_ne_nil _ _

theorem dataName_ne (name : List Char) : name ++ "_data".toList ≠ [] :=
  List.append_ne_nil_of_right_ne_nil _ (List.cons_ne_nil _ _)

theorem dataName_identifier {name : List Char} (hname : ∀ c ∈ name, isIdentifierChar c = true) :
    ∀ c ∈ name ++ "_data".toList, isIdentifierChar c = true :=
  List.forall_mem_append.mpr ⟨hname, List.all_eq_true.mp rfl⟩

theorem four_spaces : ∀ c ∈ [' '] ++ [' '] ++ [' '] ++ [' '], isCSpace c = true :=
  List.all_eq_true.mp rfl

theorem no_length :
    (∀ c ∈ ([] : List Char), isDecDigit c = true) ∧ ([] : List Char).head? ≠ some '0' :=
  ⟨fun _ h => absurd h List.not_mem_nil, (Option.some_ne_none '0').symm⟩

theorem lead_gap : Gap "\n    ".toList :=
  .space rfl (.space rfl (.space rfl (.space rfl (.space rfl .nil))))

/-- The array of the source. -/
def sourceArray (name : List Char) (hname : ∀ c ∈ name, isIdentifierChar c = true)
    (l : List (Constant × List Char)) (hl : Items l) : Declaration where
  space₁ := [' ']
  space₂ := [' ']
  name := name ++ "_data".toList
  length := []
  space₃ := [' ']
  space₄ := [' ']
  lead := "\n    ".toList
  items := l
  space₁_ne := space_ne
  space₂_ne := space_ne
  name_ne := dataName_ne name
  spaces := four_spaces
  identifier := dataName_identifier hname
  digits := no_length
  gap := lead_gap
  list := hl

theorem seen_sourceArray {name : List Char} {hname : ∀ c ∈ name, isIdentifierChar c = true}
    {l : List (Constant × List Char)} {p : List Byte} (h : Lists l p) :
    (sourceArray name hname l h.items).seen = p := by
  have quiet : (sourceArray name hname l h.items).Quiet :=
    ⟨⟨(by decide : '}' ∉ "\n    ".toList), hexBytes_of_no_x (by decide : 'x' ∉ "\n    ".toList)⟩,
      h.quiet⟩
  rw [seen_of_quiet quiet]
  exact (flatMap_picked_eq.mpr h.plain).trans h.values

/-- The source up to the base name of the header file, the line after it, and the source up to the
array. -/
def beforeInclude : List Char :=
  unlines ["/* Auto-generated encrypted TinyMAIX model */".toList,
    "/* Generated by tinymaix_model_encryptor.py */".toList, []] ++ "#include ".toList

def sourcePre (p : List Byte) (headerFilePath : Path) : List Char :=
  beforeInclude ++ ['"'] ++ (basename headerFilePath ++ ['"'] ++
    ('\n' :: '\n' :: "/* Encrypted model data ".toList ++ ['('] ++
      (natText p.length ++ " bytes".toList ++ [')'] ++ (" *".toList ++ ['/'] ++ ['\n']))))

/-- The source after the array. -/
def sourceRest (name : List Char) : List Char :=
  unlines [[';'], [], "const size_t ".toList ++ name ++ "_size = sizeof(".toList ++ name ++
    "_data);".toList, []]

theorem before_sourceArray {name : List Char} {hname : ∀ c ∈ name, isIdentifierChar c = true}
    {l : List (Constant × List Char)} {hl : Items l} {rest : List Char} :
    (sourceArray name hname l hl).before rest = constText ++ ([' '] ++ (uint8Text ++ ([' '] ++
      ((name ++ "_data".toList) ++ (['['] ++ ([] ++ ([']'] ++ ([' '] ++ (['='] ++ ([' '] ++ (['{'] ++
        (("\n    ".toList ++ Declaration.bodyOf l) ++ '}' :: rest)))))))))))) := rfl

theorem sourceText_eq {name : List Char} (hname : ∀ c ∈ name, isIdentifierChar c = true)
    {p : List Byte} {l : List (Constant × List Char)} (hl : Items l)
    (hrows : unlines (hexRows p) = "    ".toList ++ Declaration.bodyOf l)
    (headerFilePath : Path) : sourceText p headerFilePath name =
      sourcePre p headerFilePath ++
        (sourceArray name hname l hl).before (sourceRest name) := by
  have unlines_append : ∀ a b, unlines (a ++ b) = unlines a ++ unlines b := fun a b =>
    List.flatMap_append
  have h₁ : "#include \"".toList = "#include ".toList ++ ['"'] := rfl
  have h₂ : "/* Encrypted model data (".toList = "/* Encrypted model data ".toList ++ ['('] := rfl
  have h₃ : " bytes) */".toList = " bytes".toList ++ [')'] ++ " *".toList ++ ['/'] := rfl
  have h₄ : "const uint8_t ".toList = constText ++ [' '] ++ uint8Text ++ [' '] := rfl
  have h₅ : "_data[] = ".toList = "_data".toList ++ ['['] ++ [']'] ++ [' '] ++ ['='] ++ [' '] := rfl
  have h₆ : "\n    ".toList = '\n' :: "    ".toList := rfl
  rw [sourceText, unlines_append, unlines_append, hrows, before_sourceArray, sourcePre,
    beforeInclude, sourceRest]
  simp only [h₁, h₂, h₃, h₄, h₅, h₆, unlines, List.flatMap_cons, List.flatMap_nil,
    List.append_assoc, List.cons_append, List.nil_append, List.append_nil]

/-! ### Reading it back -/

/-- The patterns find nothing in the base name of the header file. -/
def PlainInclude (py : Python) (headerFilePath : Path) : Prop :=
  search (arrayPattern py) (basename headerFilePath) = none ∧
    search (definePattern py mdlBufLenText) (basename headerFilePath) = none ∧
    search (definePattern py lbufLenText) (basename headerFilePath) = none

section Parse

variable {py : Python} {p : List Byte} {name : List Char} {headerFilePath : Path}

/-- A character that separates, for `arrayPattern`. -/
theorem avoids_arrayPattern {q : Char} (hq : q = '"' ∨ q = '(' ∨ q = ')' ∨ q = '/') :
    ∀ part ∈ arrayPattern py, part.Avoids q := by
  have hlit : q ∉ constText ∧ q ∉ uint8Text ∧ q ∉ ['['] ∧ q ∉ [']'] ∧ q ∉ ['='] := by
    rcases hq with rfl | rfl | rfl | rfl <;> decide
  have hclass : q.toNat < 128 ∧ isAsciiSpace q = false ∧ isIdentifierChar q = false ∧
      isDecDigit q = false := by
    rcases hq with rfl | rfl | rfl | rfl <;> decide
  obtain ⟨hconst, huint8, hopen, hclose, heq⟩ := hlit
  obtain ⟨hascii, hspace, hword, hdigit⟩ := hclass
  have hspace := @Python.not_space py _ hascii hspace
  have hword := @Python.not_word py _ hascii hword
  have hdigit := @Python.not_digit py _ hascii hdigit
  simp only [arrayPattern, List.forall_mem_cons]
  exact ⟨hconst, hspace, huint8, hspace, hword, hopen, hdigit, hclose, hspace, heq,
    fun _ h => absurd h List.not_mem_nil⟩

theorem avoids_definePattern {n : List Char} (hn : '"' ∉ n) :
    ∀ part ∈ definePattern py n, part.Avoids '"' := by
  have hdefine : '"' ∉ defineText ∧ '"' ∉ ['('] ∧ '"' ∉ [')'] := by decide
  obtain ⟨hdefine, hopen, hclose⟩ := hdefine
  have hspace : py.space '"' = false := Python.not_space (by decide) (by decide)
  have hdigit : py.digit '"' = false := Python.not_digit (by decide) (by decide)
  simp only [definePattern, List.forall_mem_cons]
  exact ⟨hdefine, hspace, hn, hspace, hopen, hdigit, hclose, fun _ h => absurd h List.not_mem_nil⟩

theorem natText_digits {n : Nat} {c : Char} (hc : c ∈ natText n) : isDecDigit c = true := by
  have key := Nat.isDigit_of_mem_toDigits (by decide) (by decide) hc
  rw [Char.isDigit, Bool.and_eq_true, decide_eq_true_eq, decide_eq_true_eq] at key
  exact isDecDigit_iff.mpr key

/-- Nothing before the array looks like one. -/
theorem passes_sourcePre (h : search (arrayPattern py) (basename headerFilePath) = none)
    {s : List Char} : Passes (arrayPattern py) (sourcePre p headerFilePath) s := by
  have segment : ∀ {a q : Char} {pre s : List Char}, (q = '"' ∨ q = '(' ∨ q = ')' ∨ q = '/') →
      a ∈ constText → a ∉ pre → Passes (arrayPattern py) (pre ++ [q]) s := fun hq ha hpre =>
    passes_of_search (avoids_arrayPattern hq) (search_lit_eq_none ha hpre)
  have digits : 'c' ∉ natText p.length ++ " bytes".toList := by
    intro hc
    rcases List.mem_append.mp hc with hc | hc
    · exact absurd (natText_digits hc) (by decide)
    · exact absurd hc (by decide)
  have newline : Passes (arrayPattern py) ['\n'] s := by
    intro as c bs heq
    have hlen := congrArg List.length heq
    simp only [List.length_append, List.length_cons, List.length_nil] at hlen
    obtain rfl : as = [] := List.length_eq_zero_iff.mp (by omega)
    obtain ⟨rfl, rfl⟩ := List.cons.inj heq
    exact if_neg fun hpre => absurd (List.cons_prefix_cons.mp hpre).1 (by decide)
  refine Passes.append (segment (a := 's') (by decide) (by decide) (by decide)) ?_
  refine Passes.append (passes_of_search (avoids_arrayPattern (by decide)) h) ?_
  refine Passes.append (segment (a := 's') (by decide) (by decide) (by decide)) ?_
  refine Passes.append (segment (a := 'c') (by decide) (by decide) digits) ?_
  exact Passes.append (segment (a := 'c') (by decide) (by decide) (by decide)) newline

/-- What follows the name of the header file. -/
def afterInclude (p : List Byte) : List Char :=
  '\n' :: '\n' :: "/* Encrypted model data ".toList ++ ['('] ++
    (natText p.length ++ " bytes".toList ++ [')'] ++ (" *".toList ++ ['/'] ++ ['\n']))

theorem hash_afterInclude : '#' ∉ afterInclude p := by
  have hdigits : '#' ∉ natText p.length := fun h => absurd (natText_digits h) (by decide)
  simp only [afterInclude, List.mem_append, not_or]
  exact ⟨⟨by decide, by decide⟩, ⟨⟨hdigits, by decide⟩, by decide⟩, ⟨by decide, by decide⟩, by decide⟩

theorem hash_sourceArray {hname : ∀ c ∈ name, isIdentifierChar c = true}
    {l : List (Constant × List Char)} (h : Lists l p) :
    '#' ∉ (sourceArray name hname l h.items).before (sourceRest name) := by
  have hn : '#' ∉ name := fun hmem => absurd (hname '#' hmem) (by decide)
  rw [before_sourceArray]
  simp [sourceRest, unlines, constText, uint8Text, hn, h.hash]

/-- Neither length is defined. -/
theorem defined_source {n : List Char} (hn : '"' ∉ n)
    (hb : search (definePattern py n) (basename headerFilePath) = none)
    {hname : ∀ c ∈ name, isIdentifierChar c = true} {l : List (Constant × List Char)}
    (hl : Lists l p) :
    defined py n (sourcePre p headerFilePath ++
      (sourceArray name hname l hl.items).before (sourceRest name)) = .ok 0 := by
  have hsplit : ∀ s, sourcePre p headerFilePath ++ s =
      beforeInclude ++ '"' :: (basename headerFilePath ++ '"' :: (afterInclude p ++ s)) := fun s => by
    simp only [sourcePre, afterInclude, List.append_assoc, List.cons_append, List.nil_append]
  have hbefore : search (definePattern py n) beforeInclude = none :=
    search_lit_eq_none (a := 'f') (by decide) (by decide)
  have hafter : search (definePattern py n) (afterInclude p ++
      (sourceArray name hname l hl.items).before (sourceRest name)) = none := by
    refine search_lit_eq_none (a := '#') (by decide) fun hmem => ?_
    exact (List.mem_append.mp hmem).elim hash_afterInclude (hash_sourceArray hl)
  rw [defined, hsplit, search_avoids (avoids_definePattern hn), hbefore,
    search_avoids (avoids_definePattern hn), hb, hafter]
  rfl

/-- **The generated source.**  Its array has no declared length and lists the bytes of the package;
and the package is read back, if the patterns find nothing in the base name of the header file. -/
theorem source_round_trip (hp : p ≠ []) (hname : ∀ c ∈ name, isIdentifierChar c = true) :
    (∃ (pre : List Char) (d : Declaration) (rest : List Char),
      sourceText p headerFilePath name = pre ++ d.before rest ∧
      d.name = name ++ "_data".toList ∧ d.length = [] ∧ d.values = p) ∧
    (PlainInclude py headerFilePath →
      parseTinymaixHeader py (sourceText p headerFilePath name) =
        .ok ⟨p, name ++ "_data".toList, 0, 0⟩) := by
  obtain ⟨l, hl, hrows⟩ := hexRows_lists hp
  have htext := sourceText_eq hname hl.items hrows headerFilePath
  refine ⟨⟨_, _, _, htext, rfl, rfl, hl.values⟩, fun ⟨harray, hmdl, hlbuf⟩ => ?_⟩
  have first : First py (sourcePre p headerFilePath) (sourceArray name hname l hl.items)
      (sourceRest name) := passes_sourcePre harray
  have hne : (sourceArray name hname l hl.items).seen ≠ [] := by rwa [seen_sourceArray hl]
  rw [htext, parse_first first, defined_source (by decide) hmdl hl,
    defined_source (by decide) hlbuf hl]
  show (if (sourceArray name hname l hl.items).seen = [] then _ else _) = _
  rw [if_neg hne, seen_sourceArray hl]
  rfl

end Parse

/-- Twenty bytes, which take two rows. -/
def twoRows : List Byte := (List.range 20).map (BitVec.ofNat 8)

/-- A package of two rows, read back. -/
theorem source_round_trip_rows :
    parseTinymaixHeader asciiPython (sourceText twoRows "m.h".toList ['m']) =
      .ok ⟨twoRows, "m_data".toList, 0, 0⟩ :=
  (source_round_trip (by decide) (List.all_eq_true.mp rfl)).2 ⟨by decide, by decide, by decide⟩

/-- **Another array is read back**: one in the name of the header file. -/
theorem include_read_back :
    parseTinymaixHeader asciiPython
        (sourceText [1] "const uint8_t x[]=\x7b0x00\x7d.h".toList ['m']) = .ok ⟨[0], ['x'], 0, 0⟩ ∧
      (⟨[0], ['x'], 0, 0⟩ : ParsedHeader) ≠ ⟨[1], "m_data".toList, 0, 0⟩ := by
  decide +kernel

end Encryptor
