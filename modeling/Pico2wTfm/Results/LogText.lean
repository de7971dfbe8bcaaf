import Pico2wTfm.Log.Printf
import Pico2wTfm.Support.Emit

/-!
# Results — LogText

The log prints the formatted text.  A format is read as pieces, some of which take an argument
(`pieces`); `formatted` is what they print, whatever the buffer does.  The buffer stands for a writer
of chunks (`Holds`), every function of the log emits its part of the text, and the digits of a number
fit the array they are collected in.
-/

namespace Log
open Bytes (Byte)
open Emit

/-! ### What a format says -/

def ascii (s : String) : List Byte := s.toList.map ch

/-- A part of a format. -/
inductive Piece where
  /-- Printed as it is. -/
  | fixed (text : List Byte)
  /-- A rendering of an argument. -/
  | word (render : BitVec 32 → List Byte)
  | str

/-- The supported tags. -/
def tagPiece (tag : Byte) : Option Piece :=
  if tag = ch 'd' ∨ tag = ch 'i' then some (.word fun w => ascii (toString w.toInt))
  else if tag = ch 'u' then some (.word fun w => ascii (toString w.toNat))
  else if tag = ch 'x' then some (.word fun w => (Nat.toDigits 16 w.toNat).map ch)
  else if tag = ch 'X' then
    some (.word fun w => (Nat.toDigits 16 w.toNat).map fun c => ch c.toUpper)
  else if tag = ch 'p' then
    some (.word fun w => ascii "0x" ++ (Nat.toDigits 16 w.toNat).map ch)
  else if tag = ch 's' then some .str
  else if tag = ch 'c' then some (.word fun w => [w.setWidth 8])
  else if tag = ch '%' then some (.fixed [ch '%'])
  else none

/-- The pieces of a format, without its terminator. -/
def pieces : List Byte → List Piece
  | [] => []
  | c :: text =>
      if c = ch '%' then
        match text with
        | [] => [.fixed (ascii "[Unsupported Tag]")]
        | tag :: rest =>
            match tagPiece tag with
            | some p => p :: pieces rest
            | none => .fixed (ascii "[Unsupported Tag]") :: pieces (tag :: rest)
      else .fixed [c] :: pieces text

/-- What a piece prints, and the arguments that are left; `none` when they do not match it. -/
def Piece.print : Piece → List Arg → Option (List Byte × List Arg)
  | .fixed text, args => some (text, args)
  | .word render, .word w :: args => some (render w, args)
  | .str, .str mem :: args => if 0 ∈ mem then some (mem.takeWhile (· ≠ 0), args) else none
  | _, _ => none

def printAll : List Piece → List Arg → Option (List Byte)
  | [], _ => some []
  | p :: ps, args => do
      let (s, args) ← p.print args
      let t ← printAll ps args
      return s ++ t

/-- **The formatted text**, for arguments that match the format. -/
def formatted (text : List Byte) (args : List Arg) : Option (List Byte) :=
  printAll (pieces text) args

/-! ### The buffer -/

/-- The buffer stands for a writer. -/
structure Holds (s : Output) (w : Chunked Byte printBuffSize) : Prop where
  printed : s.printed = w.chunks
  pos : s.pb.pos = w.pending.length
  buf : s.pb.buf.toList.take s.pb.pos = w.pending

/-- The length as the functions count it. -/
def size (t : List Byte) : BitVec 32 := BitVec.ofNat 32 t.length

theorem size_append (s t : List Byte) : size (s ++ t) = size s + size t := by
  rw [size, List.length_append, BitVec.ofNat_add]
  rfl

theorem size_cons (c : Byte) (t : List Byte) : size (c :: t) = 1 + size t := size_append [c] t

theorem zero_add_size (t : List Byte) : 0 + size t = size t := BitVec.zero_add _

theorem take_set_succ {α : Type} {l : List α} {i : Nat} (h : i < l.length) (a : α) :
    (l.set i a).take (i + 1) = l.take i ++ [a] := by
  have hi : i < (l.set i a).length := by rwa [List.length_set]
  rw [List.take_succ_eq_append_getElem hi, List.take_set_of_le (Nat.le_refl i),
    List.getElem_set_self]

/-- **`_tfm_flush_formatted_buffer`** pushes one character. -/
theorem emits_flush (c : Byte) : Emits Holds (tfmFlushFormattedBuffer c) [c] () := by
  rintro ⟨⟨pos, buf⟩, printed⟩ w ⟨rfl, rfl, hbuf⟩
  have room : w.pending.length < printBuffSize := w.short
  have taken : (buf.set w.pending.length c).toList.take (w.pending.length + 1) =
      w.pending ++ [c] := by
    rw [Vector.toList_set, take_set_succ (by rwa [Vector.length_toList]), hbuf]
  show ∃ s', _ ∧ Holds s' (w.push c)
  simp only [tfmFlushFormattedBuffer, Chunked.push, StateT.run_bind, StateT.run_get, dif_pos room,
    pure_bind]
  by_cases h : w.pending.length + 1 < printBuffSize
  · rw [if_neg (Nat.not_le.mpr h), dif_pos h]
    refine ⟨_, rfl, rfl, ?_, taken⟩
    show w.pending.length + 1 = (w.pending ++ [c]).length
    rw [List.length_append]
    rfl
  · rw [if_pos (Nat.not_lt.mp h), dif_neg h]
    refine ⟨_, rfl, ?_, rfl, rfl⟩
    have all : (buf.set w.pending.length c).toList.length ≤ w.pending.length + 1 := by
      rw [Vector.length_toList]
      exact Nat.not_lt.mp h
    show w.chunks ++ [_] = w.chunks ++ [w.pending ++ [c]]
    rw [← taken, List.take_of_length_le all]

/-- **`_tfm_string_output`** prints a string up to its terminator. -/
theorem emits_stringLoop {str : List Byte} (h : 0 ∉ str) (rest : List Byte) (count : BitVec 32) :
    Emits Holds (stringLoop (str ++ 0 :: rest) count) str (count + size str) := by
  induction str generalizing count with
  | nil =>
      rw [size, List.length_nil, BitVec.ofNat_eq_ofNat, BitVec.add_zero]
      exact .pure count
  | cons c str ih =>
      obtain ⟨hc, hstr⟩ := not_or.mp (mt List.mem_cons.mpr h)
      rw [List.cons_append, stringLoop, if_pos (Ne.symm hc), size_cons, ← BitVec.add_assoc]
      exact (emits_flush c).bind (ih hstr (count + 1))

theorem emits_string {str : List Byte} (h : 0 ∉ str) (rest : List Byte) :
    Emits Holds (tfmStringOutput (str ++ 0 :: rest)) str (size str) := by
  rw [← zero_add_size]
  exact emits_stringLoop h rest 0

/-! ### Numbers -/

section Numbers

variable {digit : BitVec 32 → Byte} {next : BitVec 32 → BitVec 32} {b : Nat} {f : Char → Byte}

/-- **The digits** are collected from the last to the first. -/
theorem numDigits_eq (hb : 1 < b) (hdigit : ∀ n, digit n = f (Nat.digitChar (n.toNat % b)))
    (hnext : ∀ n, (next n).toNat = n.toNat / b) (number : BitVec 32)
    (numBuff : Vector Byte numBuffSize) (k : Nat)
    (room : k + (Nat.toDigits b number.toNat).length ≤ numBuffSize) :
    ∃ numBuff', numDigits digit next number numBuff k =
        .ok (numBuff', k + (Nat.toDigits b number.toNat).length) ∧
      numBuff'.toList.take (k + (Nat.toDigits b number.toNat).length) =
        numBuff.toList.take k ++ ((Nat.toDigits b number.toNat).map f).reverse := by
  have pos : 0 < (Nat.toDigits b number.toNat).length := Nat.length_toDigits_pos
  have hk : k < numBuffSize := by omega
  have set : (numBuff.set k (digit number)).toList.take (k + 1) =
      numBuff.toList.take k ++ [f (Nat.digitChar (number.toNat % b))] := by
    rw [Vector.toList_set, take_set_succ (by rwa [Vector.length_toList]), hdigit]
  rw [numDigits, dif_pos hk]
  by_cases hn : next number = 0
  · have small : number.toNat < b := by
      have zero : number.toNat / b = 0 := by rw [← hnext, hn]; rfl
      exact (Nat.div_eq_zero_iff_lt (Nat.zero_lt_of_lt hb)).mp zero
    rw [Nat.mod_eq_of_lt small] at set
    rw [Nat.toDigits_of_lt_base small, if_neg (not_not.mpr hn)]
    exact ⟨_, rfl, set⟩
  · have big : b ≤ number.toNat := by
      refine Nat.not_lt.mp fun small => hn (BitVec.eq_of_toNat_eq ?_)
      rw [hnext, Nat.div_eq_of_lt small]
      rfl
    have digits := Nat.toDigits_of_base_le hb big
    rw [digits, List.length_append] at room
    rw [if_pos hn, digits, List.length_append, List.map_append, List.reverse_append]
    have shift : k + ((Nat.toDigits b (number.toNat / b)).length + 1) =
        k + 1 + (Nat.toDigits b (number.toNat / b)).length := by omega
    obtain ⟨numBuff', run, taken⟩ := numDigits_eq hb hdigit hnext (next number)
      (numBuff.set k (digit number)) (k + 1) (by rw [hnext, ← shift]; exact room)
    rw [hnext, set] at taken
    rw [hnext] at run
    refine ⟨numBuff', ?_, ?_⟩
    · exact run.trans (by rw [← shift]; rfl)
    · rw [← shift, List.append_assoc] at taken
      exact taken
termination_by numBuffSize - k

/-- The digits are printed from the first to the last. -/
theorem emits_numLoop (numBuff : Vector Byte numBuffSize) {k : Nat} (hk : k ≤ numBuffSize)
    (count : BitVec 32) : Emits Holds (numLoop numBuff k count) (numBuff.toList.take k).reverse
      (count + BitVec.ofNat 32 k) := by
  induction k generalizing count with
  | zero =>
      rw [BitVec.add_zero]
      exact .pure count
  | succ k ih =>
      have hi : k < numBuff.toList.length := by rwa [Vector.length_toList]
      have count' : count + BitVec.ofNat 32 (k + 1) = count + 1 + BitVec.ofNat 32 k := by
        rw [Nat.add_comm, BitVec.ofNat_add, BitVec.add_assoc]
        rfl
      have lt : k < numBuffSize := hk
      rw [numLoop, dif_pos lt, List.take_succ_eq_append_getElem hi, List.reverse_append, count',
        Vector.getElem_toList]
      exact (emits_flush _).bind (ih (Nat.le_of_succ_le hk) (count + 1))

/-- **A number** is printed by its digits. -/
theorem emits_numOutput (hb : 10 ≤ b) (hdigit : ∀ n, digit n = f (Nat.digitChar (n.toNat % b)))
    (hnext : ∀ n, (next n).toNat = n.toNat / b) (number count : BitVec 32) :
    Emits Holds (numOutput digit next number count) ((Nat.toDigits b number.toNat).map f)
      (count + size ((Nat.toDigits b number.toNat).map f)) := by
  have room : (Nat.toDigits b number.toNat).length ≤ numBuffSize := by
    refine (Nat.length_toDigits_le_iff (by omega) (by decide)).mpr ?_
    calc number.toNat < 2 ^ 32 := number.isLt
      _ ≤ 10 ^ numBuffSize := by decide
      _ ≤ b ^ numBuffSize := Nat.pow_le_pow_left hb _
  obtain ⟨numBuff, run, taken⟩ := numDigits_eq (by omega) hdigit hnext number
    (Vector.replicate numBuffSize 0) 0 (by rwa [Nat.zero_add])
  rw [Nat.zero_add] at run taken
  have emits := emits_numLoop numBuff room count
  rw [taken, List.take_zero, List.nil_append, List.reverse_reverse] at emits
  rw [size, List.length_map]
  exact (Emits.lift run).bind emits

end Numbers

theorem digitChar_dec : ∀ n < 10, (Nat.digitChar n).toNat = 48 + n := by decide

theorem ascii_nat (n : Nat) : ascii (toString n) = (Nat.toDigits 10 n).map ch :=
  congrArg (List.map ch) Nat.toList_repr

/-- **A decimal number.** -/
theorem emits_dec (number count : BitVec 32) :
    Emits Holds (numOutput decDigit (· / 10) number count) (ascii (toString number.toNat))
      (count + size (ascii (toString number.toNat))) := by
  rw [ascii_nat]
  refine emits_numOutput (Nat.le_refl 10) (fun n => ?_) (fun n => BitVec.toNat_udiv) number count
  have lt : n.toNat % 10 < 10 := Nat.mod_lt _ (by decide)
  have mod : (n % 10).toNat = n.toNat % 10 := BitVec.toNat_umod
  refine BitVec.eq_of_toNat_eq ?_
  rw [ch, digitChar_dec _ lt, decDigit, BitVec.toNat_setWidth, BitVec.toNat_add, mod,
    BitVec.toNat_ofNat]
  show (48 + n.toNat % 10) % 2 ^ 32 % 2 ^ 8 = _
  omega

/-- **A hexadecimal number.** -/
theorem emits_hex {f : Char → Byte} {hexDigits : Vector Byte 16}
    (h : ∀ i : Fin 16, hexDigits[i] = f (Nat.digitChar i)) (number : BitVec 32) :
    Emits Holds (tfmHexNumOutput number hexDigits) ((Nat.toDigits 16 number.toNat).map f)
      (size ((Nat.toDigits 16 number.toNat).map f)) := by
  rw [← zero_add_size]
  refine emits_numOutput (by decide) (fun n => ?_) (fun n => ?_) number 0
  · have mask : (n &&& 0x0f).toNat = n.toNat % 16 := Nat.and_two_pow_sub_one_eq_mod n.toNat 4
    rw [hexDigit, ← mask]
    exact h ⟨_, and_lt n⟩
  · rw [BitVec.toNat_ushiftRight, Nat.shiftRight_eq_div_pow]

theorem hexDigitsLo_get : ∀ i : Fin 16, hexDigitsLo[i] = ch (Nat.digitChar i) := by decide

theorem hexDigitsUp_get : ∀ i : Fin 16, hexDigitsUp[i] = ch (Nat.digitChar i).toUpper := by decide

/-- `%d`, for every number. -/
theorem emits_signed (num : BitVec 32) :
    Emits Holds (tfmDecNumOutput num (ch 'd')) (ascii (toString num.toInt))
      (size (ascii (toString num.toInt))) := by
  rw [tfmDecNumOutput, Int.toString_eq_repr, Int.repr_eq_if]
  have hint := num.toInt_eq_toNat_cond
  by_cases neg : num.toInt < 0
  · have negated : (-num.toInt).toNat = (-num).toNat := by
      rw [BitVec.toNat_neg]
      have hlt := num.isLt
      split at hint <;> omega
    have minus : ascii ("-" ++ (-num).toNat.repr) = ch '-' :: ascii (toString (-num).toNat) := by
      rw [ascii, String.toList_append]
      rfl
    rw [if_pos ⟨rfl, neg⟩, if_neg (Int.not_le.mpr neg), negated, minus, size_cons]
    exact (emits_flush (ch '-')).bind (emits_dec (-num) 1)
  · have same : num.toInt.toNat = num.toNat := by
      have hlt := num.isLt
      split at hint <;> omega
    rw [if_neg fun h => neg h.2, if_pos (Int.not_lt.mp neg), same, ← zero_add_size]
    exact emits_dec num 0

/-- `%u`. -/
theorem emits_unsigned (num : BitVec 32) :
    Emits Holds (tfmDecNumOutput num (ch 'u')) (ascii (toString num.toNat))
      (size (ascii (toString num.toNat))) := by
  have other : ¬(ch 'u' = ch 'd' ∧ num.toInt < 0) := fun h => absurd h.1 (by decide)
  rw [tfmDecNumOutput, if_neg other, ← zero_add_size]
  exact emits_dec num 0

/-! ### Formats -/

/-- A string up to its terminator. -/
theorem takeWhile_terminated {mem : List Byte} (h : 0 ∈ mem) :
    0 ∉ mem.takeWhile (· ≠ 0) ∧ ∃ rest, mem = mem.takeWhile (· ≠ 0) ++ 0 :: rest := by
  induction mem with
  | nil => exact absurd h List.not_mem_nil
  | cons c mem ih =>
      by_cases hc : c = 0
      · subst hc
        exact ⟨List.not_mem_nil, mem, rfl⟩
      · obtain ⟨hz, rest, hrest⟩ := ih ((List.mem_cons.mp h).resolve_left (Ne.symm hc))
        have head : (c :: mem).takeWhile (· ≠ 0) = c :: mem.takeWhile (· ≠ 0) :=
          List.takeWhile_cons_of_pos (decide_eq_true hc)
        rw [head]
        refine ⟨fun hmem => ?_, rest, congrArg (c :: ·) hrest⟩
        exact (List.mem_cons.mp hmem).elim (fun h => hc h.symm) hz

theorem print_word {render : BitVec 32 → List Byte} {args args' : List Arg} {s : List Byte}
    (h : (Piece.word render).print args = some (s, args')) :
    ∃ w, args = .word w :: args' ∧ s = render w := by
  rcases args with _ | ⟨w | mem, args⟩
  · cases h
  · cases h
    exact ⟨w, rfl, rfl⟩
  · cases h

theorem print_str {args args' : List Arg} {s : List Byte}
    (h : Piece.str.print args = some (s, args')) :
    ∃ mem, args = .str mem :: args' ∧ 0 ∈ mem ∧ s = mem.takeWhile (· ≠ 0) := by
  rcases args with _ | ⟨w | mem, args⟩
  · cases h
  · cases h
  · rw [Piece.print] at h
    by_cases hz : 0 ∈ mem
    · rw [if_pos hz] at h
      cases h
      exact ⟨mem, rfl, hz, rfl⟩
    · rw [if_neg hz] at h
      cases h

/-- An argument is taken and printed. -/
theorem emits_arg {α : Type} {x : Except Fault (α × List Arg)} {a : α} {args : List Arg}
    (h : x = .ok (a, args)) {output : α → Act (BitVec 32)} {s : List Byte} {n : BitVec 32}
    (e : Emits Holds (output a) s n) : Emits Holds
      (do
        let r ← liftM x
        return (← output r.1, r.2)) s (n, args) := by
  have emits := (Emits.lift (R := Holds) h).bind
    (f := fun r => do return (← output r.1, r.2)) (e.bind (.pure (n, args)))
  rwa [List.append_nil] at emits

/-- `%p`. -/
theorem emits_pointer (w : BitVec 32) (args : List Arg) : Emits Holds
    (do
      let count ← tfmStringOutput (literal "0x")
      let r ← liftM (vaWord (.word w :: args))
      return (count + (← tfmHexNumOutput r.1 hexDigitsLo), r.2))
    (ascii "0x" ++ (Nat.toDigits 16 w.toNat).map ch)
    (size (ascii "0x" ++ (Nat.toDigits 16 w.toNat).map ch), args) := by
  have start : Emits Holds (tfmStringOutput (literal "0x")) (ascii "0x") (size (ascii "0x")) :=
    @emits_string (ascii "0x") (by decide) []
  have number := (@emits_hex ch _ hexDigitsLo_get w).bind
    (f := fun n => pure (size (ascii "0x") + n, args)) (.pure _)
  rw [List.append_nil] at number
  rw [size_append]
  exact start.bind ((Emits.lift rfl).bind number)

/-- **A supported tag** prints its piece. -/
theorem emits_tag {tag : Byte} {p : Piece} (hp : tagPiece tag = some p) {args args' : List Arg}
    {s : List Byte} (hs : p.print args = some (s, args')) :
    ∃ output, tagOutput tag args = some output ∧ Emits Holds output s (size s, args') := by
  rw [tagPiece] at hp
  rw [tagOutput]
  by_cases hd : tag = ch 'd' ∨ tag = ch 'i'
  · rw [if_pos hd] at hp ⊢
    cases hp
    obtain ⟨w, rfl, rfl⟩ := print_word hs
    exact ⟨_, rfl, emits_arg rfl (emits_signed w)⟩
  rw [if_neg hd] at hp ⊢
  by_cases hu : tag = ch 'u'
  · rw [if_pos hu] at hp ⊢
    cases hp
    obtain ⟨w, rfl, rfl⟩ := print_word hs
    exact ⟨_, rfl, emits_arg rfl (emits_unsigned w)⟩
  rw [if_neg hu] at hp ⊢
  by_cases hx : tag = ch 'x'
  · rw [if_pos hx] at hp ⊢
    cases hp
    obtain ⟨w, rfl, rfl⟩ := print_word hs
    exact ⟨_, rfl, emits_arg rfl (emits_hex hexDigitsLo_get w)⟩
  rw [if_neg hx] at hp ⊢
  by_cases hX : tag = ch 'X'
  · rw [if_pos hX] at hp ⊢
    cases hp
    obtain ⟨w, rfl, rfl⟩ := print_word hs
    exact ⟨_, rfl, emits_arg rfl (emits_hex (f := fun c => ch c.toUpper) hexDigitsUp_get w)⟩
  rw [if_neg hX] at hp ⊢
  by_cases hpt : tag = ch 'p'
  · rw [if_pos hpt] at hp ⊢
    cases hp
    obtain ⟨w, rfl, rfl⟩ := print_word hs
    exact ⟨_, rfl, emits_pointer w args'⟩
  rw [if_neg hpt] at hp ⊢
  by_cases hstr : tag = ch 's'
  · rw [if_pos hstr] at hp ⊢
    cases hp
    obtain ⟨mem, rfl, hz, rfl⟩ := print_str hs
    obtain ⟨hno, rest, hmem⟩ := takeWhile_terminated hz
    have emits := emits_string hno rest
    rw [← hmem] at emits
    exact ⟨_, rfl, emits_arg rfl emits⟩
  rw [if_neg hstr] at hp ⊢
  by_cases hc : tag = ch 'c'
  · rw [if_pos hc] at hp ⊢
    cases hp
    obtain ⟨w, rfl, rfl⟩ := print_word hs
    exact ⟨_, rfl, (Emits.lift rfl).bind ((emits_flush _).bind (.pure _))⟩
  rw [if_neg hc] at hp ⊢
  by_cases hpc : tag = ch '%'
  · rw [if_pos hpc] at hp ⊢
    cases hp
    cases hs
    exact ⟨_, rfl, (emits_flush _).bind (.pure _)⟩
  · rw [if_neg hpc] at hp
    cases hp

theorem tagOutput_none {tag : Byte} (hp : tagPiece tag = none) (args : List Arg) :
    tagOutput tag args = none := by
  rw [tagPiece] at hp
  split_ifs at hp with hd hu hx hX hpt hstr hc hpc
  rw [tagOutput, if_neg hd, if_neg hu, if_neg hx, if_neg hX, if_neg hpt, if_neg hstr, if_neg hc,
    if_neg hpc]

theorem printAll_cons {p : Piece} {ps : List Piece} {args : List Arg} {t : List Byte}
    (h : printAll (p :: ps) args = some t) : ∃ s args' t', p.print args = some (s, args') ∧
      printAll ps args' = some t' ∧ t = s ++ t' := by
  rw [printAll] at h
  obtain ⟨⟨s, args'⟩, hs, h⟩ := Option.bind_eq_some_iff.mp h
  obtain ⟨t', ht, h⟩ := Option.bind_eq_some_iff.mp h
  exact ⟨s, args', t', hs, ht, (Option.some.inj h).symm⟩

theorem pieces_literal {c : Byte} (hc : c ≠ ch '%') (text : List Byte) :
    pieces (c :: text) = .fixed [c] :: pieces text := by
  cases text with
  | nil => exact if_neg hc
  | cons _ _ => exact if_neg hc

theorem formatLoop_end (fmt : List Byte) (args : List Arg) (count : BitVec 32) :
    formatLoop (0 :: fmt) args count = pure count := by
  cases fmt with
  | nil => rw [formatLoop, if_pos rfl]
  | cons _ _ => rw [formatLoop, if_pos rfl]

theorem formatLoop_literal {c : Byte} (hz : c ≠ 0) (hc : c ≠ ch '%') (fmt : List Byte)
    (args : List Arg) (count : BitVec 32) : formatLoop (c :: fmt) args count =
      tfmFlushFormattedBuffer c >>= fun _ => formatLoop fmt args (count + 1) := by
  cases fmt with
  | nil => exact (if_neg hz).trans (if_neg hc)
  | cons _ _ => exact (if_neg hz).trans (if_neg hc)

/-- The text of an unsupported tag, and the format from the tag on. -/
theorem emits_unsupported {tail : List Byte} {args : List Arg} {t : List Byte}
    {count : BitVec 32}
    (ih : Emits Holds (formatLoop tail args (count + size (ascii "[Unsupported Tag]"))) t
      (count + size (ascii "[Unsupported Tag]") + size t)) :
    Emits Holds
      (do
        let n ← tfmStringOutput (literal "[Unsupported Tag]")
        formatLoop tail args (count + n))
      (ascii "[Unsupported Tag]" ++ t) (count + size (ascii "[Unsupported Tag]" ++ t)) := by
  have start : Emits Holds (tfmStringOutput (literal "[Unsupported Tag]"))
      (ascii "[Unsupported Tag]") (size (ascii "[Unsupported Tag]")) :=
    @emits_string (ascii "[Unsupported Tag]") (by decide) []
  rw [size_append, ← BitVec.add_assoc]
  exact start.bind ih

/-- **The format** prints its text, up to the terminator. -/
theorem emits_format {text : List Byte} (nul : 0 ∉ text) {args : List Arg} {t : List Byte}
    (h : formatted text args = some t) (rest : List Byte) (count : BitVec 32) :
    Emits Holds (formatLoop (text ++ 0 :: rest) args count) t (count + size t) := by
  have stop (args : List Arg) (count : BitVec 32) :
      Emits Holds (formatLoop (0 :: rest) args count) [] (count + size []) := by
    have none : count + size [] = count := BitVec.add_zero _
    rw [none, formatLoop_end]
    exact .pure count
  rw [formatted] at h
  induction text using pieces.induct generalizing args t count with
  | case1 =>
      cases h
      exact stop args count
  | case2 =>
      rw [pieces, if_pos rfl] at h
      obtain ⟨s, args', t', hs, ht, rfl⟩ := printAll_cons h
      cases hs
      cases ht
      exact emits_unsupported (stop args _)
  | case3 tag text p hp ih =>
      rw [pieces, if_pos rfl, hp] at h
      obtain ⟨s, args', t', hs, ht, rfl⟩ := printAll_cons h
      obtain ⟨output, houtput, emits⟩ := emits_tag hp hs
      have nul' : 0 ∉ text := fun hz => nul (List.mem_cons_of_mem _ (List.mem_cons_of_mem _ hz))
      rw [List.cons_append, List.cons_append, formatLoop, if_neg (by decide), if_pos rfl, houtput,
        size_append, ← BitVec.add_assoc]
      exact emits.bind (ih nul' ht _)
  | case4 tag text hp ih =>
      rw [pieces, if_pos rfl, hp] at h
      obtain ⟨s, args', t', hs, ht, rfl⟩ := printAll_cons h
      cases hs
      have nul' : 0 ∉ tag :: text := fun hz => nul (List.mem_cons_of_mem _ hz)
      rw [List.cons_append, List.cons_append, formatLoop, if_neg (by decide), if_pos rfl,
        tagOutput_none hp]
      exact emits_unsupported (ih nul' ht _)
  | case5 c text hc ih =>
      rw [pieces_literal hc] at h
      obtain ⟨s, args', t', hs, ht, rfl⟩ := printAll_cons h
      cases hs
      obtain ⟨hz, hnul⟩ := not_or.mp (mt List.mem_cons.mpr nul)
      rw [List.cons_append, formatLoop_literal (Ne.symm hz) hc, List.singleton_append, size_cons,
        ← BitVec.add_assoc]
      exact (emits_flush c).bind (ih hnul ht _)

/-! ### The log -/

/-- **What is handed out**, and what is returned. -/
theorem printf_eq {text : List Byte} (nul : 0 ∉ text) {args : List Arg} {t : List Byte}
    (h : formatted text args = some t) (rest : List Byte)
    (stdioOutputString : List Byte → BitVec 32) (buf : Vector Byte printBuffSize) :
    ∃ w : Chunked Byte printBuffSize, w.text = t ∧
      tfmLogPrintf stdioOutputString buf (text ++ 0 :: rest) args =
        if w.pending = [] then .ok (size t, w.chunks)
        else .ok (size t + stdioOutputString w.pending, w.chunks ++ [w.pending]) := by
  have room : 0 < printBuffSize := by decide
  have start : Holds ⟨⟨0, buf⟩, []⟩ (.empty room) := ⟨rfl, rfl, rfl⟩
  obtain ⟨s, run, held⟩ := emits_format nul h rest 0 _ _ start
  refine ⟨(Chunked.empty room).pushAll t, Chunked.text_pushAll _ t, ?_⟩
  rw [zero_add_size] at run
  rw [tfmLogPrintf, tfmLogVprintf, run]
  by_cases hp : ((Chunked.empty room).pushAll t).pending = []
  · have pos : s.pb.pos = 0 := by rw [held.pos, hp]; rfl
    rw [if_pos hp, ← held.printed]
    exact if_neg (not_not.mpr pos)
  · have pos : s.pb.pos ≠ 0 := by
      rw [held.pos]
      exact fun h => hp (List.eq_nil_of_length_eq_zero h)
    rw [if_neg hp, ← held.printed, ← held.buf]
    exact if_pos pos

/-- **The text of the log.** -/
theorem printf_prints {text : List Byte} (nul : 0 ∉ text) {args : List Arg} {t : List Byte}
    (h : formatted text args = some t) (rest : List Byte)
    (stdioOutputString : List Byte → BitVec 32) (buf : Vector Byte printBuffSize) :
    ∃ ret printed, tfmLogPrintf stdioOutputString buf (text ++ 0 :: rest) args =
      .ok (ret, printed) ∧ printed.flatten = t := by
  obtain ⟨w, rfl, run⟩ := printf_eq nul h rest stdioOutputString buf
  rw [run]
  by_cases hp : w.pending = []
  · rw [if_pos hp]
    refine ⟨_, _, rfl, ?_⟩
    rw [Chunked.text, hp, List.append_nil]
  · rw [if_neg hp]
    refine ⟨_, _, rfl, ?_⟩
    rw [Chunked.text, List.flatten_append, List.flatten_singleton]

/-- A number, in an argument. -/
theorem printf_prints_five : ∃ ret printed,
    tfmLogPrintf (fun _ => 0) (Vector.replicate printBuffSize 0) (literal "%d") [.word 5] =
      .ok (ret, printed) ∧ printed.flatten = ascii "5" :=
  @printf_prints (ascii "%d") (by decide) [.word 5] (ascii "5") rfl [] _ _

/-- The number of characters printed is returned if the last chunk is full. -/
theorem count_eq_iff {n : Nat} : ((BitVec.ofNat 32 n + BitVec.ofNat 32 (n % printBuffSize)).toInt =
    (n : Int)) ↔ printBuffSize ∣ n ∧ n < 2 ^ 31 := by
  rw [BitVec.toInt_eq_toNat_cond, BitVec.toNat_add, BitVec.toNat_ofNat, BitVec.toNat_ofNat,
    printBuffSize]
  omega

/-- **The count.**  When `stdio_output_string` returns what it was given, the log returns the number
of characters printed if and only if that is a multiple of the size of the buffer, and an `int`. -/
theorem printf_counts_iff {text : List Byte} (nul : 0 ∉ text) {args : List Arg} {t : List Byte}
    (h : formatted text args = some t) (rest : List Byte)
    {stdioOutputString : List Byte → BitVec 32}
    (counts : ∀ c, stdioOutputString c = BitVec.ofNat 32 c.length)
    (buf : Vector Byte printBuffSize) :
    ∃ ret printed, tfmLogPrintf stdioOutputString buf (text ++ 0 :: rest) args =
      .ok (ret, printed) ∧
        (ret.toInt = printed.flatten.length ↔ printBuffSize ∣ t.length ∧ t.length < 2 ^ 31) := by
  obtain ⟨w, rfl, run⟩ := printf_eq nul h rest stdioOutputString buf
  rw [run]
  by_cases hp : w.pending = []
  · rw [if_pos hp]
    refine ⟨_, _, rfl, ?_⟩
    have printed : w.chunks.flatten = w.text := by rw [Chunked.text, hp, List.append_nil]
    have none : w.text.length % printBuffSize = 0 := by rw [← w.length_pending, hp]; rfl
    have sum : size w.text = BitVec.ofNat 32 w.text.length +
        BitVec.ofNat 32 (w.text.length % printBuffSize) := by
      rw [none]
      exact (BitVec.add_zero _).symm
    rw [printed, sum]
    exact count_eq_iff
  · rw [if_neg hp]
    refine ⟨_, _, rfl, ?_⟩
    have printed : (w.chunks ++ [w.pending]).flatten = w.text := by
      rw [Chunked.text, List.flatten_append, List.flatten_singleton]
    rw [printed, counts, w.length_pending]
    exact count_eq_iff

/-- One full buffer. -/
theorem printf_counts_iff_full : ∃ ret printed,
    tfmLogPrintf (fun c => BitVec.ofNat 32 c.length) (Vector.replicate printBuffSize 0)
      (List.replicate 32 (ch 'a') ++ [0]) [] = .ok (ret, printed) ∧
        ret.toInt = printed.flatten.length := by
  obtain ⟨ret, printed, run, counts⟩ := @printf_counts_iff
    (List.replicate 32 (ch 'a')) (by decide) [] (List.replicate 32 (ch 'a')) rfl []
    (fun c => BitVec.ofNat 32 c.length) (fun _ => rfl) (Vector.replicate printBuffSize 0)
  exact ⟨ret, printed, run, counts.mpr (by decide)⟩

/-- One character is counted twice. -/
theorem one_character : ∃ ret printed,
    tfmLogPrintf (fun c => BitVec.ofNat 32 c.length) (Vector.replicate printBuffSize 0)
      (literal "a") [] = .ok (ret, printed) ∧ printed = [ascii "a"] ∧ ret.toInt = 2 :=
  ⟨2, [ascii "a"], rfl, rfl, rfl⟩

end Log
