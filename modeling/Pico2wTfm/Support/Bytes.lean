import Mathlib.Data.List.GetD
import Mathlib.Tactic.Ring

/-!
# Support — Bytes

Byte strings and little-endian words.  `leBytes w n` is the `w`-byte little-endian encoding of
`n`, `leValue` the number a byte string encodes.  The two are inverse to each other, on numbers
below `256 ^ w` in one direction and on strings of length `w` in the other.

`splice` overwrites a stretch of a memory, a function from offsets to bytes, with a byte string;
`window` reads a stretch of it back.
-/

namespace Bytes

/-- A byte. -/
abbrev Byte := BitVec 8

/-- The `w`-byte little-endian encoding of `n`. -/
def leBytes : Nat → Nat → List Byte
  | 0, _ => []
  | w + 1, n => BitVec.ofNat 8 n :: leBytes w (n / 256)

/-- The number a little-endian byte string encodes. -/
def leValue : List Byte → Nat
  | [] => 0
  | b :: bs => b.toNat + 256 * leValue bs

@[simp] theorem length_leBytes (w n : Nat) : (leBytes w n).length = w := by
  induction w generalizing n with
  | zero => rfl
  | succ w ih => simp [leBytes, ih]

theorem leValue_leBytes (w n : Nat) : leValue (leBytes w n) = n % 256 ^ w := by
  induction w generalizing n with
  | zero => simp [leBytes, leValue, Nat.mod_one]
  | succ w ih =>
      have hmul : 256 ^ (w + 1) = 256 * 256 ^ w := by ring
      have hb : (BitVec.ofNat 8 n).toNat = n % 256 := BitVec.toNat_ofNat n 8
      rw [leBytes, leValue, ih, hb, hmul, Nat.mod_mul]

/-- A word below `256 ^ w` survives its encoding. -/
theorem leValue_leBytes_of_lt {w n : Nat} (h : n < 256 ^ w) : leValue (leBytes w n) = n := by
  rw [leValue_leBytes, Nat.mod_eq_of_lt h]

theorem leValue_lt (bs : List Byte) : leValue bs < 256 ^ bs.length := by
  induction bs with
  | nil => simp [leValue]
  | cons b bs ih =>
      have hb : b.toNat < 256 := b.isLt
      simp only [leValue, List.length_cons, pow_succ]
      omega

/-- A byte string is the encoding of the number it encodes. -/
theorem leBytes_leValue (bs : List Byte) : leBytes bs.length (leValue bs) = bs := by
  induction bs with
  | nil => rfl
  | cons b bs ih =>
      have hb : b.toNat < 256 := b.isLt
      have hdiv : (b.toNat + 256 * leValue bs) / 256 = leValue bs := by omega
      have hmod : BitVec.ofNat 8 (b.toNat + 256 * leValue bs) = b := by
        apply BitVec.eq_of_toNat_eq
        rw [BitVec.toNat_ofNat]
        omega
      simp only [List.length_cons, leBytes, leValue, hdiv, hmod, ih]

/-- Little-endian encodings of one width are equal when their numbers are. -/
theorem leValue_inj {as bs : List Byte} (hl : as.length = bs.length)
    (h : leValue as = leValue bs) : as = bs := by
  rw [← leBytes_leValue as, ← leBytes_leValue bs, hl, h]

/-! ### Stretches of a memory -/

/-- `mem` with the bytes `bs` written from offset `off` on. -/
def splice (mem : Int → Byte) (off : Int) (bs : List Byte) : Int → Byte := fun i =>
  if off ≤ i ∧ i < off + bs.length then bs.getD (i - off).toNat 0 else mem i

/-- The `n` bytes of `mem` from offset `off` on. -/
def window (mem : Int → Byte) (off : Int) (n : Nat) : List Byte :=
  (List.range n).map fun i : Nat => mem (off + i)

@[simp] theorem length_window (mem : Int → Byte) (off : Int) (n : Nat) :
    (window mem off n).length = n := by simp [window]

@[simp] theorem getElem_window (mem : Int → Byte) (off : Int) (n i : Nat)
    (h : i < (window mem off n).length) : (window mem off n)[i] = mem (off + i) := by
  simp [window]

theorem getD_window {mem : Int → Byte} {off : Int} {n i : Nat} (h : i < n) :
    (window mem off n).getD i 0 = mem (off + i) := by
  rw [List.getD_eq_getElem _ _ (by simpa using h), getElem_window]

theorem window_succ (mem : Int → Byte) (off : Int) (n : Nat) :
    window mem off (n + 1) = mem off :: window mem (off + 1) n := by
  refine List.ext_getElem (by simp) fun i h _ => ?_
  cases i with
  | zero => simp
  | succ i =>
      simp only [getElem_window, List.getElem_cons_succ]
      congr 1
      push_cast
      ring

/-- A stretch of a stretch. -/
theorem window_slice {mem : Int → Byte} {off : Int} {n i w : Nat} (h : i + w ≤ n) :
    ((window mem off n).drop i).take w = window mem (off + i) w := by
  refine List.ext_getElem (by simp; omega) fun j h₁ h₂ => ?_
  rw [List.getElem_take, List.getElem_drop, getElem_window, getElem_window]
  push_cast
  rw [Int.add_assoc]

/-- Two stretches agree when their bytes do. -/
theorem window_congr {mem mem' : Int → Byte} {off : Int} {n : Nat}
    (h : ∀ i : Nat, i < n → mem (off + i) = mem' (off + i)) :
    window mem off n = window mem' off n :=
  List.map_congr_left fun i hi => h i (List.mem_range.mp hi)

theorem window_eq_iff {mem mem' : Int → Byte} {off : Int} {n : Nat} :
    window mem off n = window mem' off n ↔
      ∀ i : Nat, i < n → mem (off + i) = mem' (off + i) := by
  refine ⟨fun h i hi => ?_, window_congr⟩
  have := congrArg (fun l => l.getD i 0) h
  simpa only [getD_window hi] using this

theorem splice_inside {mem : Int → Byte} {off : Int} {bs : List Byte} {i : Nat}
    (h : i < bs.length) : splice mem off bs (off + i) = bs.getD i 0 := by
  have hc : off ≤ off + (i : Int) ∧ off + (i : Int) < off + bs.length := by omega
  rw [splice, if_pos hc]
  congr 1
  omega

theorem splice_outside {mem : Int → Byte} {off i : Int} {bs : List Byte}
    (h : i < off ∨ off + bs.length ≤ i) : splice mem off bs i = mem i := by
  rw [splice, if_neg (by omega)]

/-- What was written is read back. -/
theorem window_splice (mem : Int → Byte) (off : Int) (bs : List Byte) :
    window (splice mem off bs) off bs.length = bs := by
  refine List.ext_getElem (by simp) fun i h _ => ?_
  have hi : i < bs.length := by simpa using h
  rw [getElem_window, splice_inside hi, List.getD_eq_getElem _ _ hi]

/-- The start of what was written is read back. -/
theorem window_splice_take {mem : Int → Byte} {off : Int} {bs : List Byte} {n : Nat}
    (h : n ≤ bs.length) : window (splice mem off bs) off n = bs.take n := by
  refine List.ext_getElem (by simpa using h) fun i hi _ => ?_
  have hi' : i < bs.length := (by simpa using hi : i < n).trans_le h
  rw [getElem_window, splice_inside hi', List.getD_eq_getElem _ _ hi', List.getElem_take]

/-- What was written, and what is left behind it. -/
theorem window_splice_append {mem : Int → Byte} {off : Int} {bs : List Byte} {n : Nat}
    (h : bs.length ≤ n) :
    window (splice mem off bs) off n = bs ++ (window mem off n).drop bs.length := by
  refine List.ext_getElem ?_ fun i hi _ => ?_
  · rw [length_window, List.length_append, List.length_drop, length_window, Nat.add_sub_cancel' h]
  rw [getElem_window, List.getElem_append]
  split
  · rename_i hin
    rw [splice_inside hin, List.getD_eq_getElem _ _ hin]
  · rename_i hout
    have hi' : bs.length + (i - bs.length) = i := Nat.add_sub_cancel' (not_lt.mp hout)
    rw [splice_outside (Or.inr (by omega)), List.getElem_drop, getElem_window, hi']

/-- Writing what is there changes nothing. -/
theorem splice_window (mem : Int → Byte) (n : Nat) : splice mem 0 (window mem 0 n) = mem := by
  funext i
  by_cases hi : 0 ≤ i ∧ i < n
  · obtain ⟨k, rfl⟩ := Int.eq_ofNat_of_zero_le hi.1
    have hk : k < n := by exact_mod_cast hi.2
    have key := @splice_inside mem 0 (window mem 0 n) k
      (by rwa [length_window])
    rw [Int.zero_add, getD_window hk, Int.zero_add] at key
    exact key
  · refine splice_outside ?_
    rw [length_window]
    omega

/-! ### Slices -/

theorem getD_drop (l : List Byte) (n k : Nat) : (l.drop n).getD k 0 = l.getD (n + k) 0 := by
  rw [List.getD_eq_getElem?_getD, List.getD_eq_getElem?_getD, List.getElem?_drop]

theorem getD_slice (l : List Byte) (off n k : Nat) (hk : k < n) :
    ((l.drop off).take n).getD k 0 = l.getD (off + k) 0 := by
  rw [List.getD_eq_getElem?_getD, List.getElem?_take_of_lt hk, ← List.getD_eq_getElem?_getD,
    getD_drop]

end Bytes
