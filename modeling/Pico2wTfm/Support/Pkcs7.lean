import Pico2wTfm.Support.Bytes
import Mathlib.Tactic.Ring

/-!
# Support — PKCS7

PKCS7 padding to a block size `n`: a string is followed by `p` bytes of value `p`, where `p`
brings its length to the next multiple of `n`, and is a whole block when the length is one
already.  `unpad` checks every padding byte.

On strings of whole blocks the two are inverse: `unpad_pad` and `eq_pad_of_unpad`, so a padded
string determines what was padded.
-/

namespace Pkcs7
open Bytes

/-- How many bytes pad a string of length `len`. -/
def padLength (n len : Nat) : Nat := n - len % n

/-- `d` padded to whole blocks of `n` bytes. -/
def pad (n : Nat) (d : List Byte) : List Byte :=
  d ++ List.replicate (padLength n d.length) (BitVec.ofNat 8 (padLength n d.length))

/-- The value of the last byte. -/
def lastByte (l : List Byte) : Nat := (l.getD (l.length - 1) 0).toNat

/-- The padding of `l` is well formed: its length is between `1` and `n`, fits, and every
padding byte holds it. -/
def Padded (n : Nat) (l : List Byte) : Prop :=
  1 ≤ lastByte l ∧ lastByte l ≤ n ∧ lastByte l ≤ l.length ∧
    ∀ i < lastByte l, (l.getD (l.length - 1 - i) 0).toNat = lastByte l

instance (n : Nat) (l : List Byte) : Decidable (Padded n l) := by
  unfold Padded; infer_instance

/-- `l` without its padding. -/
def strip (l : List Byte) : List Byte := l.take (l.length - lastByte l)

/-- `l` without its padding, if that is well formed. -/
def unpad (n : Nat) (l : List Byte) : Option (List Byte) :=
  if Padded n l then some (strip l) else none

variable {n : Nat}

theorem padLength_pos (hn : 0 < n) (len : Nat) : 0 < padLength n len :=
  Nat.sub_pos_of_lt (Nat.mod_lt _ hn)

theorem padLength_le (len : Nat) : padLength n len ≤ n := Nat.sub_le _ _

@[simp] theorem length_pad (d : List Byte) :
    (pad n d).length = d.length + padLength n d.length := by simp [pad]

theorem length_pad_pos (hn : 0 < n) (d : List Byte) : 0 < (pad n d).length := by
  rw [length_pad]
  exact Nat.add_pos_right _ (padLength_pos hn _)

theorem dvd_length_pad (hn : 0 < n) (d : List Byte) : n ∣ (pad n d).length := by
  have hlt : d.length % n < n := Nat.mod_lt _ hn
  refine ⟨d.length / n + 1, ?_⟩
  have := Nat.div_add_mod d.length n
  rw [length_pad, padLength, Nat.mul_add]
  omega

/-- There is a whole block at least. -/
theorem le_length_pad (hn : 0 < n) (d : List Byte) : n ≤ (pad n d).length :=
  Nat.le_of_dvd (length_pad_pos hn d) (dvd_length_pad hn d)

/-- The byte of a padded string at distance `i` from its end is a padding byte. -/
theorem getD_pad_of_lt {d : List Byte} {i : Nat} (hi : i < padLength n d.length) :
    (pad n d).getD ((pad n d).length - 1 - i) 0 = BitVec.ofNat 8 (padLength n d.length) := by
  have hj : d.length ≤ (pad n d).length - 1 - i := by rw [length_pad]; omega
  have hlt : (pad n d).length - 1 - i < (pad n d).length := by rw [length_pad]; omega
  rw [List.getD_eq_getElem _ _ hlt]
  simp only [pad] at hj ⊢
  rw [List.getElem_append_right hj, List.getElem_replicate]

theorem lastByte_pad (hn : 0 < n) (hn' : n < 256) (d : List Byte) :
    lastByte (pad n d) = padLength n d.length := by
  have h := getD_pad_of_lt (d := d) (padLength_pos hn d.length)
  have hle := padLength_le (n := n) d.length
  rw [Nat.sub_zero] at h
  rw [lastByte, h, BitVec.toNat_ofNat]
  exact Nat.mod_eq_of_lt (by omega)

theorem padded_pad (hn : 0 < n) (hn' : n < 256) (d : List Byte) : Padded n (pad n d) := by
  have hle := padLength_le (n := n) d.length
  have hlast := lastByte_pad hn hn' d
  rw [Padded, hlast]
  refine ⟨padLength_pos hn _, hle, by rw [length_pad]; omega, fun i hi => ?_⟩
  rw [getD_pad_of_lt hi, BitVec.toNat_ofNat]
  exact Nat.mod_eq_of_lt (by omega)

theorem strip_pad (hn : 0 < n) (hn' : n < 256) (d : List Byte) : strip (pad n d) = d := by
  rw [strip, lastByte_pad hn hn', length_pad, Nat.add_sub_cancel, pad, List.take_left]

/-- **Padding is undone.** -/
theorem unpad_pad (hn : 0 < n) (hn' : n < 256) (d : List Byte) : unpad n (pad n d) = some d := by
  rw [unpad, if_pos (padded_pad hn hn' d), strip_pad hn hn']

/-- **A well-padded string of whole blocks is the padding of what is left.** -/
theorem eq_pad_strip (hn : 0 < n) {l : List Byte} (hl : n ∣ l.length) (hp : Padded n l) :
    l = pad n (strip l) := by
  obtain ⟨h₁, h₂, h₃, h₄⟩ := hp
  have hlen : (strip l).length = l.length - lastByte l := by
    rw [strip, List.length_take]; omega
  -- the padding length is the only one between `1` and `n` that completes the last block
  have hpl : padLength n (strip l).length = lastByte l := by
    obtain ⟨q, hq⟩ := hl
    have hq' : q ≠ 0 := by rintro rfl; omega
    obtain ⟨r, rfl⟩ := Nat.exists_eq_succ_of_ne_zero hq'
    have hr : l.length = n * r + n := by rw [hq, Nat.succ_eq_add_one]; ring
    rcases Nat.lt_or_ge (lastByte l) n with hlt | hge
    · have hm : (l.length - lastByte l) % n = n - lastByte l := by
        rw [show l.length - lastByte l = (n - lastByte l) + n * r by omega, Nat.add_mul_mod_self_left]
        exact Nat.mod_eq_of_lt (by omega)
      rw [padLength, hlen, hm]; omega
    · have hm : (l.length - lastByte l) % n = 0 := by
        rw [show l.length - lastByte l = n * r by omega, Nat.mul_mod_right]
      rw [padLength, hlen, hm]; omega
  refine List.ext_getElem (by rw [length_pad, hpl, hlen]; omega) fun i hi hi' => ?_
  by_cases hc : i < (strip l).length
  · simp only [pad]
    rw [List.getElem_append_left hc]
    simp only [strip, List.getElem_take]
  · simp only [pad]
    rw [List.getElem_append_right (by omega), List.getElem_replicate, hpl]
    have hk := h₄ (l.length - 1 - i) (by omega)
    rw [show l.length - 1 - (l.length - 1 - i) = i by omega, List.getD_eq_getElem _ _ hi] at hk
    have hlt : lastByte l < 2 ^ 8 := hk ▸ (l[i]).isLt
    exact BitVec.eq_of_toNat_eq (by rw [hk, BitVec.toNat_ofNat, Nat.mod_eq_of_lt hlt])

theorem eq_pad_of_unpad (hn : 0 < n) {l d : List Byte} (hl : n ∣ l.length)
    (h : unpad n l = some d) : l = pad n d := by
  rw [unpad] at h
  split at h
  · rename_i hp
    rw [← Option.some.inj h]
    exact eq_pad_strip hn hl hp
  · cases h

theorem unpad_eq_take {l d : List Byte} (h : unpad n l = some d) :
    d.length ≤ l.length ∧ l.take d.length = d := by
  rw [unpad] at h
  split at h
  · obtain rfl := Option.some.inj h
    have hlen : (strip l).length = l.length - lastByte l := by
      rw [strip, List.length_take]; omega
    exact ⟨hlen ▸ Nat.sub_le _ _, by rw [hlen]; rfl⟩
  · cases h

/-- Only the last block counts: strings of one length that agree there are padded alike. -/
theorem unpad_of_agree (hn : 0 < n) {l l' d : List Byte} (hlen : l'.length = l.length)
    (hl : ∀ i < n, l'.getD (l.length - 1 - i) 0 = l.getD (l.length - 1 - i) 0)
    (h : unpad n l = some d) : ∃ d', unpad n l' = some d' ∧ d'.length = d.length := by
  have hlast : lastByte l' = lastByte l := by
    rw [lastByte, lastByte, hlen, ← Nat.sub_zero (l.length - 1), hl 0 hn]
  rw [unpad] at h
  split at h
  · rename_i hp
    obtain ⟨h₁, h₂, h₃, h₄⟩ := hp
    have hp' : Padded n l' := by
      rw [Padded, hlast, hlen]
      refine ⟨h₁, h₂, h₃, fun i hi => ?_⟩
      rw [hl i (hi.trans_le h₂), h₄ i hi]
    refine ⟨strip l', if_pos hp', ?_⟩
    rw [← Option.some.inj h, strip, strip, List.length_take, List.length_take, hlast, hlen]
  · cases h

theorem pad_injective (hn : 0 < n) (hn' : n < 256) : Function.Injective (pad n) := by
  intro d d' h
  have := congrArg (unpad n) h
  rwa [unpad_pad hn hn', unpad_pad hn hn', Option.some.injEq] at this

end Pkcs7
