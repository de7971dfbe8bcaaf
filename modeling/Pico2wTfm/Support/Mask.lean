import Pico2wTfm.Support.Cbc
import Pico2wTfm.Support.Pkcs7

/-!
# Support — Mask

Byte strings under a mask, and what CBC makes of a mask on a ciphertext.  A block that the mask does
not touch still deciphers to what it was; the plaintext next to it changes by the mask of the
ciphertext before it, bit by bit (`getD_decrypt_mask`, `getD_decrypt_unmasked`).  A block that the
mask does touch deciphers to anything: no byte of it is the same under every permutation
(`block_eq_zero`).
-/

namespace Bytes

/-- `bs` with the bits of `d` flipped. -/
def mask (bs d : List Byte) : List Byte := List.zipWith (· ^^^ ·) bs d

section Mask

variable {bs d : List Byte}

theorem length_mask (h : d.length = bs.length) : (mask bs d).length = bs.length := by
  rw [mask, List.length_zipWith, h, min_self]

theorem drop_mask (n : Nat) : (mask bs d).drop n = mask (bs.drop n) (d.drop n) :=
  List.drop_zipWith

theorem take_mask (n : Nat) : (mask bs d).take n = mask (bs.take n) (d.take n) :=
  List.take_zipWith

theorem getD_mask_of_lt {i : Nat} (hi : i < bs.length) (h : bs.length ≤ d.length) :
    (mask bs d).getD i 0 = bs.getD i 0 ^^^ d.getD i 0 := by
  have hlen : i < (mask bs d).length := by
    rw [mask, List.length_zipWith]
    omega
  rw [List.getD_eq_getElem _ _ hlen, List.getD_eq_getElem _ _ hi,
    List.getD_eq_getElem _ _ (hi.trans_le h)]
  exact List.getElem_zipWith

theorem getD_mask (h : d.length = bs.length) (i : Nat) :
    (mask bs d).getD i 0 = bs.getD i 0 ^^^ d.getD i 0 := by
  by_cases hi : i < bs.length
  · exact getD_mask_of_lt hi h.ge
  · have hi := not_lt.mp hi
    rw [List.getD_eq_default _ _ (length_mask h ▸ hi), List.getD_eq_default _ _ hi,
      List.getD_eq_default _ _ (h ▸ hi)]
    rfl

theorem getD_eq_zero_of_xor {a b : Byte} (h : a ^^^ b = a) : b = 0 := by
  have key : a ^^^ (a ^^^ b) = a ^^^ a := congrArg (a ^^^ ·) h
  rwa [← BitVec.xor_assoc, BitVec.xor_self, BitVec.zero_xor] at key

/-- A mask that changes nothing is zero. -/
theorem mask_eq_self_iff (h : d.length = bs.length) :
    mask bs d = bs ↔ ∀ i, d.getD i 0 = 0 := by
  constructor
  · intro heq i
    refine getD_eq_zero_of_xor (a := bs.getD i 0) ?_
    rw [← getD_mask h, heq]
  · intro hz
    refine List.ext_getElem (length_mask h) fun i h₁ h₂ => ?_
    have key := getD_mask h i
    have hxor : bs.getD i 0 ^^^ (0 : Byte) = bs.getD i 0 := BitVec.xor_zero
    rwa [hz, hxor, List.getD_eq_getElem _ _ h₁, List.getD_eq_getElem _ _ h₂] at key

/-- What the mask leaves as it is, it does not touch. -/
theorem leValue_mask_iff (h : d.length = bs.length) :
    leValue (mask bs d) = leValue bs ↔ ∀ i, d.getD i 0 = 0 := by
  rw [← mask_eq_self_iff h]
  exact ⟨leValue_inj (length_mask h), congrArg leValue⟩

end Mask

end Bytes

namespace Cbc
open Bytes

variable {n : Nat}

/-- Block `j` of a byte string. -/
def blockAt (l : List Byte) (j : Nat) : Block n := fun i => l.getD (n * j + i) 0

theorem xor_swap (x y v w : Byte) : y ^^^ (v ^^^ w) = x ^^^ v ^^^ w ^^^ (x ^^^ y) := by
  have key : x ^^^ v ^^^ w ^^^ (x ^^^ y) = x ^^^ x ^^^ (y ^^^ (v ^^^ w)) := by ac_rfl
  rw [key, BitVec.xor_self, BitVec.zero_xor]

/-- The blocks of a string from its second on, behind a first one. -/
theorem getD_ofFn_append (b : Block n) (l : List Byte) (j : Nat) (i : Fin n) :
    (List.ofFn b ++ l).getD (n * j + i) 0 = if j = 0 then b i else l.getD (n * (j - 1) + i) 0 := by
  have hlen : (List.ofFn b).length = n := List.length_ofFn
  cases j with
  | zero =>
      have hi : i.val < (List.ofFn b).length := by rw [hlen]; exact i.isLt
      rw [Nat.mul_zero, Nat.zero_add, if_pos rfl, List.getD_append _ _ _ _ hi,
        List.getD_eq_getElem _ _ hi, List.getElem_ofFn]
  | succ j =>
      have hge : (List.ofFn b).length ≤ n * (j + 1) + i := by
        rw [hlen, Nat.mul_succ]
        omega
      rw [if_neg (Nat.succ_ne_zero j), List.getD_append_right _ _ _ _ hge, hlen, Nat.mul_succ,
        Nat.add_sub_cancel]
      congr 1
      omega

theorem lt_of_index_lt {l : List Byte} {j : Nat} (h : n ∣ l.length) {b : Fin n}
    (hk : n * j + b < l.length) : j < (toBlocks n l).length := by
  obtain ⟨q, hq⟩ := h
  rw [length_toBlocks, hq, Nat.mul_div_cancel_left _ b.pos]
  exact Nat.lt_of_mul_lt_mul_left ((Nat.le_add_right _ _).trans_lt (hq ▸ hk))

section Decrypt

variable (E : Equiv.Perm (Block n)) {iv iv' : Block n} {l d : List Byte} {j : Nat}
  (h : n ∣ l.length) {b : Fin n} (hk : n * j + b < l.length)
include h hk

/-- **A byte of a decryption**: that of the deciphered block, and that of the ciphertext one block
before. -/
theorem getD_decryptBytes : (decryptBytes E iv l).getD (n * j + b) 0 =
    E.symm (blockAt l j) b ^^^ (List.ofFn iv ++ l).getD (n * j + b) 0 := by
  have hj := lt_of_index_lt h hk
  have hj' : j < (decrypt xorBlock E iv (toBlocks n l)).length := by rwa [length_decrypt]
  have hblock : (toBlocks n l).get ⟨j, hj⟩ = blockAt l j := getElem_toBlocks l j hj
  have hbefore : ∀ hj'', (iv :: toBlocks n l).get ⟨j, hj''⟩ b =
      (List.ofFn iv ++ l).getD (n * j + b) 0 := by
    intro hj''
    rw [getD_ofFn_append]
    cases j with
    | zero => rfl
    | succ j =>
        exact congrFun (getElem_toBlocks l j (Nat.lt_of_succ_lt hj)) b
  rw [decryptBytes, getD_ofBlocks _ j hj', getElem_decrypt, xorBlock, hblock, hbefore]

/-- **A byte of a tampered ciphertext**, against the one that was encrypted. -/
theorem getD_decrypt_mask (hd : d.length = l.length) :
    (decryptBytes E (xorBlock iv iv') (mask (encryptBytes E iv l) d)).getD (n * j + b) 0 =
      l.getD (n * j + b) 0 ^^^ (List.ofFn iv' ++ d).getD (n * j + b) 0 ^^^
        (E.symm (blockAt (encryptBytes E iv l) j) b ^^^
          E.symm (xorBlock (blockAt (encryptBytes E iv l) j) (blockAt d j)) b) := by
  obtain ⟨c, hc⟩ : ∃ c, c = encryptBytes E iv l := ⟨_, rfl⟩
  have hlen : c.length = l.length := by rw [hc, length_encryptBytes, Nat.mul_div_cancel' h]
  have hd' : d.length = c.length := hd.trans hlen.symm
  have hm : (mask c d).length = l.length := (length_mask hd').trans hlen
  have hplain : l.getD (n * j + b) 0 =
      E.symm (blockAt c j) b ^^^ (List.ofFn iv ++ c).getD (n * j + b) 0 := by
    rw [← getD_decryptBytes E (hlen ▸ h) (hlen ▸ hk), hc, decryptBytes_encryptBytes E b.pos iv h]
  have hblock : (blockAt (mask c d) j : Block n) = xorBlock (blockAt c j) (blockAt d j) :=
    funext fun i => getD_mask hd' _
  have hbefore : (List.ofFn (xorBlock iv iv') ++ mask c d).getD (n * j + b) 0 =
      (List.ofFn iv ++ c).getD (n * j + b) 0 ^^^ (List.ofFn iv' ++ d).getD (n * j + b) 0 := by
    rw [getD_ofFn_append, getD_ofFn_append, getD_ofFn_append]
    split
    · rfl
    · exact getD_mask hd' _
  rw [← hc, getD_decryptBytes E (hm ▸ h) (hm ▸ hk), hblock, hbefore, hplain]
  exact xor_swap _ _ _ _

/-- A block that the mask does not touch. -/
theorem getD_decrypt_unmasked (hd : d.length = l.length)
    (hz : (blockAt d j : Block n) = fun _ => 0) :
    (decryptBytes E (xorBlock iv iv') (mask (encryptBytes E iv l) d)).getD (n * j + b) 0 =
      l.getD (n * j + b) 0 ^^^ (List.ofFn iv' ++ d).getD (n * j + b) 0 := by
  have hsame : ∀ c : Block n, xorBlock c (blockAt d j) = c := fun c => by
    rw [hz]
    exact funext fun i => BitVec.xor_zero
  rw [getD_decrypt_mask E h hk hd, hsame, BitVec.xor_self]
  exact BitVec.xor_zero

end Decrypt

/-! ### Permutations of blocks -/

/-- Flips the bits `v` of byte `k` of a block, if bit `a` of byte `i` is set. -/
def flip (i k : Fin n) (a : Nat) (v : Byte) (x : Block n) : Block n := fun b =>
  if b = k ∧ (x i).getLsbD a = true then x b ^^^ v else x b

section Flip

variable (i k : Fin n) {a : Nat} {v : Byte} (hv : v.getLsbD a = false)
include hv

theorem flip_bit (x : Block n) : (flip i k a v x i).getLsbD a = (x i).getLsbD a := by
  rw [flip]
  split
  · rw [BitVec.getLsbD_xor, hv, Bool.xor_false]
  · rfl

theorem flip_flip : Function.Involutive (flip i k a v) := by
  intro x
  funext b
  have hbit := flip_bit i k hv x
  rw [flip, hbit]
  split
  · rename_i h
    rw [flip, if_pos h, BitVec.xor_assoc, BitVec.xor_self, BitVec.xor_zero]
  · rename_i h
    rw [flip, if_neg h]

/-- The permutation. -/
def flipPerm : Equiv.Perm (Block n) := (flip_flip i k hv).toPerm

theorem flipPerm_symm (x : Block n) : (flipPerm i k hv).symm x = flip i k a v x := rfl

omit hv in
/-- It is linear. -/
theorem flip_xor (x y : Block n) :
    flip i k a v (xorBlock x y) = xorBlock (flip i k a v x) (flip i k a v y) := by
  funext b
  simp only [flip, xorBlock, BitVec.getLsbD_xor]
  by_cases hb : b = k
  · subst hb
    simp only [true_and]
    cases (x i).getLsbD a with
    | false =>
        cases (y i).getLsbD a with
        | false => rfl
        | true => exact BitVec.xor_assoc ..
    | true =>
        cases (y i).getLsbD a with
        | false =>
            show x b ^^^ y b ^^^ v = x b ^^^ v ^^^ y b
            ac_rfl
        | true =>
            show x b ^^^ y b = x b ^^^ v ^^^ (y b ^^^ v)
            have key : x b ^^^ v ^^^ (y b ^^^ v) = x b ^^^ y b ^^^ (v ^^^ v) := by ac_rfl
            rw [key, BitVec.xor_self, BitVec.xor_zero]
  · simp only [hb, false_and, if_false]

/-- **A byte of a tampered ciphertext** under the permutation. -/
theorem getD_decrypt_flip {iv iv' : Block n} {l d : List Byte} {j : Nat} (h : n ∣ l.length)
    (hk : n * j + k < l.length) (hd : d.length = l.length)
    (ha : (blockAt d j i).getLsbD a = true) :
    (decryptBytes (flipPerm i k hv) (xorBlock iv iv')
        (mask (encryptBytes (flipPerm i k hv) iv l) d)).getD (n * j + k) 0 =
      l.getD (n * j + k) 0 ^^^ (List.ofFn iv' ++ d).getD (n * j + k) 0 ^^^ (blockAt d j k ^^^ v) := by
  have hflip : flip i k a v (blockAt d j) k = blockAt d j k ^^^ v := if_pos ⟨rfl, ha⟩
  rw [getD_decrypt_mask _ h hk hd, flipPerm_symm, flipPerm_symm, flip_xor, xorBlock, hflip,
    ← BitVec.xor_assoc (flip i k a v _ k), BitVec.xor_self, BitVec.zero_xor]

end Flip

/-- **What a touched block deciphers to is open.**  A byte that is the same under every permutation
is in a block that the mask does not touch. -/
theorem block_eq_zero {iv iv' : Block n} {l d : List Byte} {j : Nat} {k : Fin n} {w : Byte}
    (h : n ∣ l.length) (hk : n * j + k < l.length) (hd : d.length = l.length)
    (hw : ∀ E : Equiv.Perm (Block n),
      (decryptBytes E (xorBlock iv iv') (mask (encryptBytes E iv l) d)).getD (n * j + k) 0 = w) :
    (blockAt d j : Block n) = fun _ => 0 := by
  funext i
  refine BitVec.eq_of_getLsbD_eq fun a ha => ?_
  by_contra hset
  have hzero : (0 : Byte).getLsbD a = false := BitVec.getLsbD_zero
  rw [hzero] at hset
  have hset := Bool.eq_true_of_not_eq_false hset
  -- some bit other than `a`
  obtain ⟨v, hv, hne⟩ : ∃ v : Byte, v.getLsbD a = false ∧ v ≠ 0 := by
    by_cases h0 : a = 0
    · exact ⟨2, by rw [h0]; rfl, by decide⟩
    · exact ⟨1, by simp [BitVec.getLsbD_one, h0], by decide⟩
  -- the byte with those bits flipped, and without
  have flipped := (getD_decrypt_flip i k hv h hk hd hset).symm.trans (hw _)
  have plain := (getD_decrypt_flip i k hzero h hk hd hset).symm.trans (hw _)
  exact hne ((BitVec.xor_right_inj _).mp ((BitVec.xor_right_inj _).mp
    (flipped.trans plain.symm)))

end Cbc
