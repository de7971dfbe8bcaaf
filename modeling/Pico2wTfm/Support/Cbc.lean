import Pico2wTfm.Support.Bytes
import Mathlib.Logic.Equiv.Basic

/-!
# Support — CBC

Cipher block chaining over an arbitrary type of blocks `α`, a permutation `E` of it, and an
operation `mix` that undoes itself (`mix (mix a b) b = a`).  Encryption chains each block with
the ciphertext block before it; decryption is its inverse in both directions
(`decrypt_encrypt`, `encrypt_decrypt`), so a ciphertext determines its plaintext.

The second half cuts byte strings into blocks of `n` bytes and lifts CBC to byte strings of
whole blocks.
-/

namespace Cbc

section Blocks

variable {α : Type*} (mix : α → α → α) (E : Equiv.Perm α)

/-- The ciphertext blocks of `ps` under the chaining value `iv`. -/
def encrypt : α → List α → List α
  | _, [] => []
  | iv, p :: ps => E (mix p iv) :: encrypt (E (mix p iv)) ps

/-- The plaintext blocks of `cs` under the chaining value `iv`. -/
def decrypt : α → List α → List α
  | _, [] => []
  | iv, c :: cs => mix (E.symm c) iv :: decrypt c cs

@[simp] theorem length_encrypt (iv : α) (ps : List α) :
    (encrypt mix E iv ps).length = ps.length := by
  induction ps generalizing iv with
  | nil => rfl
  | cons p ps ih => simp [encrypt, ih]

@[simp] theorem length_decrypt (iv : α) (cs : List α) :
    (decrypt mix E iv cs).length = cs.length := by
  induction cs generalizing iv with
  | nil => rfl
  | cons c cs ih => simp [decrypt, ih]

variable {mix}

theorem decrypt_encrypt (h : ∀ a b, mix (mix a b) b = a) (iv : α) (ps : List α) :
    decrypt mix E iv (encrypt mix E iv ps) = ps := by
  induction ps generalizing iv with
  | nil => rfl
  | cons p ps ih => simp only [encrypt, decrypt, Equiv.symm_apply_apply, h, ih]

theorem encrypt_decrypt (h : ∀ a b, mix (mix a b) b = a) (iv : α) (cs : List α) :
    encrypt mix E iv (decrypt mix E iv cs) = cs := by
  induction cs generalizing iv with
  | nil => rfl
  | cons c cs ih => simp only [encrypt, decrypt, Equiv.apply_symm_apply, h, ih]

variable (mix)

/-- Block `j` of a decryption mixes the deciphered block `j` with the ciphertext block before
it, and the first one with the chaining value. -/
theorem getElem_decrypt (iv : α) (cs : List α) (j : Nat) (hj : j < (decrypt mix E iv cs).length) :
    (decrypt mix E iv cs)[j] =
      mix (E.symm (cs.get ⟨j, by simpa using hj⟩))
        ((iv :: cs).get ⟨j, by rw [length_decrypt] at hj; simp only [List.length_cons]; omega⟩) := by
  induction cs generalizing iv j with
  | nil => simp [decrypt] at hj
  | cons c cs ih =>
      cases j with
      | zero => rfl
      | succ j => simp only [decrypt, List.getElem_cons_succ, List.get_cons_succ, ih]

end Blocks

/-! ### Byte strings as blocks -/

section Strings
open Bytes

/-- A block of `n` bytes. -/
abbrev Block (n : Nat) := Fin n → Byte

/-- The bytewise exclusive or of two blocks. -/
def xorBlock {n : Nat} (a b : Block n) : Block n := fun i => a i ^^^ b i

theorem xorBlock_xorBlock {n : Nat} (a b : Block n) : xorBlock (xorBlock a b) b = a := by
  funext i
  simp only [xorBlock, BitVec.xor_assoc, BitVec.xor_self, BitVec.xor_zero]

/-- The complete blocks of a byte string. -/
def toBlocks (n : Nat) (l : List Byte) : List (Block n) :=
  (List.range (l.length / n)).map fun j i => l.getD (n * j + i) 0

/-- The byte string of a list of blocks. -/
def ofBlocks {n : Nat} (bs : List (Block n)) : List Byte := bs.flatMap List.ofFn

variable {n : Nat}

@[simp] theorem length_toBlocks (l : List Byte) : (toBlocks n l).length = l.length / n := by
  simp [toBlocks]

@[simp] theorem length_ofBlocks (bs : List (Block n)) :
    (ofBlocks bs).length = n * bs.length := by
  induction bs with
  | nil => rfl
  | cons b bs ih =>
      rw [ofBlocks, List.flatMap_cons, List.length_append, List.length_ofFn]
      change n + (ofBlocks bs).length = _
      rw [ih, List.length_cons, Nat.mul_succ, Nat.add_comm]

@[simp] theorem getElem_toBlocks (l : List Byte) (j : Nat) (hj : j < (toBlocks n l).length) :
    (toBlocks n l)[j] = fun i : Fin n => l.getD (n * j + i) 0 := by
  simp only [toBlocks, List.getElem_map, List.getElem_range]

theorem getD_ofBlocks (bs : List (Block n)) (j : Nat) (hj : j < bs.length) (i : Fin n) :
    (ofBlocks bs).getD (n * j + i) 0 = bs[j] i := by
  induction bs generalizing j with
  | nil => exact absurd hj (Nat.not_lt_zero _)
  | cons b bs ih =>
      have hi := i.isLt
      cases j with
      | zero =>
          have hl : i.val < (List.ofFn b).length := by simp
          rw [ofBlocks, List.flatMap_cons, Nat.mul_zero, Nat.zero_add, List.getD_append _ _ _ _ hl]
          simp
      | succ j =>
          have hge : (List.ofFn b).length ≤ n * (j + 1) + i := by
            rw [List.length_ofFn, Nat.mul_succ]; omega
          rw [ofBlocks, List.flatMap_cons, List.getD_append_right _ _ _ _ hge, List.length_ofFn,
            show n * (j + 1) + i - n = n * j + i by rw [Nat.mul_succ]; omega]
          exact ih j (by simpa using hj)

theorem toBlocks_ofBlocks (hn : 0 < n) (bs : List (Block n)) : toBlocks n (ofBlocks bs) = bs := by
  refine List.ext_getElem (by simp [Nat.mul_div_cancel_left _ hn]) fun j hj hj' => ?_
  rw [getElem_toBlocks]
  exact funext fun i => getD_ofBlocks bs j hj' i

theorem ofBlocks_toBlocks {l : List Byte} (h : n ∣ l.length) : ofBlocks (toBlocks n l) = l := by
  rcases Nat.eq_zero_or_pos n with rfl | hn
  · have hl : l = [] := List.length_eq_zero_iff.mp (Nat.eq_zero_of_zero_dvd h)
    subst hl; rfl
  · have hlen : (ofBlocks (toBlocks n l)).length = l.length := by
      rw [length_ofBlocks, length_toBlocks, Nat.mul_div_cancel' h]
    refine List.ext_getElem hlen fun k hk hk' => ?_
    have hdiv : k / n < (toBlocks n l).length := by
      rw [length_toBlocks]; exact Nat.div_lt_div_of_lt_of_dvd h hk'
    have key := getD_ofBlocks (toBlocks n l) (k / n) hdiv ⟨k % n, Nat.mod_lt _ hn⟩
    rw [getElem_toBlocks] at key
    simp only [Nat.div_add_mod] at key
    rwa [List.getD_eq_getElem _ _ hk, List.getD_eq_getElem _ _ hk'] at key

variable (E : Equiv.Perm (Block n))

/-- CBC encryption of a byte string of whole blocks. -/
def encryptBytes (iv : Block n) (l : List Byte) : List Byte :=
  ofBlocks (encrypt xorBlock E iv (toBlocks n l))

/-- CBC decryption of the complete blocks of a byte string. -/
def decryptBytes (iv : Block n) (l : List Byte) : List Byte :=
  ofBlocks (decrypt xorBlock E iv (toBlocks n l))

@[simp] theorem length_encryptBytes (iv : Block n) (l : List Byte) :
    (encryptBytes E iv l).length = n * (l.length / n) := by simp [encryptBytes]

@[simp] theorem length_decryptBytes (iv : Block n) (l : List Byte) :
    (decryptBytes E iv l).length = n * (l.length / n) := by simp [decryptBytes]

/-- **Decryption undoes encryption** of whole blocks. -/
theorem decryptBytes_encryptBytes (hn : 0 < n) (iv : Block n) {l : List Byte}
    (h : n ∣ l.length) : decryptBytes E iv (encryptBytes E iv l) = l := by
  rw [decryptBytes, encryptBytes, toBlocks_ofBlocks hn, decrypt_encrypt E xorBlock_xorBlock,
    ofBlocks_toBlocks h]

/-- **Encryption undoes decryption** of whole blocks. -/
theorem encryptBytes_decryptBytes (hn : 0 < n) (iv : Block n) {l : List Byte}
    (h : n ∣ l.length) : encryptBytes E iv (decryptBytes E iv l) = l := by
  rw [encryptBytes, decryptBytes, toBlocks_ofBlocks hn, encrypt_decrypt E xorBlock_xorBlock,
    ofBlocks_toBlocks h]

end Strings

end Cbc
