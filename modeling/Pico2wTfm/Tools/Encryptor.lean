import Pico2wTfm.Support.Cbc
import Pico2wTfm.Support.Pkcs7

/-!
# Tools — Encryptor

`create_encrypted_package` of `tinymaix_model_encryptor.py`, with the random IV as an argument.
A package is a 28-byte header, `struct.pack('<4sII16s', MAGIC_HEADER, 3, len(model_data), iv)`,
and the CBC encryption of the padded model.  `struct.pack` raises on a length that does not fit
its field; the package is `none` then.
-/

namespace Encryptor
open Bytes

/-- `MAGIC_HEADER`, `b"TMAX"`. -/
def magicHeader : List Byte := [0x54, 0x4D, 0x41, 0x58]

/-- AES-128 under each key, as a permutation of blocks. -/
abbrev Cipher := Cbc.Block 16 → Equiv.Perm (Cbc.Block 16)

/-- `_pkcs7_pad`. -/
def pkcs7Pad (data : List Byte) (blockSize : Nat) : List Byte :=
  let paddingLength := blockSize - data.length % blockSize
  data ++ List.replicate paddingLength (BitVec.ofNat 8 paddingLength)

/-- `encrypt_model`. -/
def encryptModel (aes : Cipher) (modelData : List Byte) (key iv : Cbc.Block 16) : List Byte :=
  Cbc.encryptBytes (aes key) iv (pkcs7Pad modelData 16)

/-- The header and the ciphertext of a package. -/
def packageBytes (aes : Cipher) (modelData : List Byte) (key iv : Cbc.Block 16) : List Byte :=
  magicHeader ++ leBytes 4 3 ++ leBytes 4 modelData.length ++ List.ofFn iv ++
    encryptModel aes modelData key iv

/-- `create_encrypted_package`. -/
def createEncryptedPackage (aes : Cipher) (modelData : List Byte) (key iv : Cbc.Block 16) :
    Option (List Byte) :=
  if 2 ^ 32 ≤ modelData.length then none else some (packageBytes aes modelData key iv)

theorem pkcs7Pad_eq (data : List Byte) : pkcs7Pad data 16 = Pkcs7.pad 16 data := rfl

@[simp] theorem length_encryptModel (aes : Cipher) (m : List Byte) (key iv : Cbc.Block 16) :
    (encryptModel aes m key iv).length = (Pkcs7.pad 16 m).length := by
  rw [encryptModel, Cbc.length_encryptBytes, pkcs7Pad_eq,
    Nat.mul_div_cancel' (Pkcs7.dvd_length_pad (by decide) m)]

end Encryptor
