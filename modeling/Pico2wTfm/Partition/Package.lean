import Pico2wTfm.Partition.Decrypt

/-!
# Partition — Package

The packages of the tool against the parser of the partition.  `encode` is the format: four words
or blocks at fixed offsets and a ciphertext.  The parser inverts it (`headerWord_encode`, …), and
every string with a whole header is the encoding of what the parser reads (`eq_encode`).

* `opens_package`: what the tool packs opens;
* `Opens.eq_package`: what opens was packed by the tool, from the model it holds and the IV in its
  header;
* `package_injective`: and from nothing else.
-/

namespace Partition
open Bytes Encryptor

/-- The package format. -/
def encode (magic version size : Nat) (iv : Cbc.Block 16) (ct : List Byte) : List Byte :=
  leBytes 4 magic ++ leBytes 4 version ++ leBytes 4 size ++ List.ofFn iv ++ ct

section Encode

variable {magic version size : Nat} {iv : Cbc.Block 16} {ct : List Byte}

/-- A part of a string that starts where the parts before it end. -/
theorem headerWord_append {as bs cs : List Byte} (hb : bs.length = 4) :
    headerWord (as ++ bs ++ cs) as.length = leValue bs := by
  rw [headerWord, List.append_assoc, List.drop_left, ← hb, List.take_left]

theorem headerWord_encode_magic (h : magic < 256 ^ 4) :
    headerWord (encode magic version size iv ct) 0 = magic := by
  have := @headerWord_append [] (leBytes 4 magic)
    (leBytes 4 version ++ leBytes 4 size ++ List.ofFn iv ++ ct) (length_leBytes 4 _)
  rw [leValue_leBytes_of_lt h] at this
  simpa only [encode, List.nil_append, List.append_assoc, List.length_nil] using this

theorem headerWord_encode_version (h : version < 256 ^ 4) :
    headerWord (encode magic version size iv ct) 4 = version := by
  have := @headerWord_append (leBytes 4 magic) (leBytes 4 version)
    (leBytes 4 size ++ List.ofFn iv ++ ct) (length_leBytes 4 _)
  rw [leValue_leBytes_of_lt h, length_leBytes] at this
  simpa only [encode, List.append_assoc] using this

theorem headerWord_encode_size (h : size < 256 ^ 4) :
    headerWord (encode magic version size iv ct) 8 = size := by
  have := @headerWord_append (leBytes 4 magic ++ leBytes 4 version) (leBytes 4 size)
    (List.ofFn iv ++ ct) (length_leBytes 4 _)
  rw [leValue_leBytes_of_lt h, List.length_append, length_leBytes, length_leBytes] at this
  simpa only [encode, List.append_assoc] using this

theorem headerIv_encode : headerIv (encode magic version size iv ct) = iv := by
  funext i
  have h12 : (leBytes 4 magic ++ leBytes 4 version ++ leBytes 4 size).length = 12 := by simp
  have hi : i.val < (List.ofFn iv).length := by simp
  rw [headerIv, encode, List.append_assoc _ (List.ofFn iv) ct,
    List.getD_append_right _ _ _ _ (by omega), h12, Nat.add_sub_cancel_left,
    List.getD_append _ _ _ _ hi, List.getD_eq_getElem _ _ hi, List.getElem_ofFn]

theorem ciphertext_encode : ciphertext (encode magic version size iv ct) = ct := by
  have h28 : (leBytes 4 magic ++ leBytes 4 version ++ leBytes 4 size ++ List.ofFn iv).length =
      encryptedHeaderCbcSize := by simp [encryptedHeaderCbcSize]
  rw [ciphertext, encode, ← h28, List.drop_left]

theorem length_encode : (encode magic version size iv ct).length = 28 + ct.length := by
  simp only [encode, List.length_append, length_leBytes, List.length_ofFn]

end Encode

/-- A string with a whole header is the encoding of its parts. -/
theorem eq_encode {P : List Byte} (h : encryptedHeaderCbcSize ≤ P.length) :
    P = encode (headerWord P 0) (headerWord P 4) (headerWord P 8) (headerIv P) (ciphertext P) := by
  have word : ∀ off, off + 4 ≤ P.length →
      leBytes 4 (headerWord P off) = (P.drop off).take 4 := fun off ho => by
    have hl : ((P.drop off).take 4).length = 4 := by
      rw [List.length_take, List.length_drop]; omega
    have := leBytes_leValue ((P.drop off).take 4)
    rwa [hl] at this
  have hiv : List.ofFn (headerIv P) = (P.drop 12).take 16 := by
    refine List.ext_getElem ?_ fun i h₁ h₂ => ?_
    · rw [List.length_ofFn, List.length_take, List.length_drop]
      simp only [encryptedHeaderCbcSize] at h
      omega
    · rw [List.length_ofFn] at h₁
      simp only [encryptedHeaderCbcSize] at h
      rw [List.getElem_ofFn, List.getElem_take, List.getElem_drop, headerIv,
        List.getD_eq_getElem _ _ (by simp only; omega)]
  simp only [encryptedHeaderCbcSize] at h
  rw [encode, word 0 (by omega), word 4 (by omega), word 8 (by omega), hiv, ciphertext]
  have split : ∀ k n, (P.drop k).take n ++ P.drop (k + n) = P.drop k := fun k n => by
    rw [← List.drop_drop, List.take_append_drop]
  have h12 := split 12 16
  have h8 := split 8 4
  have h4 := split 4 4
  have h0 := split 0 4
  simp only [Nat.reduceAdd, List.append_assoc, encryptedHeaderCbcSize] at *
  rw [h12, h8, h4, h0, List.drop_zero]

/-! ### The tool and the parser -/

theorem packageBytes_eq (aes : Cipher) (m : List Byte) (key iv : Cbc.Block 16) :
    packageBytes aes m key iv =
      encode encryptedHeaderMagic 3 m.length iv (encryptModel aes m key iv) := rfl

theorem length_packageBytes (aes : Cipher) (m : List Byte) (key iv : Cbc.Block 16) :
    (packageBytes aes m key iv).length = 28 + (Pkcs7.pad 16 m).length := by
  rw [packageBytes_eq, length_encode, length_encryptModel]

section Tool

variable {dev : Device} {m P : List Byte} {iv : Cbc.Block 16}

/-- The device decrypts what the tool padded. -/
theorem plaintext_packageBytes :
    plaintext dev (packageBytes dev.aes m (deviceKey dev) iv) = Pkcs7.pad 16 m := by
  rw [packageBytes_eq, plaintext, headerIv_encode, ciphertext_encode, encryptModel, pkcs7Pad_eq,
    Cbc.decryptBytes_encryptBytes _ (by decide) _ (Pkcs7.dvd_length_pad (by decide) m)]

/-- **What the tool packs opens**, if it fits. -/
theorem opens_package (hm : m.take 4 = [0x4D, 0x41, 0x49, 0x58])
    (hfit : (Pkcs7.pad 16 m).length ≤ tfmTinymaixMaxModelSize) :
    Opens dev (packageBytes dev.aes m (deviceKey dev) iv) m := by
  have hlen : m.length ≤ (Pkcs7.pad 16 m).length := by
    rw [Pkcs7.length_pad]; exact Nat.le_add_right _ _
  have hsize : m.length < 256 ^ 4 := by
    simp only [tfmTinymaixMaxModelSize] at hfit
    omega
  have hpad : 0 < (Pkcs7.pad 16 m).length := Pkcs7.length_pad_pos (by decide) m
  have hplain := @plaintext_packageBytes dev m iv
  rw [packageBytes_eq] at hplain ⊢
  refine ⟨headerWord_encode_magic (by decide), headerWord_encode_version (by decide),
    headerWord_encode_size hsize, ?_, ?_, ?_, ?_, fun _ => ?_⟩
  · rw [length_encode, length_encryptModel]
    exact Nat.lt_add_of_pos_right hpad
  · rw [ciphertext_encode, length_encryptModel]
    exact Pkcs7.dvd_length_pad (by decide) m
  · rwa [ciphertext_encode, length_encryptModel]
  · rw [hplain, Pkcs7.unpad_pad (by decide) (by decide)]
  · rw [hm]; rfl

/-- **What opens was packed by the tool**, from the model it holds and the IV of its header. -/
theorem Opens.eq_package (h : Opens dev P m) :
    P = packageBytes dev.aes m (deviceKey dev) (headerIv P) := by
  have hpad : plaintext dev P = Pkcs7.pad 16 m := Pkcs7.eq_pad_of_unpad (by decide)
    (by rw [plaintext, length_plaintext_block h.whole]; exact h.whole) h.padded
  have hct : encryptModel dev.aes m (deviceKey dev) (headerIv P) = ciphertext P := by
    rw [encryptModel, pkcs7Pad_eq, ← hpad, plaintext,
      Cbc.encryptBytes_decryptBytes _ (by decide) _ h.whole]
  rw [packageBytes_eq, hct, ← h.magic, ← h.version, ← h.size]
  exact eq_encode h.nonempty.le

/-- **A package determines its model and its IV.** -/
theorem package_injective {aes : Cipher} {key iv iv' : Cbc.Block 16} {m m' : List Byte}
    (h : packageBytes aes m key iv = packageBytes aes m' key iv') : m = m' ∧ iv = iv' := by
  have hiv : iv = iv' := by
    simpa only [packageBytes_eq, headerIv_encode] using congrArg headerIv h
  subst hiv
  have hct : encryptModel aes m key iv = encryptModel aes m' key iv := by
    simpa only [packageBytes_eq, ciphertext_encode] using congrArg ciphertext h
  have hpad := congrArg (Cbc.decryptBytes (aes key) iv) hct
  rw [encryptModel, encryptModel, pkcs7Pad_eq, pkcs7Pad_eq,
    Cbc.decryptBytes_encryptBytes _ (by decide) _ (Pkcs7.dvd_length_pad (by decide) m),
    Cbc.decryptBytes_encryptBytes _ (by decide) _ (Pkcs7.dvd_length_pad (by decide) m')] at hpad
  exact ⟨Pkcs7.pad_injective (by decide) (by decide) hpad, rfl⟩

end Tool

end Partition
