import Pico2wTfm.Results.Bounds
import Pico2wTfm.Support.Mask

/-!
# Results — Tampering

The tool promises an authentication tag, and its packages have none: they are CBC, a header and what
`decrypt_model` and `tm_load` happen to look at.  A mask that is put on a package without the key
either meets one of these looks, or it installs another model on every device.

* `tamper_evident_iff`: which masks do; what they have to leave alone is the magic and the version,
  the first five bytes of the IV, the first two blocks of the ciphertext and the last one, and what
  they make of the padding has to fit the size.
-/

namespace Partition
open Bytes Encryptor TinyMaix

/-- The package in the device is one of the tool, under the key of the device, and tampered with. -/
def Tampered (dev : Device) (m : List Byte) (iv : Cbc.Block 16) (d : List Byte) : Prop :=
  ∃ P, createEncryptedPackage dev.aes m (deviceKey dev) iv = some P ∧ dev.package = mask P d

/-- A round loads a model, and it is not `m`. -/
def Installs (dev : Device) (i : Input) (s : Service) (m : List Byte) : Prop :=
  replyStatus (serve dev i.1 i.2 s).trace = some psaSuccess ∧
    window (serve dev i.1 i.2 s).gDecryptedModel 0 (serve dev i.1 i.2 s).gDecryptedSize ≠ m

/-- **A forgery without the key**: whatever the key and the cipher are, the mask installs another
model. -/
def Forges (i : Input) (s : Service) (m : List Byte) (iv : Cbc.Block 16) (d : List Byte) : Prop :=
  ∀ dev, Tampered dev m iv d → Installs dev i s m

/-- The model loads when it is packed and left alone. -/
def LoadsHonestly (i : Input) (s : Service) (m : List Byte) : Prop :=
  ∃ dev iv, createEncryptedPackage dev.aes m (deviceKey dev) iv = some dev.package ∧
    replyStatus (serve dev i.1 i.2 s).trace = some psaSuccess

/-- **A mask that nobody sees.** -/
structure Unseen (m d : List Byte) : Prop where
  header : ∀ i < 8, d.getD i 0 = 0
  start : ∀ i < 5, d.getD (12 + i) 0 = 0
  front : ∀ i < 32, d.getD (28 + i) 0 = 0
  back : ∀ i < 16, d.getD (d.length - 1 - i) 0 = 0
  /-- The mask on the IV and on the ciphertext is one on the plaintext, a block later. -/
  padding : ∃ m', Pkcs7.unpad 16 (mask (Pkcs7.pad 16 m) (d.drop 12)) = some m' ∧
    m'.length = leValue (mask (leBytes 4 m.length) ((d.drop 8).take 4))

/-! ### When a package loads -/

/-- What `tm_load` looks at in the buffer. -/
structure LooksLoadable (mem : Int → Byte) : Prop where
  magic : leValue (window mem 0 4) = tmMdlMagic
  mdlType : leValue (window mem 4 1) = tmMdlType
  subSize : leValue (window mem 16 4) = 0

/-- The buffer once a package is decrypted. -/
def opened (dev : Device) (s : Service) : Int → Byte :=
  splice s.gDecryptedModel 0 (plaintext dev dev.package)

section Load

variable {dev : Device} {i : Input} {s : Service} {mem mem' : Int → Byte}

/-- `tm_load` looks at nine bytes. -/
theorem looksLoadable_iff (h : LooksLoadable mem) : LooksLoadable mem' ↔
    ∀ k : Nat, k < 5 ∨ 16 ≤ k ∧ k < 20 → mem' k = mem k := by
  have same : ∀ off n : Nat, leValue (window mem' off n) = leValue (window mem off n) →
      ∀ k, off ≤ k → k < off + n → mem' (k : Nat) = mem (k : Nat) := by
    intro off n hv k h₁ h₂
    have hw := leValue_inj (by rw [length_window, length_window]) hv
    have key := window_eq_iff.mp hw (k - off) (by omega)
    have hk : (off : Int) + ((k - off : Nat) : Int) = k := by omega
    rwa [hk] at key
  constructor
  · intro h' k hk
    rcases hk with hk | ⟨h₁, h₂⟩
    · by_cases h4 : k < 4
      · exact same 0 4 (h'.magic.trans h.magic.symm) k (Nat.zero_le k) (by omega)
      · exact same 4 1 (h'.mdlType.trans h.mdlType.symm) k (by omega) (by omega)
    · exact same 16 4 (h'.subSize.trans h.subSize.symm) k h₁ (by omega)
  · intro hb
    have conv : ∀ off n : Nat, (∀ k : Nat, off ≤ k → k < off + n → k < 5 ∨ 16 ≤ k ∧ k < 20) →
        window mem' off n = window mem off n := fun off n hin => window_congr fun k hk => by
      have key := hb (off + k) (hin _ (Nat.le_add_right _ _) (by omega))
      rwa [Nat.cast_add] at key
    exact ⟨(congrArg leValue (conv 0 4 fun k _ _ => by omega)).trans h.magic,
      (congrArg leValue (conv 4 1 fun k _ _ => by omega)).trans h.mdlType,
      (congrArg leValue (conv 16 4 fun k _ _ => by omega)).trans h.subSize⟩

/-- **When a `LOAD` succeeds**, in terms of the package. -/
theorem load_reply_iff (hi : IsLoad i) :
    replyStatus (serve dev i.1 i.2 s).trace = some psaSuccess ↔
      (dev.package.length ≤ tfmTinymaixMaxModelSize ∧ i.1.DecryptOk) ∧
        (∃ d, Opens dev dev.package d) ∧ LooksLoadable (opened dev s) := by
  have hbuf : (loadPackage dev i.1 s.fresh).1 = psaSuccess →
      ((loadPackage dev i.1 s.fresh).2.env dev).model = opened dev s := fun h => by
    rw [loadPackage_state h]
    exact (decryptModel_success (loadPackage_success.mp h).2).model
  have hlooks : (loadPackage dev i.1 s.fresh).1 = psaSuccess →
      (((loadPackage dev i.1 s.fresh).2.env dev).Loads gDecryptedModelPtr ↔
        LooksLoadable (opened dev s)) := fun h => by
    rw [← hbuf h]
    constructor
    · intro hloads
      exact ⟨hloads.magic, hloads.mdlType, hloads.subSize⟩
    · intro hlook
      exact ⟨hlook.magic, hlook.mdlType, hlook.subSize⟩
  have hpack : (loadPackage dev i.1 s.fresh).1 = psaSuccess ↔
      (dev.package.length ≤ tfmTinymaixMaxModelSize ∧ i.1.DecryptOk) ∧
        ∃ d, Opens dev dev.package d := by
    rw [loadPackage_success, decryptModel_success_iff, and_assoc]
  rw [serve_load hi, handleLoad_reply rfl, Option.some_inj, loadModel_success,
    and_congr_right hlooks, hpack, and_assoc]

/-- What a `LOAD` that succeeds leaves. -/
theorem load_window (hi : IsLoad i)
    (hok : replyStatus (serve dev i.1 i.2 s).trace = some psaSuccess) :
    Opens dev dev.package (window (serve dev i.1 i.2 s).gDecryptedModel 0
      (serve dev i.1 i.2 s).gDecryptedSize) := by
  obtain ⟨-, ⟨d, ho⟩, -⟩ := (load_reply_iff hi).mp hok
  have hload := loadModel_of_reply hi hok
  have hgate : (serve dev i.1 i.2 s).gate = (loadModel dev i.1 s.fresh).2.gate := by
    rw [serve_load hi, handleLoad_gate]
  have hplain := ((GateHolds.of_load hload).congr hgate).plain
  rwa [← Option.some.inj (ho.padded.symm.trans hplain)]

end Load

/-! ### A package under a mask -/

section Package

variable {dev : Device} {m P d : List Byte} {iv : Cbc.Block 16} {s : Service}

theorem headerWord_mask (off : Nat) : headerWord (mask P d) off =
    leValue (mask ((P.drop off).take 4) ((d.drop off).take 4)) := by
  rw [headerWord, drop_mask, take_mask]

theorem headerIv_mask (h : d.length = P.length) :
    headerIv (mask P d) = Cbc.xorBlock (headerIv P) (headerIv d) :=
  funext fun _ => getD_mask h _

theorem ciphertext_mask : ciphertext (mask P d) = mask (ciphertext P) (ciphertext d) := drop_mask _

/-- A word of the header. -/
theorem slice_eq_leBytes {off : Nat} (h : off + 4 ≤ P.length) :
    (P.drop off).take 4 = leBytes 4 (headerWord P off) := by
  have hl : ((P.drop off).take 4).length = 4 := by
    rw [List.length_take, List.length_drop]
    omega
  have key := leBytes_leValue ((P.drop off).take 4)
  rw [hl] at key
  exact key.symm

/-- A word of the header that the mask leaves as it is. -/
theorem headerWord_mask_iff (hd : d.length = P.length) {off : Nat} :
    headerWord (mask P d) off = headerWord P off ↔ ∀ i < 4, d.getD (off + i) 0 = 0 := by
  have hl : ((d.drop off).take 4).length = ((P.drop off).take 4).length := by
    simp only [List.length_take, List.length_drop, hd]
  rw [headerWord_mask, headerWord, leValue_mask_iff hl]
  constructor
  · intro hz i hi
    rw [← getD_slice d off 4 i hi]
    exact hz i
  · intro hz i
    by_cases hi : i < 4
    · rw [getD_slice d off 4 i hi]
      exact hz i hi
    · exact List.getD_eq_default _ _ ((List.length_take_le 4 _).trans (not_lt.mp hi))

theorem length_ciphertext_mask {n : Nat} (hlen : d.length = 28 + n) :
    (ciphertext d).length = n := by
  rw [ciphertext, List.length_drop, hlen]
  exact Nat.add_sub_cancel_left ..

/-- The mask as the plaintext sees it. -/
theorem getD_shifted (j : Nat) (b : Fin 16) :
    (List.ofFn (headerIv d) ++ ciphertext d).getD (16 * j + b) 0 = d.getD (12 + (16 * j + b)) 0 := by
  rw [Cbc.getD_ofFn_append]
  split
  · rename_i hj
    rw [hj, headerIv, Nat.mul_zero, Nat.zero_add]
  · rename_i hj
    obtain ⟨j, rfl⟩ := Nat.exists_eq_succ_of_ne_zero hj
    rw [ciphertext, getD_drop, Nat.succ_sub_one, encryptedHeaderCbcSize]
    congr 1
    omega

theorem Tampered.package (h : Tampered dev m iv d) :
    m.length < 2 ^ 32 ∧ dev.package = mask (packageBytes dev.aes m (deviceKey dev) iv) d := by
  obtain ⟨P, hP, hdev⟩ := h
  rw [createEncryptedPackage] at hP
  split at hP
  · cases hP
  · rename_i hlen
    exact ⟨not_le.mp hlen, by rw [hdev, Option.some.inj hP]⟩

variable (h : Tampered dev m iv d) (hlen : d.length = 28 + (Pkcs7.pad 16 m).length)
include h hlen

theorem length_tampered : dev.package.length = 28 + (Pkcs7.pad 16 m).length := by
  rw [h.package.2, length_mask (hlen.trans (length_packageBytes ..).symm), length_packageBytes]

theorem ciphertext_tampered : (ciphertext dev.package).length = (Pkcs7.pad 16 m).length :=
  length_ciphertext_mask (length_tampered h hlen)

/-- What the device decrypts. -/
theorem plaintext_tampered : plaintext dev dev.package =
    Cbc.decryptBytes (dev.aes (deviceKey dev)) (Cbc.xorBlock iv (headerIv d))
      (mask (Cbc.encryptBytes (dev.aes (deviceKey dev)) iv (Pkcs7.pad 16 m)) (ciphertext d)) := by
  rw [h.package.2, plaintext, headerIv_mask (hlen.trans (length_packageBytes ..).symm), ciphertext_mask,
    packageBytes_eq, headerIv_encode, ciphertext_encode]
  rfl

theorem length_plaintext_tampered :
    (plaintext dev dev.package).length = (Pkcs7.pad 16 m).length := by
  have hdvd : 16 ∣ (ciphertext dev.package).length := by
    rw [ciphertext_tampered h hlen]
    exact Pkcs7.dvd_length_pad (by decide) m
  rw [plaintext, length_plaintext_block hdvd, ciphertext_tampered h hlen]

/-- A byte in a block that the mask does not touch. -/
theorem getD_plaintext {k : Nat} (hk : k < (Pkcs7.pad 16 m).length)
    (hz : ∀ b < 16, d.getD (28 + (16 * (k / 16) + b)) 0 = 0) :
    (plaintext dev dev.package).getD k 0 = (Pkcs7.pad 16 m).getD k 0 ^^^ d.getD (12 + k) 0 := by
  have hlen' := length_ciphertext_mask hlen
  have hblock : (Cbc.blockAt (ciphertext d) (k / 16) : Cbc.Block 16) = fun _ => 0 := funext fun b => by
    rw [Cbc.blockAt, ciphertext, getD_drop]
    exact hz b b.isLt
  obtain ⟨b, hb⟩ : ∃ b : Fin 16, 16 * (k / 16) + b = k :=
    ⟨⟨k % 16, Nat.mod_lt _ (by decide)⟩, Nat.div_add_mod k 16⟩
  have key := @Cbc.getD_decrypt_unmasked 16 (dev.aes (deviceKey dev)) iv (headerIv d)
    (Pkcs7.pad 16 m) (ciphertext d) (k / 16) (Pkcs7.dvd_length_pad (by decide) m) b
      (hb.symm ▸ hk) hlen' hblock
  rwa [← plaintext_tampered h hlen, getD_shifted, hb] at key

/-- The padding, when the mask does not touch the last block. -/
theorem unpad_tampered (hback : ∀ b < 16, d.getD (d.length - 1 - b) 0 = 0) {n : Nat} :
    (∃ m', Pkcs7.unpad 16 (plaintext dev dev.package) = some m' ∧ m'.length = n) ↔
      ∃ m', Pkcs7.unpad 16 (mask (Pkcs7.pad 16 m) (d.drop 12)) = some m' ∧ m'.length = n := by
  obtain ⟨q, hq⟩ := Pkcs7.dvd_length_pad (n := 16) (by decide) m
  have hpos : 0 < (Pkcs7.pad 16 m).length := Pkcs7.length_pad_pos (by decide) m
  have hplain := length_plaintext_tampered h hlen
  have hshift : (Pkcs7.pad 16 m).length ≤ (d.drop 12).length := by
    rw [List.length_drop, hlen]
    omega
  have hmask : (mask (Pkcs7.pad 16 m) (d.drop 12)).length = (Pkcs7.pad 16 m).length := by
    rw [mask, List.length_zipWith, Nat.min_eq_left hshift]
  have agree : ∀ b < 16, (plaintext dev dev.package).getD ((Pkcs7.pad 16 m).length - 1 - b) 0 =
      (mask (Pkcs7.pad 16 m) (d.drop 12)).getD ((Pkcs7.pad 16 m).length - 1 - b) 0 := by
    intro b hb
    have hk : (Pkcs7.pad 16 m).length - 1 - b < (Pkcs7.pad 16 m).length := by omega
    have hj : ((Pkcs7.pad 16 m).length - 1 - b) / 16 = q - 1 := by omega
    rw [getD_mask_of_lt hk hshift, getD_drop, getD_plaintext h hlen hk fun b' hb' => ?_]
    have hidx : 28 + (16 * (((Pkcs7.pad 16 m).length - 1 - b) / 16) + b') =
        d.length - 1 - (15 - b') := by omega
    rw [hidx]
    exact hback _ (by omega)
  constructor
  · rintro ⟨m', hm', rfl⟩
    refine Pkcs7.unpad_of_agree (by decide) (hmask.trans hplain.symm) (fun b hb => ?_) hm'
    rw [hplain]
    exact (agree b hb).symm
  · rintro ⟨m', hm', rfl⟩
    refine Pkcs7.unpad_of_agree (by decide) (hplain.trans hmask.symm) (fun b hb => ?_) hm'
    rw [hmask]
    exact agree b hb

/-- The header of the package. -/
theorem header_tampered : (headerWord dev.package 0 = encryptedHeaderMagic ↔
      ∀ i < 4, d.getD (0 + i) 0 = 0) ∧
    (headerWord dev.package 4 = 3 ↔ ∀ i < 4, d.getD (4 + i) 0 = 0) ∧
    headerWord dev.package 8 = leValue (mask (leBytes 4 m.length) ((d.drop 8).take 4)) := by
  obtain ⟨hm, hdev⟩ := h.package
  have hP : (packageBytes dev.aes m (deviceKey dev) iv).length = 28 + (Pkcs7.pad 16 m).length :=
    length_packageBytes ..
  have hd := hlen.trans hP.symm
  have magic : headerWord (packageBytes dev.aes m (deviceKey dev) iv) 0 = encryptedHeaderMagic := by
    rw [packageBytes_eq]
    exact headerWord_encode_magic (by decide)
  have version : headerWord (packageBytes dev.aes m (deviceKey dev) iv) 4 = 3 := by
    rw [packageBytes_eq]
    exact headerWord_encode_version (by decide)
  have size : headerWord (packageBytes dev.aes m (deviceKey dev) iv) 8 = m.length := by
    rw [packageBytes_eq]
    exact headerWord_encode_size hm
  rw [hdev]
  refine ⟨?_, ?_, ?_⟩
  · rw [← headerWord_mask_iff hd, magic]
  · rw [← headerWord_mask_iff hd, version]
  · rw [headerWord_mask, slice_eq_leBytes (by omega), size]

end Package

/-! ### An honest package -/

section Honest

variable {i : Input} {s : Service} {m : List Byte}

/-- A byte that was written, or not. -/
theorem splice_zero (mem : Int → Byte) (bs : List Byte) (k : Nat) :
    splice mem 0 bs k = if k < bs.length then bs.getD k 0 else mem k := by
  split
  · rename_i hk
    rw [← Int.zero_add (k : Int), splice_inside hk]
  · rename_i hk
    exact splice_outside (Or.inr (by omega))

/-- Two plaintexts in the buffer. -/
theorem looks_splice_iff {mem : Int → Byte} {a b : List Byte} (hab : a.length = b.length)
    (h : LooksLoadable (splice mem 0 b)) : LooksLoadable (splice mem 0 a) ↔
      ∀ k : Nat, k < 5 ∨ 16 ≤ k ∧ k < 20 → a.getD k 0 = b.getD k 0 := by
  rw [looksLoadable_iff h]
  refine forall₂_congr fun k _ => ?_
  rw [splice_zero, splice_zero, hab]
  split
  · exact Iff.rfl
  · rename_i hk
    have hb := not_lt.mp hk
    rw [List.getD_eq_default _ _ hb, List.getD_eq_default _ _ (hab.trans_le hb)]
    exact iff_of_true rfl rfl

/-- What it takes for a model to load. -/
theorem LoadsHonestly.spec (hi : IsLoad i) (h : LoadsHonestly i s m) :
    (28 + (Pkcs7.pad 16 m).length ≤ tfmTinymaixMaxModelSize ∧ i.1.DecryptOk) ∧
      LooksLoadable (splice s.gDecryptedModel 0 (Pkcs7.pad 16 m)) := by
  obtain ⟨dev, iv, hP, hok⟩ := h
  rw [createEncryptedPackage] at hP
  split at hP
  · cases hP
  have hdev : packageBytes dev.aes m (deviceKey dev) iv = dev.package := Option.some.inj hP
  obtain ⟨hfits, -, hlooks⟩ := (load_reply_iff hi).mp hok
  rw [opened, ← hdev, plaintext_packageBytes] at hlooks
  rw [← hdev, length_packageBytes] at hfits
  exact ⟨hfits, hlooks⟩

end Honest

/-! ### What a forgery leaves alone -/

section Forged

variable {i : Input} {s : Service} {m d : List Byte} {iv : Cbc.Block 16}

/-- A device with a tampered package, for any cipher. -/
def forgedDevice (m d : List Byte) (iv : Cbc.Block 16) (E : Equiv.Perm (Cbc.Block 16)) : Device :=
  { bareDevice (mask (packageBytes (fun _ => E) m (fun _ => 0) iv) d) with aes := fun _ => E }

theorem forgedDevice_tampered (hm : m.length < 2 ^ 32) (E : Equiv.Perm (Cbc.Block 16)) :
    Tampered (forgedDevice m d iv E) m iv d :=
  ⟨_, if_neg (not_le.mpr hm), rfl⟩

/-- The last byte of a plaintext, and the size. -/
theorem getD_last_of_unpad {l m' : List Byte} (h : Pkcs7.unpad 16 l = some m') :
    l.getD (l.length - 1) 0 = BitVec.ofNat 8 (l.length - m'.length) := by
  rw [Pkcs7.unpad] at h
  split at h
  · rename_i hp
    have hle : Pkcs7.lastByte l ≤ l.length := hp.2.2.1
    have hlen : m'.length = l.length - Pkcs7.lastByte l := by
      rw [← Option.some.inj h, Pkcs7.strip, List.length_take]
      exact Nat.min_eq_left (Nat.sub_le _ _)
    have hlast : l.length - m'.length = Pkcs7.lastByte l := by omega
    rw [hlast, Pkcs7.lastByte, BitVec.ofNat_toNat, BitVec.setWidth_eq]
  · cases h

/-- A model that loads fits. -/
theorem LoadsHonestly.length_lt (hi : IsLoad i) (hload : LoadsHonestly i s m) :
    m.length < 2 ^ 32 := by
  have hfits := (hload.spec hi).1.1
  rw [Pkcs7.length_pad, tfmTinymaixMaxModelSize] at hfits
  omega

variable (hi : IsLoad i) (hload : LoadsHonestly i s m)
include hi hload

/-- Whatever the cipher is, the package opens and looks loadable. -/
theorem forged_opens (hforge : Forges i s m iv d) (E : Equiv.Perm (Cbc.Block 16)) :
    ∃ m', Opens (forgedDevice m d iv E) (forgedDevice m d iv E).package m' ∧
      LooksLoadable (opened (forgedDevice m d iv E) s) := by
  have ht := @forgedDevice_tampered m d iv (hload.length_lt hi) E
  obtain ⟨-, ⟨m', ho⟩, hlooks⟩ := (load_reply_iff hi).mp (hforge _ ht).1
  exact ⟨m', ho, hlooks⟩

variable (hlen : d.length = 28 + (Pkcs7.pad 16 m).length)
include hlen

/-- A block of the ciphertext with a byte in it that every cipher has to agree on. -/
theorem forged_block {j : Nat} {k : Fin 16} {w : Byte} (hk : 16 * j + k < (Pkcs7.pad 16 m).length)
    (hw : ∀ E, (plaintext (forgedDevice m d iv E) (forgedDevice m d iv E).package).getD
      (16 * j + k) 0 = w) : ∀ b < 16, d.getD (28 + (16 * j + b)) 0 = 0 := by
  intro b hb
  have hlen' := length_ciphertext_mask hlen
  have hzero := @Cbc.block_eq_zero 16 iv (headerIv d) (Pkcs7.pad 16 m) (ciphertext d) j k w
    (Pkcs7.dvd_length_pad (by decide) m) hk hlen' fun E => by
      rw [← hw E, plaintext_tampered
        (@forgedDevice_tampered m d iv (hload.length_lt hi) E) hlen]
      rfl
  have key := congrFun hzero ⟨b, hb⟩
  rwa [Cbc.blockAt, ciphertext, getD_drop] at key

variable (hforge : Forges i s m iv d)
include hforge

/-- The bytes that `tm_load` looks at are those of the model. -/
theorem forged_looks (E : Equiv.Perm (Cbc.Block 16)) {k : Nat} (hk : k < 5 ∨ 16 ≤ k ∧ k < 20) :
    (plaintext (forgedDevice m d iv E) (forgedDevice m d iv E).package).getD k 0 =
      (Pkcs7.pad 16 m).getD k 0 := by
  have ht := @forgedDevice_tampered m d iv (hload.length_lt hi) E
  obtain ⟨-, -, hlooks⟩ := forged_opens hi hload hforge E
  exact (looks_splice_iff (length_plaintext_tampered ht hlen) (hload.spec hi).2).mp hlooks k hk

/-- It touches neither the magic nor the version. -/
theorem forged_header : ∀ b < 8, d.getD b 0 = 0 := by
  obtain ⟨m', ho, -⟩ := forged_opens hi hload hforge (Equiv.refl _)
  obtain ⟨hmagic, hversion, -⟩ := header_tampered (forgedDevice_tampered (hload.length_lt hi) _) hlen
  intro b hb
  rcases Nat.lt_or_ge b 4 with h4 | h4
  · rw [← Nat.zero_add b]
    exact hmagic.mp ho.magic b h4
  · rw [← Nat.add_sub_cancel' h4]
    exact hversion.mp ho.version (b - 4) (by omega)

/-- It touches neither of the first two blocks. -/
theorem forged_front : ∀ b < 32, d.getD (28 + b) 0 = 0 := by
  intro b hb
  have hblock : ∀ j < 2, ∀ b < 16, d.getD (28 + (16 * j + b)) 0 = 0 := by
    intro j hj
    by_cases hk : 16 * j < (Pkcs7.pad 16 m).length
    · -- the first byte of the block is one that `tm_load` looks at
      have hlook := fun E => forged_looks hi hload hlen hforge E (k := 16 * j) (by omega)
      exact forged_block hi hload hlen (j := j) (k := 0) hk hlook
    · intro b _
      exact List.getD_eq_default _ _ (by omega)
  have key := hblock (b / 16) (by omega) (b % 16) (Nat.mod_lt _ (by decide))
  rwa [Nat.div_add_mod] at key

/-- It does not touch the last block. -/
theorem forged_back : ∀ b < 16, d.getD (d.length - 1 - b) 0 = 0 := by
  obtain ⟨q, hq⟩ := Pkcs7.dvd_length_pad (n := 16) (by decide) m
  have hpos : 0 < (Pkcs7.pad 16 m).length := Pkcs7.length_pad_pos (by decide) m
  have hk : 16 * (q - 1) + ((15 : Fin 16) : Nat) = (Pkcs7.pad 16 m).length - 1 := by
    rw [hq]
    show 16 * (q - 1) + 15 = 16 * q - 1
    omega
  -- the size in the header says what the last byte of the padding is
  have key := forged_block hi hload hlen (j := q - 1) (k := 15)
    (by rw [hk]; omega) fun E => by
      obtain ⟨m', ho, -⟩ := forged_opens hi hload hforge E
      have ht := @forgedDevice_tampered m d iv (hload.length_lt hi) E
      have hlast := getD_last_of_unpad ho.padded
      rw [length_plaintext_tampered ht hlen, ← ho.size, (header_tampered ht hlen).2.2] at hlast
      rw [hk]
      exact hlast
  intro b hb
  have hidx : d.length - 1 - b = 28 + (16 * (q - 1) + (15 - b)) := by omega
  rw [hidx]
  exact key (15 - b) (by omega)

/-- **What a forgery leaves alone.** -/
theorem unseen_of_forges : Unseen m d := by
  have hback := forged_back hi hload hlen hforge
  have hfront := forged_front hi hload hlen hforge
  have ht := @forgedDevice_tampered m d iv (hload.length_lt hi) (Equiv.refl _)
  have hpad : 16 ≤ (Pkcs7.pad 16 m).length := Pkcs7.le_length_pad (by decide) m
  refine ⟨forged_header hi hload hlen hforge, ?_, hfront, hback, ?_⟩
  · intro b hb
    have hlook := forged_looks hi hload hlen hforge (Equiv.refl _) (k := b) (Or.inl hb)
    rw [getD_plaintext ht hlen (by omega) fun b' hb' => ?_] at hlook
    · exact getD_eq_zero_of_xor hlook
    · exact hfront _ (by omega)
  · obtain ⟨m', ho, -⟩ := forged_opens hi hload hforge (Equiv.refl _)
    have hsize := ho.size
    rw [(header_tampered ht hlen).2.2] at hsize
    exact (unpad_tampered ht hlen hback).mp ⟨m', ho.padded, hsize.symm⟩

end Forged

/-! ### What nobody sees is a forgery -/

section Hidden

variable {i : Input} {s : Service} {m d : List Byte} {iv : Cbc.Block 16} {dev : Device}
  (hi : IsLoad i) (hload : LoadsHonestly i s m)
  (hlen : d.length = 28 + (Pkcs7.pad 16 m).length) (ht : Tampered dev m iv d) (hu : Unseen m d)
include hi hload hlen ht hu

/-- The bytes that `tm_load` looks at are those of the model. -/
theorem hidden_looks : LooksLoadable (opened dev s) := by
  refine (looks_splice_iff (length_plaintext_tampered ht hlen) (hload.spec hi).2).mpr ?_
  intro k hk
  by_cases hin : k < (Pkcs7.pad 16 m).length
  · have hzero : d.getD (12 + k) 0 = 0 := by
      rcases hk with hk | ⟨h₁, h₂⟩
      · exact hu.start k hk
      · have hidx : 12 + k = 28 + (k - 16) := by omega
        rw [hidx]
        exact hu.front _ (by omega)
    rw [getD_plaintext ht hlen hin fun b hb => hu.front _ (by omega), hzero]
    exact BitVec.xor_zero
  · have hle := not_lt.mp hin
    rw [List.getD_eq_default _ _ hle,
      List.getD_eq_default _ _ ((length_plaintext_tampered ht hlen).trans_le hle)]

/-- The package opens. -/
theorem hidden_opens : ∃ m', Opens dev dev.package m' := by
  obtain ⟨hmagic, hversion, hsize⟩ := header_tampered ht hlen
  have hct := ciphertext_tampered ht hlen
  have hpos : 0 < (Pkcs7.pad 16 m).length := Pkcs7.length_pad_pos (by decide) m
  obtain ⟨m', hpadded, hm'⟩ := (unpad_tampered ht hlen hu.back).mpr hu.padding
  obtain ⟨hle, htake⟩ := Pkcs7.unpad_eq_take hpadded
  refine ⟨m', hmagic.mpr fun b hb => hu.header _ (by omega),
    hversion.mpr fun b hb => hu.header _ (by omega), hsize.trans hm'.symm, ?_, ?_, ?_, hpadded,
    fun h4 => ?_⟩
  · rw [length_tampered ht hlen]
    exact Nat.lt_add_of_pos_right hpos
  · rw [hct]
    exact Pkcs7.dvd_length_pad (by decide) m
  · rw [hct]
    exact (Nat.le_add_left _ _).trans (hload.spec hi).1.1
  · have hmodel := (hidden_looks hi hload hlen ht hu).magic
    rw [opened, window_splice_take (h4.trans hle)] at hmodel
    have hfour := congrArg (List.take 4) htake
    rw [List.take_take, min_eq_left h4] at hfour
    rwa [← hfour]

omit hi hload in
/-- Packed again, the model would be under another IV; the first block says that it is not. -/
theorem opens_self_mask (ho : Opens dev dev.package m) : ∀ b, d.getD b 0 = 0 := by
  have hP : d.length = (packageBytes dev.aes m (deviceKey dev) iv).length :=
    hlen.trans (length_packageBytes ..).symm
  have hplain : plaintext dev dev.package = Pkcs7.pad 16 m := by
    refine Pkcs7.eq_pad_of_unpad (by decide) ?_ ho.padded
    rw [plaintext, length_plaintext_block ho.whole]
    exact ho.whole
  have hpad : 16 ≤ (Pkcs7.pad 16 m).length := Pkcs7.le_length_pad (by decide) m
  -- the first block deciphers to what it was, so the IV is what it was
  have hiv : headerIv dev.package = iv := by
    rw [ht.package.2, headerIv_mask hP, packageBytes_eq, headerIv_encode]
    funext b
    have key := getD_plaintext ht hlen (b.isLt.trans_le hpad) fun b' hb' => hu.front _ (by omega)
    rw [hplain] at key
    have hzero : headerIv d b = 0 := getD_eq_zero_of_xor key.symm
    rw [Cbc.xorBlock, hzero]
    exact BitVec.xor_zero
  have hself := ho.eq_package
  rw [hiv, ht.package.2] at hself
  exact (mask_eq_self_iff hP).mp hself

/-- **A mask that nobody sees is a forgery.** -/
theorem installs_of_unseen (hd : ∃ b, d.getD b 0 ≠ 0) : Installs dev i s m := by
  obtain ⟨⟨hfits, hdec⟩, -⟩ := hload.spec hi
  have hok : replyStatus (serve dev i.1 i.2 s).trace = some psaSuccess := by
    refine (load_reply_iff hi).mpr ⟨⟨?_, hdec⟩, hidden_opens hi hload hlen ht hu,
      hidden_looks hi hload hlen ht hu⟩
    rwa [length_tampered ht hlen]
  refine ⟨hok, fun hm => ?_⟩
  have ho := load_window hi hok
  rw [hm] at ho
  obtain ⟨b, hb⟩ := hd
  exact hb (opens_self_mask hlen ht hu ho b)

end Hidden

/-- **Tamper evidence.**  The mask is no forgery exactly when something looks at what it touches:
the magic, the version, the first five bytes of the IV, the first two blocks of the ciphertext, the
last one, or the padding against the size. -/
theorem tamper_evident_iff {i : Input} {s : Service} {m d : List Byte} {iv : Cbc.Block 16}
    (hi : IsLoad i) (hload : LoadsHonestly i s m)
    (hlen : d.length = 28 + (Pkcs7.pad 16 m).length) (hd : ∃ b, d.getD b 0 ≠ 0) :
    ¬Forges i s m iv d ↔ ¬Unseen m d := by
  refine not_congr ⟨unseen_of_forges hi hload hlen, fun hu dev ht => ?_⟩
  exact installs_of_unseen hi hload hlen ht hu hd

/-! ### The small model, tampered with -/

theorem loads_reshape : LoadsHonestly loadRequest boot reshapeModel := by
  have hP : (deviceWith reshapeModel).package = packageBytes (deviceWith reshapeModel).aes
      reshapeModel (deviceKey (deviceWith reshapeModel)) fun _ => 0 := rfl
  refine ⟨deviceWith reshapeModel, fun _ => 0, ?_, (load_reply_iff ⟨rfl, rfl⟩).mpr
    ⟨⟨?_, Outcome.cryptoOk_success.decryptOk⟩, ⟨reshapeModel, ?_⟩, ?_⟩⟩
  · rw [createEncryptedPackage, if_neg (by decide), hP]
  · rw [hP, length_packageBytes]
    decide +kernel
  · rw [hP]
    exact opens_package rfl (by decide +kernel)
  · rw [opened, hP, plaintext_packageBytes]
    exact ⟨by decide +kernel, by decide +kernel, by decide +kernel⟩

/-- A mask on one byte of the package of the small model. -/
def touch (k : Nat) : List Byte := (List.replicate 156 0).set k 1

/-- A mask on the magic is seen. -/
theorem tamper_evident_iff_magic :
    ¬Forges loadRequest boot reshapeModel (fun _ => 0) (touch 0) := by
  refine (tamper_evident_iff ⟨rfl, rfl⟩ loads_reshape (by decide +kernel) ⟨0, by decide⟩).mpr ?_
  intro hu
  exact absurd (hu.header 0 (by decide)) (by decide)

/-- A mask on the sixth byte of the IV is not: `out_deq` is another one on every device. -/
theorem forges_outDeq : LoadsHonestly loadRequest boot reshapeModel ∧
    (touch 17).length = 28 + (Pkcs7.pad 16 reshapeModel).length ∧ (touch 17).getD 17 0 ≠ 0 ∧
    Forges loadRequest boot reshapeModel (fun _ => 0) (touch 17) := by
  have hlen : (touch 17).length = 28 + (Pkcs7.pad 16 reshapeModel).length := by decide +kernel
  have hne : (touch 17).getD 17 0 ≠ 0 := by decide +kernel
  have hu : Unseen reshapeModel (touch 17) :=
    ⟨by decide +kernel, by decide +kernel, by decide +kernel, by decide +kernel, _,
      if_pos (by decide +kernel), by decide +kernel⟩
  exact ⟨loads_reshape, hlen, hne, fun dev ht =>
    installs_of_unseen ⟨rfl, rfl⟩ loads_reshape hlen ht hu ⟨17, hne⟩⟩

end Partition
