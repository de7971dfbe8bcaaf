import Pico2wTfm.Partition.Package
import Pico2wTfm.Partition.Service

/-!
# Results — Provisioning

A model is provisioned in two steps: a `DEV_MODE` build hands out the key of the device, and the
tool packs the model under that key.  A production build on the same device then derives the key
again and opens the package.

* `provisioning_round_trip`: what the tool packs under the key the device gave out is decrypted by
  every build on that device, to the model that was packed;
* `accepted_is_packaged`: conversely, a package that is decrypted is one the tool packs, of exactly
  one model with exactly one IV, and the model is what the buffer holds afterwards.
-/

namespace Partition
open Bytes Encryptor TinyMaix

/-- Two builds for one device: the hardware unique key and the cryptographic service agree. -/
structure Device.SameHardware (dev prod : Device) : Prop where
  huk : prod.huk = dev.huk
  hkdf : prod.hkdf = dev.hkdf
  aes : prod.aes = dev.aes

/-- A device whose cipher leaves blocks alone. -/
def bareDevice (package : List Byte) : Device where
  devMode := true
  huk := []
  hkdf := fun _ _ _ _ => 0
  aes := fun _ => Equiv.refl _
  package := package
  mainAddr := 0
  fl := ieee754

/-- A model of one layer: a `RESHAPE` that is the output, with its output at `outOft`.  The header
has 64 bytes and the layer 48. -/
def reshapeModelAt (outOft : Nat) : List Byte :=
  [0x4D, 0x41, 0x49, 0x58, 0, 1, 1, 0, 1, 0, 1, 0, 0xB8, 0x05, 0, 0, 0, 0, 0, 0,
    3, 0, 28, 0, 28, 0, 1, 0, 1, 0, 1, 0, 1, 0, 10, 0] ++ List.replicate 28 0 ++
  [4, 0, 1, 0, 48, 0, 0, 0, 0, 0, 0, 0] ++ leBytes 4 outOft ++
  [3, 0, 28, 0, 28, 0, 1, 0, 1, 0, 1, 0, 1, 0, 10, 0,
    0, 0, 0x80, 0x3F, 0x80, 0xFF, 0xFF, 0xFF, 0, 0, 0x80, 0x3F, 0x80, 0xFF, 0xFF, 0xFF]

/-- The scores of this one are the first ten bytes of the image. -/
def reshapeModel : List Byte := reshapeModelAt 0

/-- The two handlers spell the same label. -/
theorem getModelKeyHukLabel_eq : getModelKeyHukLabel = decryptHukLabel := rfl

section Key

variable {dev prod : Device} {f : Outcome} {msg : Msg} {s : Service}

theorem Device.SameHardware.deviceKey (h : dev.SameHardware prod) :
    deviceKey prod = deviceKey dev := by
  rw [Partition.deviceKey, Partition.deviceKey, h.huk, h.hkdf]

theorem serve_getModelKey (hdev : dev.devMode = true) (hget : f.get = psaSuccess)
    (htype : msg.type = tinymaixIpcGetModelKey) :
    serve dev f msg s = handleGetModelKey dev f msg s.fresh := by
  rw [serve, if_neg (not_not.mpr hget), handle, htype, if_neg (by decide), if_neg (by decide),
    if_neg (by decide), if_pos ⟨hdev, rfl⟩]

/-- The events of a key derivation whose calls succeed. -/
theorem deriveKeyFromHuk_trace {label : String} {derived : Cbc.Block 16} (hf : f.CryptoOk) :
    (deriveKeyFromHuk dev f label derived s).2.2.trace = s.trace ++
      [.crypto .kdfSetup psaSuccess, .crypto .kdfInputSalt psaSuccess,
        .crypto .kdfInputKey psaSuccess, .crypto .kdfInputInfo psaSuccess,
        .crypto .kdfOutput psaSuccess, .crypto .kdfAbort psaSuccess] := by
  simp only [deriveKeyFromHuk, hf.kdfSetup, hf.kdfInputSalt, hf.kdfInputKey, hf.kdfInputInfo,
    hf.kdfOutput, ne_eq, not_true, if_false, Service.call, Service.emit, List.append_assoc,
    List.cons_append, List.nil_append]

/-- The events of a request for the key, when all calls succeed. -/
theorem handleGetModelKey_trace (hf : f.CryptoOk) (hroom : derivedKeyLen ≤ msg.outSize) :
    (handleGetModelKey dev f msg s).trace = s.trace ++
      [.crypto .kdfSetup psaSuccess, .crypto .kdfInputSalt psaSuccess,
        .crypto .kdfInputKey psaSuccess, .crypto .kdfInputInfo psaSuccess,
        .crypto .kdfOutput psaSuccess, .crypto .kdfAbort psaSuccess,
        .write msg.handle (List.ofFn (deviceKey dev)), .reply msg.handle psaSuccess] := by
  have hkdf : (deriveKeyFromHuk dev f getModelKeyHukLabel (fun _ => 0) s).1 = psaSuccess :=
    deriveKeyFromHuk_success.mpr
      ⟨hf.kdfSetup, hf.kdfInputSalt, hf.kdfInputKey, hf.kdfInputInfo, hf.kdfOutput⟩
  rw [handleGetModelKey, if_neg (not_lt.mpr hroom)]
  simp only [hkdf, if_true, deriveKeyFromHuk_key hkdf, Service.reply, Service.emit,
    deriveKeyFromHuk_trace hf, List.append_assoc, List.cons_append, List.nil_append]
  rw [getModelKeyHukLabel_eq, deviceKey]

/-- **What a client of the key service sees**: the key of the device. -/
theorem getModelKey_reply (hdev : dev.devMode = true) (hget : f.get = psaSuccess)
    (hf : f.CryptoOk) (htype : msg.type = tinymaixIpcGetModelKey)
    (hroom : derivedKeyLen ≤ msg.outSize) :
    written (serve dev f msg s).trace = List.ofFn (deviceKey dev) ∧
      replyStatus (serve dev f msg s).trace = some psaSuccess := by
  rw [serve_getModelKey hdev hget htype, handleGetModelKey_trace hf hroom]
  exact ⟨List.append_nil _, rfl⟩

end Key

/-- **The provisioning round trip.**  A `DEV_MODE` build writes a key `k` to its client; the tool
packs `m` under `k`; every build on the same device, such as the production one, decrypts the
package, whatever its state. -/
theorem provisioning_round_trip {dev : Device} (hdev : dev.devMode = true) {f : Outcome}
    (hget : f.get = psaSuccess) (hf : f.CryptoOk) {msg : Msg}
    (htype : msg.type = tinymaixIpcGetModelKey) (hroom : derivedKeyLen ≤ msg.outSize)
    (s : Service) {m : List Byte} (iv : Cbc.Block 16)
    (hm : m.take 4 = [0x4D, 0x41, 0x49, 0x58])
    (hfit : (pkcs7Pad m 16).length ≤ tfmTinymaixMaxModelSize) :
    ∃ k P, written (serve dev f msg s).trace = List.ofFn k ∧
      replyStatus (serve dev f msg s).trace = some psaSuccess ∧
      createEncryptedPackage dev.aes m k iv = some P ∧
      ∀ prod : Device, dev.SameHardware prod → ∀ g : Outcome, g.CryptoOk → ∀ t : Service,
        (decryptModel prod g P t).1 = psaSuccess ∧
          (decryptModel prod g P t).2.gDecryptedSize = m.length ∧
          window (decryptModel prod g P t).2.gDecryptedModel 0 m.length = m := by
  obtain ⟨hw, hr⟩ := getModelKey_reply (s := s) hdev hget hf htype hroom
  have hlen : ¬2 ^ 32 ≤ m.length := by
    have : m.length ≤ (pkcs7Pad m 16).length := by simp [pkcs7Pad]
    simp only [tfmTinymaixMaxModelSize] at hfit
    omega
  refine ⟨deviceKey dev, _, hw, hr, if_neg hlen, fun prod hp g hg t => ?_⟩
  have ho : Opens prod (packageBytes prod.aes m (deviceKey prod) iv) m := opens_package hm hfit
  rw [hp.aes, hp.deviceKey] at ho
  exact decryptModel_opens hg.decryptOk ho

/-- The round trip of the small model. -/
theorem provisioning_round_trip_reshape :
    ∃ k P, written (serve (bareDevice []) .success ⟨tinymaixIpcGetModelKey, 0, [], 16⟩ boot).trace =
        List.ofFn k ∧
      createEncryptedPackage (fun _ => Equiv.refl _) reshapeModel k (fun _ => 0) = some P ∧
      window (decryptModel (bareDevice P) .success P boot).2.gDecryptedModel 0 reshapeModel.length =
        reshapeModel := by
  have hdev : (bareDevice []).devMode = true := rfl
  have hm : reshapeModel.take 4 = [0x4D, 0x41, 0x49, 0x58] := rfl
  obtain ⟨k, P, hw, -, hP, h⟩ := provisioning_round_trip hdev
    (show Outcome.success.get = psaSuccess from rfl) Outcome.cryptoOk_success
    (show (Msg.mk tinymaixIpcGetModelKey 0 [] 16).type = _ from rfl) (le_refl 16) boot
    (fun _ => 0) hm (by decide +kernel)
  exact ⟨k, P, hw, hP, (h (bareDevice P) ⟨rfl, rfl, rfl⟩ _ Outcome.cryptoOk_success boot).2.2⟩

/-- **Only the tool's packages are accepted**, and each as the package of one model and one IV. -/
theorem accepted_is_packaged {dev : Device} {f : Outcome} {P : List Byte} {s : Service}
    (h : (decryptModel dev f P s).1 = psaSuccess) :
    ∃ m iv, createEncryptedPackage dev.aes m (deviceKey dev) iv = some P ∧ iv = headerIv P ∧
      (∀ m' iv', P = magicHeader ++ leBytes 4 3 ++ leBytes 4 m'.length ++ List.ofFn iv' ++
          Cbc.encryptBytes (dev.aes (deviceKey dev)) iv' (pkcs7Pad m' 16) ↔ m' = m ∧ iv' = iv) ∧
      (decryptModel dev f P s).2.gDecryptedSize = m.length ∧
      window (decryptModel dev f P s).2.gDecryptedModel 0 m.length = m := by
  obtain ⟨hf, m, ho⟩ := decryptModel_success_iff.mp h
  have hP := ho.eq_package
  have hle := (Pkcs7.unpad_eq_take ho.padded).1
  rw [plaintext, length_plaintext_block ho.whole] at hle
  have hlen : ¬2 ^ 32 ≤ m.length := by
    have := hle.trans ho.fits
    simp only [tfmTinymaixMaxModelSize] at this
    omega
  refine ⟨m, headerIv P, ?_, rfl, fun m' iv' => ⟨fun h' => ?_, ?_⟩, (decryptModel_opens hf ho).2⟩
  · rw [createEncryptedPackage, if_neg hlen, ← hP]
  · have hP' : P = packageBytes dev.aes m' (deviceKey dev) iv' := h'
    exact package_injective (hP'.symm.trans hP)
  · rintro ⟨rfl, rfl⟩
    exact hP

/-- A package of the tool that is accepted. -/
theorem accepted_is_packaged_reshape :
    let P := packageBytes (fun _ => Equiv.refl _) reshapeModel (fun _ => 0) fun _ => 7
    ∃ m, createEncryptedPackage (fun _ => Equiv.refl _) m (fun _ => 0) (headerIv P) = some P ∧
      window (decryptModel (bareDevice []) .success P boot).2.gDecryptedModel 0 m.length = m := by
  intro P
  have ho : Opens (bareDevice []) P reshapeModel :=
    @opens_package (bareDevice []) _ (fun _ => 7) rfl (by decide +kernel)
  obtain ⟨m, iv, hP, rfl, -, -, hw⟩ := accepted_is_packaged
    (decryptModel_opens (s := boot) Outcome.cryptoOk_success.decryptOk ho).1
  exact ⟨m, hP, hw⟩

end Partition
