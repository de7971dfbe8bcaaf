import Pico2wTfm.Results.Bounds

/-!
# Results — SizeLimits

Three lengths of one model are compared with `TFM_TINYMAIX_MAX_MODEL_SIZE`: that of the package by
the `LOAD` handler, the original size of the header by `decrypt_model`, and the padded plaintext by
`psa_cipher_update`, which is given a buffer of that size.  The package is the longest of them: it
has a header of 28 bytes and up to 16 bytes of padding.  So the handler is the first to refuse, and
it refuses models that the other two let through.

* `size_limits_agree_iff`: a `LOAD` is not refused for its size exactly up to 4063 bytes;
* `size_limits_disagree`: one byte more.
-/

namespace Partition
open Bytes TinyMaix Encryptor

/-- The three limits a package has to pass. -/
structure PassesLimits (P : List Byte) : Prop where
  handler : P.length ≤ tfmTinymaixMaxModelSize
  originalSize : headerWord P 8 ≤ tfmTinymaixMaxModelSize
  outputSpace : 16 * ((ciphertext P).length / 16) ≤ tfmTinymaixMaxModelSize

/-- A reply that says that something did not fit. -/
def SizeRefused (t : List Event) : Prop :=
  replyStatus t = some psaErrorInsufficientMemory ∨ replyStatus t = some psaErrorBufferTooSmall

section Limits

variable {dev : Device} {f : Outcome} {s : Service} {i : Input} {m : List Byte} {iv : Cbc.Block 16}

/-- The package of a model is too long from 4064 bytes on. -/
theorem length_package_le_iff (aes : Cipher) (m : List Byte) (key iv : Cbc.Block 16) :
    (packageBytes aes m key iv).length ≤ tfmTinymaixMaxModelSize ↔ m.length ≤ 4063 := by
  rw [length_packageBytes, Pkcs7.length_pad, Pkcs7.padLength, tfmTinymaixMaxModelSize]
  omega

/-- The other two limits are those of the model and of its padding. -/
theorem passesLimits_iff (aes : Cipher) (key : Cbc.Block 16)
    (hmax : m.length ≤ tfmTinymaixMaxModelSize) :
    PassesLimits (packageBytes aes m key iv) ↔ m.length ≤ 4063 := by
  have hsize : m.length < 256 ^ 4 := Nat.lt_of_le_of_lt hmax (by decide)
  have hct : (ciphertext (packageBytes aes m key iv)).length = (Pkcs7.pad 16 m).length := by
    rw [packageBytes_eq, ciphertext_encode, length_encryptModel]
  constructor
  · intro h
    exact (length_package_le_iff aes m key iv).mp h.handler
  · intro h
    refine ⟨(length_package_le_iff aes m key iv).mpr h, ?_, ?_⟩
    · rw [packageBytes_eq, headerWord_encode_size hsize]
      exact hmax
    · rw [hct, Nat.mul_div_cancel' (Pkcs7.dvd_length_pad (by decide) m), Pkcs7.length_pad,
        Pkcs7.padLength, tfmTinymaixMaxModelSize]
      omega

/-- A package that is too long is refused before it is looked at. -/
theorem loadModel_refused (h : tfmTinymaixMaxModelSize < dev.package.length) :
    (loadModel dev f s).1 = psaErrorInsufficientMemory := by
  have hp : loadPackage dev f s = (psaErrorInsufficientMemory, s) := if_pos h
  rw [loadModel_eq, hp, if_neg psaErrorInsufficientMemory_ne]

/-- A package that decrypts can only fail for what is in it. -/
theorem loadModel_not_refused (h : (loadPackage dev f s).1 = psaSuccess) :
    (loadModel dev f s).1 = psaSuccess ∨ (loadModel dev f s).1 = psaErrorGenericError := by
  rw [loadModel_eq, if_pos h]
  split
  · exact Or.inr rfl
  · exact Or.inl rfl

/-- **The size limits**, for a package of the tool built in and cryptographic calls that succeed:
the model sizes that a `LOAD` does not refuse, and those that pass all three limits, are those up to
4063. -/
theorem size_limits_agree_iff
    (hP : dev.package = packageBytes dev.aes m (deviceKey dev) iv)
    (hm : m.take 4 = [0x4D, 0x41, 0x49, 0x58]) (hmax : m.length ≤ tfmTinymaixMaxModelSize)
    (hf : i.1.CryptoOk) (hi : IsLoad i) :
    (¬SizeRefused (serve dev i.1 i.2 s).trace ↔ m.length ≤ 4063) ∧
      (PassesLimits dev.package ↔ m.length ≤ 4063) := by
  have hreply : replyStatus (serve dev i.1 i.2 s).trace =
      some (loadModel dev i.1 s.fresh).1 := by
    rw [serve_load hi]
    exact handleLoad_reply rfl
  have hlen := length_package_le_iff dev.aes m (deviceKey dev) iv
  rw [← hP] at hlen
  refine ⟨⟨fun h => ?_, fun h => ?_⟩, hP ▸ passesLimits_iff dev.aes (deviceKey dev) hmax⟩
  · by_contra hc
    have hlong : tfmTinymaixMaxModelSize < dev.package.length := not_le.mp (mt hlen.mp hc)
    refine h (Or.inl ?_)
    rw [hreply, loadModel_refused hlong]
  · have hpad : (Pkcs7.pad 16 m).length ≤ tfmTinymaixMaxModelSize := by
      rw [Pkcs7.length_pad, Pkcs7.padLength, tfmTinymaixMaxModelSize]
      omega
    have hopens : Opens dev dev.package m := hP ▸ opens_package hm hpad
    have hload : (loadPackage dev i.1 s.fresh).1 = psaSuccess :=
      loadPackage_success.mpr ⟨hlen.mpr h, (decryptModel_opens hf.decryptOk hopens).1⟩
    rintro (hr | hr)
    all_goals
      rw [hreply] at hr
      have hst := Option.some.inj hr
      rcases loadModel_not_refused hload with hok | hg
      · rw [hok] at hst
        exact absurd hst (by decide)
      · rw [hg] at hst
        exact absurd hst (by decide)

end Limits

/-- The small model is within the limits. -/
theorem size_limits_agree_iff_reshape :
    ¬SizeRefused (serve (deviceWith reshapeModel) loadRequest.1 loadRequest.2 boot).trace ∧
      PassesLimits (deviceWith reshapeModel).package := by
  have h := @size_limits_agree_iff (deviceWith reshapeModel) boot loadRequest reshapeModel
    (fun _ => 0) rfl rfl (by decide) Outcome.cryptoOk_success ⟨rfl, rfl⟩
  exact ⟨h.1.mpr (by decide), h.2.mpr (by decide)⟩

/-- A model of 4064 bytes. -/
def largeModel : List Byte := [0x4D, 0x41, 0x49, 0x58] ++ List.replicate 4060 0

/-- **The limits disagree.**  The model fits the plaintext buffer, with its padding, but its package
is refused. -/
theorem size_limits_disagree :
    largeModel.length = 4064 ∧ largeModel.take 4 = [0x4D, 0x41, 0x49, 0x58] ∧
      (pkcs7Pad largeModel 16).length ≤ tfmTinymaixMaxModelSize ∧
      (deviceWith largeModel).package = packageBytes (deviceWith largeModel).aes largeModel
        (deviceKey (deviceWith largeModel)) (fun _ => 0) ∧
      replyStatus (serve (deviceWith largeModel) loadRequest.1 loadRequest.2 boot).trace =
        some psaErrorInsufficientMemory := by
  have hlen : largeModel.length = 4064 := by
    rw [largeModel, List.length_append, List.length_replicate]
    rfl
  have hlong : tfmTinymaixMaxModelSize < (deviceWith largeModel).package.length := by
    have h := length_packageBytes (fun _ => Equiv.refl _) largeModel (fun _ => 0) fun _ => 0
    rw [Pkcs7.length_pad, Pkcs7.padLength, hlen] at h
    show _ < (packageBytes _ largeModel _ _).length
    rw [h]
    decide
  refine ⟨hlen, rfl, ?_, rfl, ?_⟩
  · rw [pkcs7Pad_eq, Pkcs7.length_pad, Pkcs7.padLength, hlen]
    decide
  · rw [serve_load ⟨rfl, rfl⟩, handleLoad_reply rfl, loadModel_refused hlong]

end Partition
