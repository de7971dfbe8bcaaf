import Pico2wTfm.Partition.Psa

/-!
# Partition — Decrypt

`derive_key_from_huk` and `decrypt_model` of `tinymaix_inference.c`, with every early exit.  A
failing exit leaves the globals as far as they were written: the key, the plaintext buffer and
`g_decrypted_size` may have changed.

`Opens dev P d` says what it takes for a package `P` to decrypt to the model `d`: the header, whole
ciphertext blocks that fit the buffer, a well-formed padding, the size and the model magic.

* `decryptModel_success_iff`: a decryption succeeds exactly when its calls do and the package
  opens;
* `decryptModel_success`: it leaves the padded model at the start of `g_decrypted_model`;
* `decryptModel_frame`: whatever happens, nothing else of the engine or of the service changes.
-/

namespace Partition
open Bytes Footprint TinyMaix

def encryptedHeaderMagic : Nat := 0x58414D54
def encryptedHeaderCbcSize : Nat := 28

/-- The label of `decrypt_model`. -/
def decryptHukLabel : String := "pico2w-tinymaix-model-aes128-v1.0"

/-- `derive_key_from_huk` into `derived`. -/
def deriveKeyFromHuk (dev : Device) (f : Outcome) (label : String) (derived : Cbc.Block 16)
    (s : Service) : Int × Cbc.Block 16 × Service :=
  let s := s.call .kdfSetup f.kdfSetup
  if f.kdfSetup ≠ psaSuccess then (f.kdfSetup, derived, s)
  else
    let s := s.call .kdfInputSalt f.kdfInputSalt
    if f.kdfInputSalt ≠ psaSuccess then (f.kdfInputSalt, derived, s.call .kdfAbort psaSuccess)
    else
      let s := s.call .kdfInputKey f.kdfInputKey
      if f.kdfInputKey ≠ psaSuccess then (f.kdfInputKey, derived, s.call .kdfAbort psaSuccess)
      else
        let s := s.call .kdfInputInfo f.kdfInputInfo
        if f.kdfInputInfo ≠ psaSuccess then (f.kdfInputInfo, derived, s.call .kdfAbort psaSuccess)
        else
          let s := s.call .kdfOutput f.kdfOutput
          if f.kdfOutput ≠ psaSuccess then (f.kdfOutput, f.keySpill, s.call .kdfAbort psaSuccess)
          else (psaSuccess, dev.hkdf dev.huk label derivedKeyLen, s.call .kdfAbort psaSuccess)

/-! ### The package -/

/-- The `uint32_t` at offset `off` of the header. -/
def headerWord (P : List Byte) (off : Nat) : Nat := leValue ((P.drop off).take 4)

def headerIv (P : List Byte) : Cbc.Block 16 := fun i => P.getD (12 + i) 0

def ciphertext (P : List Byte) : List Byte := P.drop encryptedHeaderCbcSize

/-! ### The decryption -/

/-- The end of `decrypt_model`: the padding is checked and removed by hand, and the size and the
model magic are compared. -/
def removePadding (originalSize outputLength : Nat) (s : Service) : Int × Service :=
  if outputLength = 0 then (psaErrorGenericError, s)
  else
    let paddingLength := (s.gDecryptedModel (outputLength - 1 : Nat)).toNat
    if paddingLength = 0 ∨ 16 < paddingLength then (psaErrorGenericError, s)
    else if outputLength < paddingLength then (psaErrorGenericError, s)
    else if ¬∀ i < paddingLength,
        (s.gDecryptedModel (outputLength - 1 - i : Nat)).toNat = paddingLength then
      (psaErrorGenericError, s)
    else
      let s := s.setSize (outputLength - paddingLength)
      if s.gDecryptedSize ≠ originalSize then (psaErrorGenericError, s)
      else if 4 ≤ s.gDecryptedSize ∧ leValue (window s.gDecryptedModel 0 4) ≠ tmMdlMagic then
        (psaErrorGenericError, s)
      else (psaSuccess, s)

/-- `psa_cipher_update` with a buffer for the whole output, or not. -/
def updateStatus (f : Outcome) (outputLength : Nat) : Int :=
  if f.cipherUpdate ≠ psaSuccess then f.cipherUpdate
  else if tfmTinymaixMaxModelSize < outputLength then psaErrorBufferTooSmall
  else psaSuccess

/-- `psa_cipher_finish`, which refuses a partial block. -/
def finishStatus (f : Outcome) (inputLength : Nat) : Int :=
  if f.cipherFinish ≠ psaSuccess then f.cipherFinish
  else if inputLength % 16 ≠ 0 then psaErrorInvalidArgument
  else psaSuccess

/-- The operation and the key are released on every path. -/
def Service.release (f : Outcome) (s : Service) : Service :=
  (s.call .cipherAbort psaSuccess).call (.destroyKey f.keyId) psaSuccess

/-- The two cipher calls and what follows them.  `psa_cipher_update` outputs the complete blocks;
`psa_cipher_finish` then has nothing to add. -/
def cipherDecrypt (dev : Device) (f : Outcome) (P : List Byte) (s : Service) : Int × Service :=
  let plain := Cbc.decryptBytes (dev.aes s.encryptionKey) (headerIv P) (ciphertext P)
  let status := updateStatus f plain.length
  let s := s.call .cipherUpdate status
  if status ≠ psaSuccess then
    (status, (s.writeModel 0 (f.spill.take tfmTinymaixMaxModelSize)).release f)
  else
    let s := s.writeModel 0 plain
    let status := finishStatus f (ciphertext P).length
    let s := s.call .cipherFinish status
    if status ≠ psaSuccess then
      (status, (s.writeModel plain.length
        (f.spill.take (tfmTinymaixMaxModelSize - plain.length))).release f)
    else removePadding (headerWord P 8) plain.length (s.release f)

/-- From the import of the key on. -/
def importAndDecrypt (dev : Device) (f : Outcome) (P : List Byte) (s : Service) : Int × Service :=
  let s := s.call .importKey f.importKey
  if f.importKey ≠ psaSuccess then (f.importKey, s)
  else
    let s := s.call (.cipherSetup f.keyId) f.cipherSetup
    if f.cipherSetup ≠ psaSuccess then
      (f.cipherSetup, s.call (.destroyKey f.keyId) psaSuccess)
    else
      let s := s.call .cipherSetIv f.cipherSetIv
      if f.cipherSetIv ≠ psaSuccess then (f.cipherSetIv, s.release f)
      else cipherDecrypt dev f P s

/-- From `psa_crypto_init` on. -/
def initAndDecrypt (dev : Device) (f : Outcome) (P : List Byte) (s : Service) : Int × Service :=
  let s := s.call .init f.cryptoInit
  if f.cryptoInit ≠ psaSuccess ∧ f.cryptoInit ≠ psaErrorAlreadyExists then (f.cryptoInit, s)
  else
    let r := deriveKeyFromHuk dev f decryptHukLabel s.encryptionKey s
    let s := r.2.2.setKey r.2.1
    if r.1 ≠ psaSuccess then (psaErrorGenericError, s)
    else importAndDecrypt dev f P s

/-- `decrypt_model`.  The data pointer of the built-in package is never null. -/
def decryptModel (dev : Device) (f : Outcome) (P : List Byte) (s : Service) : Int × Service :=
  if P.length < encryptedHeaderCbcSize then (psaErrorInvalidArgument, s)
  else if headerWord P 0 ≠ encryptedHeaderMagic ∨ headerWord P 4 ≠ 3 then
    (psaErrorInvalidArgument, s)
  else if tfmTinymaixMaxModelSize < headerWord P 8 then (psaErrorBufferTooSmall, s)
  else if (ciphertext P).length = 0 then (psaErrorInvalidArgument, s)
  else initAndDecrypt dev f P s

/-! ### What it takes to open a package -/

/-- The key of the device's models. -/
def deviceKey (dev : Device) : Cbc.Block 16 := dev.hkdf dev.huk decryptHukLabel derivedKeyLen

/-- The decrypted blocks of a package, with their padding. -/
def plaintext (dev : Device) (P : List Byte) : List Byte :=
  Cbc.decryptBytes (dev.aes (deviceKey dev)) (headerIv P) (ciphertext P)

/-- The model `d` is what the package `P` holds for this device. -/
structure Opens (dev : Device) (P d : List Byte) : Prop where
  magic : headerWord P 0 = encryptedHeaderMagic
  version : headerWord P 4 = 3
  size : headerWord P 8 = d.length
  nonempty : encryptedHeaderCbcSize < P.length
  whole : 16 ∣ (ciphertext P).length
  fits : (ciphertext P).length ≤ tfmTinymaixMaxModelSize
  padded : Pkcs7.unpad 16 (plaintext dev P) = some d
  model : 4 ≤ d.length → leValue (d.take 4) = tmMdlMagic

/-- Every call of `decrypt_model` succeeds; `psa_crypto_init` may have been called before. -/
structure Outcome.DecryptOk (f : Outcome) : Prop where
  cryptoInit : f.cryptoInit = psaSuccess ∨ f.cryptoInit = psaErrorAlreadyExists
  kdfSetup : f.kdfSetup = psaSuccess
  kdfInputSalt : f.kdfInputSalt = psaSuccess
  kdfInputKey : f.kdfInputKey = psaSuccess
  kdfInputInfo : f.kdfInputInfo = psaSuccess
  kdfOutput : f.kdfOutput = psaSuccess
  importKey : f.importKey = psaSuccess
  cipherSetup : f.cipherSetup = psaSuccess
  cipherSetIv : f.cipherSetIv = psaSuccess
  cipherUpdate : f.cipherUpdate = psaSuccess
  cipherFinish : f.cipherFinish = psaSuccess

theorem Outcome.CryptoOk.decryptOk {f : Outcome} (h : f.CryptoOk) : f.DecryptOk :=
  ⟨Or.inl h.cryptoInit, h.kdfSetup, h.kdfInputSalt, h.kdfInputKey, h.kdfInputInfo, h.kdfOutput,
    h.importKey, h.cipherSetup, h.cipherSetIv, h.cipherUpdate, h.cipherFinish⟩

theorem psaErrorGenericError_ne : psaErrorGenericError ≠ psaSuccess := by decide
theorem psaErrorInvalidArgument_ne : psaErrorInvalidArgument ≠ psaSuccess := by decide
theorem psaErrorBufferTooSmall_ne : psaErrorBufferTooSmall ≠ psaSuccess := by decide

section Guards

variable {α : Type} {c : Prop} [Decidable c] {e : Int} {x : α} {y : Int × α}

/-- A check that exits with an error is passed on success. -/
theorem guard_success
    (he : c → e ≠ psaSuccess) :
    (if c then (e, x) else y).1 = psaSuccess ↔ ¬c ∧ y.1 = psaSuccess := by
  split
  · rename_i hc
    exact ⟨fun h => absurd h (he hc), fun h => absurd hc h.1⟩
  · rename_i hc
    exact ⟨fun h => ⟨hc, h⟩, fun h => h.2⟩

/-- On success the result is that of what follows the check. -/
theorem guard_state (he : c → e ≠ psaSuccess)
    (h : (if c then (e, x) else y).1 = psaSuccess) : (if c then (e, x) else y) = y :=
  if_neg ((guard_success he).mp h).1

/-- What holds at the exit and of what follows holds. -/
theorem guard_keeps {p : α → Prop} (hx : p x) (hy : p y.2) : p (if c then (e, x) else y).2 := by
  split
  · exact hx
  · exact hy

end Guards

/-! ### The padding -/

section Padding

variable {mem : Int → Byte} {n : Nat}

theorem lastByte_window (hn : n ≠ 0) :
    Pkcs7.lastByte (window mem 0 n) = (mem (n - 1 : Nat)).toNat := by
  rw [Pkcs7.lastByte, length_window, getD_window (by omega), zero_add]

/-- The checks of `decrypt_model` are those of a well-formed padding. -/
theorem padded_window (hn : n ≠ 0) :
    Pkcs7.Padded 16 (window mem 0 n) ↔
      ¬((mem (n - 1 : Nat)).toNat = 0 ∨ 16 < (mem (n - 1 : Nat)).toNat) ∧
      ¬n < (mem (n - 1 : Nat)).toNat ∧
      ∀ i < (mem (n - 1 : Nat)).toNat,
        (mem (n - 1 - i : Nat)).toNat = (mem (n - 1 : Nat)).toNat := by
  rw [Pkcs7.Padded, lastByte_window hn, length_window]
  have bytes : ∀ i, (window mem 0 n).getD (n - 1 - i) 0 = mem (n - 1 - i : Nat) := fun i => by
    rw [getD_window (by omega), zero_add]
  simp only [bytes]
  constructor
  · rintro ⟨h1, h2, h3, h4⟩
    exact ⟨by omega, by omega, h4⟩
  · rintro ⟨h1, h2, h3⟩
    exact ⟨by omega, by omega, by omega, h3⟩

theorem length_strip_window (hn : n ≠ 0) :
    (Pkcs7.strip (window mem 0 n)).length = n - (mem (n - 1 : Nat)).toNat := by
  rw [Pkcs7.strip, List.length_take, lastByte_window hn, length_window]
  omega

/-- The first bytes of a stretch. -/
theorem take_window {k : Nat} (hk : k ≤ n) : (window mem 0 n).take k = window mem 0 k := by
  refine List.ext_getElem (by simpa using hk) fun i h h' => ?_
  rw [List.getElem_take, getElem_window, getElem_window]

theorem take_strip_window {k : Nat} (hk : k ≤ (Pkcs7.strip (window mem 0 n)).length) :
    (Pkcs7.strip (window mem 0 n)).take k = window mem 0 k := by
  simp only [Pkcs7.strip, List.length_take, length_window] at hk ⊢
  rw [List.take_take, min_eq_left (by omega), take_window (by omega)]

end Padding

/-- The end of `decrypt_model` succeeds exactly on a well-formed padding of a model of the given
size, and then sets `g_decrypted_size`. -/
theorem removePadding_spec {o n : Nat} {s : Service} (hn : n ≠ 0) :
    (removePadding o n s).1 = psaSuccess ↔ ∃ d,
      Pkcs7.unpad 16 (window s.gDecryptedModel 0 n) = some d ∧ d.length = o ∧
      (4 ≤ d.length → leValue (d.take 4) = tmMdlMagic) := by
  have hlen := @length_strip_window s.gDecryptedModel n hn
  have key : (∃ d, Pkcs7.unpad 16 (window s.gDecryptedModel 0 n) = some d ∧ d.length = o ∧
      (4 ≤ d.length → leValue (d.take 4) = tmMdlMagic)) ↔
      Pkcs7.Padded 16 (window s.gDecryptedModel 0 n) ∧
        n - (s.gDecryptedModel (n - 1 : Nat)).toNat = o ∧
        (4 ≤ n - (s.gDecryptedModel (n - 1 : Nat)).toNat →
          leValue (window s.gDecryptedModel 0 4) = tmMdlMagic) := by
    unfold Pkcs7.unpad
    constructor
    · rintro ⟨d, hd, ho, hm⟩
      split at hd
      · obtain rfl := Option.some.inj hd
        rw [hlen] at ho hm
        exact ⟨‹_›, ho, fun h => take_strip_window (hlen ▸ h) ▸ hm h⟩
      · cases hd
    · rintro ⟨hp, ho, hm⟩
      exact ⟨_, if_pos hp, hlen.trans ho, fun h => (take_strip_window h) ▸ hm (hlen ▸ h)⟩
  have hg : ∀ {c : Prop}, c → psaErrorGenericError ≠ psaSuccess := fun _ => psaErrorGenericError_ne
  rw [key, padded_window hn, removePadding, if_neg hn]
  dsimp only
  rw [guard_success hg, guard_success hg, guard_success hg, guard_success hg, guard_success hg]
  simp only [not_not, not_and, ne_eq, and_assoc, and_true, Service.setSize_gDecryptedSize,
    Service.setSize_gDecryptedModel]

theorem removePadding_state {o n : Nat} {s : Service}
    (h : (removePadding o n s).1 = psaSuccess) :
    (removePadding o n s).2 = s.setSize o := by
  have hg : ∀ {c : Prop}, c → psaErrorGenericError ≠ psaSuccess := fun _ => psaErrorGenericError_ne
  unfold removePadding at h ⊢
  dsimp only at h ⊢
  rw [guard_success hg, guard_success hg, guard_success hg, guard_success hg, guard_success hg,
    guard_success hg] at h
  obtain ⟨h0, h1, h2, h3, h4, h5, -⟩ := h
  rw [if_neg h0, if_neg h1, if_neg h2, if_neg h3, if_neg h4, if_neg h5]
  exact congrArg s.setSize (not_not.mp h4)

/-! ### What a decryption changes -/

section Spec

variable {dev : Device} {f : Outcome} {P : List Byte} {s s' : Service}

section Keeps

variable {p : Service → Prop} (call : ∀ s c st, p s → p (s.call c st))
include call

/-- What every call keeps, a key derivation keeps. -/
theorem deriveKeyFromHuk_keeps {label : String} {derived : Cbc.Block 16} (h : p s) :
    p (deriveKeyFromHuk dev f label derived s).2.2 :=
  have keeps {c : Prop} [Decidable c] {e : Int} {x : Cbc.Block 16 × Service}
      {y : Int × Cbc.Block 16 × Service} (hx : p x.2) (hy : p y.2.2) :
      p (if c then (e, x) else y).2.2 :=
    guard_keeps (p := fun r : Cbc.Block 16 × Service => p r.2) hx hy
  have h₁ := call _ _ _ h
  have h₂ := call _ _ _ h₁
  have h₃ := call _ _ _ h₂
  have h₄ := call _ _ _ h₃
  have h₅ := call _ _ _ h₄
  keeps h₁ <| keeps (call _ _ _ h₂) <| keeps (call _ _ _ h₃) <| keeps (call _ _ _ h₄) <|
    keeps (call _ _ _ h₅) (call _ _ _ h₅)

variable (writeModel : ∀ s off bs, p s → p (s.writeModel off bs))
  (setSize : ∀ s n, p s → p (s.setSize n)) (setKey : ∀ s k, p s → p (s.setKey k))

theorem release_keeps (h : p s) : p (s.release f) := call _ _ _ (call _ _ _ h)

omit call in
include setSize in
theorem removePadding_keeps {o n : Nat} (h : p s) : p (removePadding o n s).2 :=
  have h' := setSize _ _ h
  guard_keeps h <| guard_keeps h <| guard_keeps h <| guard_keeps h <|
    guard_keeps h' <| guard_keeps h' h'

include writeModel setSize in
theorem cipherDecrypt_keeps (h : p s) : p (cipherDecrypt dev f P s).2 :=
  have h₁ := call _ _ _ h
  have h₂ := call _ _ _ (writeModel _ _ _ h₁)
  guard_keeps (release_keeps call (writeModel _ _ _ h₁)) <|
    guard_keeps (release_keeps call (writeModel _ _ _ h₂)) <|
      removePadding_keeps setSize (release_keeps call h₂)

include writeModel setSize in
theorem importAndDecrypt_keeps (h : p s) : p (importAndDecrypt dev f P s).2 :=
  have h₁ := call _ _ _ h
  have h₂ := call _ _ _ h₁
  have h₃ := call _ _ _ h₂
  guard_keeps h₁ <| guard_keeps (call _ _ _ h₂) <| guard_keeps (release_keeps call h₃) <|
    cipherDecrypt_keeps call writeModel setSize h₃

include writeModel setSize setKey in
/-- **What a decryption keeps.**  A property that the calls, and the writes of the plaintext, its
size and the key keep holds after a decryption, however it ends. -/
theorem decryptModel_keeps (h : p s) : p (decryptModel dev f P s).2 :=
  have h₁ := call _ _ _ h
  have h₂ := setKey _ _ (deriveKeyFromHuk_keeps call h₁)
  guard_keeps h <| guard_keeps h <| guard_keeps h <| guard_keeps h <| guard_keeps h₁ <|
    guard_keeps h₂ <| importAndDecrypt_keeps call writeModel setSize h₂

end Keeps

/-- Nothing but the plaintext, its size, the key and the trace differs. -/
structure Service.Frame (s s' : Service) : Prop where
  gMdl : s'.gMdl = s.gMdl
  gInUint8 : s'.gInUint8 = s.gInUint8
  gIn : s'.gIn = s.gIn
  gModelLoaded : s'.gModelLoaded = s.gModelLoaded
  mnistPic : s'.mnistPic = s.mnistPic
  eng : s'.eng = s.eng

/-- **Frame.**  A decryption, however it ends, leaves the engine, the tensors, the gate and the
image alone. -/
theorem decryptModel_frame : s.Frame (decryptModel dev f P s).2 :=
  decryptModel_keeps
    (fun _ _ _ h => ⟨h.gMdl, h.gInUint8, h.gIn, h.gModelLoaded, h.mnistPic, h.eng⟩)
    (fun _ _ _ h => ⟨h.gMdl, h.gInUint8, h.gIn, h.gModelLoaded, h.mnistPic, h.eng⟩)
    (fun _ _ h => ⟨h.gMdl, h.gInUint8, h.gIn, h.gModelLoaded, h.mnistPic, h.eng⟩)
    (fun _ _ h => ⟨h.gMdl, h.gInUint8, h.gIn, h.gModelLoaded, h.mnistPic, h.eng⟩)
    ⟨rfl, rfl, rfl, rfl, rfl, rfl⟩

/-! ### When a decryption succeeds -/

theorem deriveKeyFromHuk_success {label : String} {derived : Cbc.Block 16} :
    (deriveKeyFromHuk dev f label derived s).1 = psaSuccess ↔
      f.kdfSetup = psaSuccess ∧ f.kdfInputSalt = psaSuccess ∧ f.kdfInputKey = psaSuccess ∧
        f.kdfInputInfo = psaSuccess ∧ f.kdfOutput = psaSuccess :=
  (guard_success id).trans <| and_congr not_not <| (guard_success id).trans <|
    and_congr not_not <| (guard_success id).trans <| and_congr not_not <|
    (guard_success id).trans <| and_congr not_not <| (guard_success id).trans <| by
      rw [not_not]
      exact and_iff_left rfl

theorem deriveKeyFromHuk_key {label : String} {derived : Cbc.Block 16}
    (h : (deriveKeyFromHuk dev f label derived s).1 = psaSuccess) :
    (deriveKeyFromHuk dev f label derived s).2.1 = dev.hkdf dev.huk label derivedKeyLen := by
  obtain ⟨h1, h2, h3, h4, h5⟩ := deriveKeyFromHuk_success.mp h
  simp only [deriveKeyFromHuk, h1, h2, h3, h4, h5, ne_eq, not_true, if_false]
  rfl

theorem updateStatus_success {n : Nat} :
    updateStatus f n = psaSuccess ↔ f.cipherUpdate = psaSuccess ∧ n ≤ tfmTinymaixMaxModelSize := by
  have := psaErrorBufferTooSmall_ne
  unfold updateStatus
  split_ifs <;> simp_all

theorem finishStatus_success {n : Nat} :
    finishStatus f n = psaSuccess ↔ f.cipherFinish = psaSuccess ∧ 16 ∣ n := by
  have := psaErrorInvalidArgument_ne
  unfold finishStatus
  split_ifs <;> simp_all [Nat.dvd_iff_mod_eq_zero]

theorem length_plaintext_block {key : Cbc.Block 16} (h : 16 ∣ (ciphertext P).length) :
    (Cbc.decryptBytes (dev.aes key) (headerIv P) (ciphertext P)).length =
      (ciphertext P).length := by
  rw [Cbc.length_decryptBytes, Nat.mul_div_cancel' h]

/-- What a package must hold under a key, next to a right header. -/
def OpensUnder (dev : Device) (P : List Byte) (key : Cbc.Block 16) : Prop :=
  (16 ∣ (ciphertext P).length ∧ (ciphertext P).length ≤ tfmTinymaixMaxModelSize) ∧
    ∃ d, Pkcs7.unpad 16 (Cbc.decryptBytes (dev.aes key) (headerIv P) (ciphertext P)) = some d ∧
      d.length = headerWord P 8 ∧ (4 ≤ d.length → leValue (d.take 4) = tmMdlMagic)

theorem cipherDecrypt_success (hP : (ciphertext P).length ≠ 0) :
    (cipherDecrypt dev f P s).1 = psaSuccess ↔
      (f.cipherUpdate = psaSuccess ∧ f.cipherFinish = psaSuccess) ∧
        OpensUnder dev P s.encryptionKey := by
  have hplain := @length_plaintext_block dev P s.encryptionKey
  refine (guard_success id).trans ((and_congr (not_not.trans updateStatus_success)
    ((guard_success id).trans (and_congr (not_not.trans finishStatus_success) Iff.rfl))).trans ?_)
  constructor
  · rintro ⟨⟨h1, h2⟩, ⟨h3, h4⟩, h5⟩
    rw [hplain h4] at h2
    refine ⟨⟨h1, h3⟩, ⟨h4, h2⟩, ?_⟩
    have h := (removePadding_spec (hplain h4 ▸ hP)).mp h5
    rwa [show Service.gDecryptedModel _ = splice s.gDecryptedModel 0 _ from rfl,
      window_splice] at h
  · rintro ⟨⟨h1, h3⟩, ⟨h4, h2⟩, h5⟩
    refine ⟨⟨h1, (hplain h4).trans_le h2⟩, ⟨h3, h4⟩, (removePadding_spec (hplain h4 ▸ hP)).mpr ?_⟩
    rwa [show Service.gDecryptedModel _ = splice s.gDecryptedModel 0 _ from rfl, window_splice]

/-- The plaintext, the size and the key of a service. -/
structure Service.Holds (s s' : Service) (plain : List Byte) (n : Nat) (key : Cbc.Block 16) :
    Prop where
  model : s'.gDecryptedModel = splice s.gDecryptedModel 0 plain
  size : s'.gDecryptedSize = n
  key : s'.encryptionKey = key

theorem cipherDecrypt_state (h : (cipherDecrypt dev f P s).1 = psaSuccess) :
    s.Holds (cipherDecrypt dev f P s).2
      (Cbc.decryptBytes (dev.aes s.encryptionKey) (headerIv P) (ciphertext P)) (headerWord P 8)
      s.encryptionKey := by
  have h' := ((guard_success id).mp h).2
  have e := (guard_state id h).trans (guard_state id h')
  have h'' := ((guard_success id).mp h').2
  rw [show cipherDecrypt dev f P s = _ from e, removePadding_state h'']
  exact ⟨rfl, rfl, rfl⟩

theorem importAndDecrypt_success (hP : (ciphertext P).length ≠ 0) :
    (importAndDecrypt dev f P s).1 = psaSuccess ↔
      f.importKey = psaSuccess ∧ f.cipherSetup = psaSuccess ∧ f.cipherSetIv = psaSuccess ∧
        (f.cipherUpdate = psaSuccess ∧ f.cipherFinish = psaSuccess) ∧
          OpensUnder dev P s.encryptionKey :=
  (guard_success id).trans <| and_congr not_not <| (guard_success id).trans <|
    and_congr not_not <| (guard_success id).trans <| and_congr not_not <| cipherDecrypt_success hP

theorem importAndDecrypt_state (h : (importAndDecrypt dev f P s).1 = psaSuccess) :
    s.Holds (importAndDecrypt dev f P s).2
      (Cbc.decryptBytes (dev.aes s.encryptionKey) (headerIv P) (ciphertext P)) (headerWord P 8)
      s.encryptionKey := by
  have h₁ := ((guard_success id).mp h).2
  have h₂ := ((guard_success id).mp h₁).2
  have h₃ := ((guard_success id).mp h₂).2
  rw [show importAndDecrypt dev f P s = _ from
    (guard_state id h).trans ((guard_state id h₁).trans (guard_state id h₂))]
  have hs := cipherDecrypt_state h₃
  exact ⟨hs.model, hs.size, hs.key⟩

/-- The service once the key is derived. -/
def keyed (dev : Device) (f : Outcome) (s : Service) : Service :=
  let r := deriveKeyFromHuk dev f decryptHukLabel s.encryptionKey (s.call .init f.cryptoInit)
  r.2.2.setKey r.2.1

theorem keyed_model : (keyed dev f s).gDecryptedModel = s.gDecryptedModel :=
  deriveKeyFromHuk_keeps (p := fun t => t.gDecryptedModel = s.gDecryptedModel) (fun _ _ _ h => h)
    (s := s.call .init f.cryptoInit) rfl

theorem keyed_key (h : (deriveKeyFromHuk dev f decryptHukLabel s.encryptionKey
    (s.call .init f.cryptoInit)).1 = psaSuccess) :
    (keyed dev f s).encryptionKey = deviceKey dev := deriveKeyFromHuk_key h

theorem initAndDecrypt_success (hP : (ciphertext P).length ≠ 0) :
    (initAndDecrypt dev f P s).1 = psaSuccess ↔
      f.DecryptOk ∧ OpensUnder dev P (deviceKey dev) := by
  have hinit : ¬(f.cryptoInit ≠ psaSuccess ∧ f.cryptoInit ≠ psaErrorAlreadyExists) ↔
      f.cryptoInit = psaSuccess ∨ f.cryptoInit = psaErrorAlreadyExists := by
    rw [not_and_or, not_not, not_not]
  refine (guard_success fun h => h.1).trans ((and_congr hinit ((guard_success fun _ =>
    psaErrorGenericError_ne).trans (and_congr not_not
      (importAndDecrypt_success (s := keyed dev f s) hP)))).trans ?_)
  constructor
  · rintro ⟨h1, hk, h7, h8, h9, ⟨h10, h11⟩, hopens⟩
    obtain ⟨h2, h3, h4, h5, h6⟩ := deriveKeyFromHuk_success.mp hk
    exact ⟨⟨h1, h2, h3, h4, h5, h6, h7, h8, h9, h10, h11⟩, keyed_key hk ▸ hopens⟩
  · rintro ⟨⟨h1, h2, h3, h4, h5, h6, h7, h8, h9, h10, h11⟩, hopens⟩
    have hk : (deriveKeyFromHuk dev f decryptHukLabel s.encryptionKey
        (s.call .init f.cryptoInit)).1 = psaSuccess :=
      deriveKeyFromHuk_success.mpr ⟨h2, h3, h4, h5, h6⟩
    exact ⟨h1, hk, h7, h8, h9, ⟨h10, h11⟩, (keyed_key hk).symm ▸ hopens⟩

theorem initAndDecrypt_state (h : (initAndDecrypt dev f P s).1 = psaSuccess) :
    s.Holds (initAndDecrypt dev f P s).2 (plaintext dev P) (headerWord P 8) (deviceKey dev) := by
  have hinit : f.cryptoInit ≠ psaSuccess ∧ f.cryptoInit ≠ psaErrorAlreadyExists →
      f.cryptoInit ≠ psaSuccess := fun h => h.1
  have hg : ∀ {c : Prop}, c → psaErrorGenericError ≠ psaSuccess := fun _ => psaErrorGenericError_ne
  have h₁ := ((guard_success hinit).mp h).2
  have h₂ := (guard_success hg).mp h₁
  have e : initAndDecrypt dev f P s = importAndDecrypt dev f P (keyed dev f s) :=
    (guard_state hinit h).trans (guard_state hg h₁)
  have hs := importAndDecrypt_state (s := keyed dev f s) h₂.2
  have hk : (keyed dev f s).encryptionKey = deviceKey dev := keyed_key (not_not.mp h₂.1)
  rw [hk] at hs
  rw [e]
  exact ⟨hs.model.trans (by rw [keyed_model]; rfl), hs.size, hs.key⟩

theorem ciphertext_ne_nil : (ciphertext P).length ≠ 0 ↔ encryptedHeaderCbcSize < P.length := by
  rw [ciphertext, List.length_drop]
  omega

/-- The checks of the header, and what they leave. -/
theorem decryptModel_header :
    (decryptModel dev f P s).1 = psaSuccess ↔
      (headerWord P 0 = encryptedHeaderMagic ∧ headerWord P 4 = 3 ∧
        headerWord P 8 ≤ tfmTinymaixMaxModelSize ∧ encryptedHeaderCbcSize < P.length) ∧
      (initAndDecrypt dev f P s).1 = psaSuccess := by
  have hi : ∀ {c : Prop}, c → psaErrorInvalidArgument ≠ psaSuccess :=
    fun _ => psaErrorInvalidArgument_ne
  refine (guard_success hi).trans ((and_congr_right fun _ => (guard_success hi).trans
    (and_congr_right fun _ => (guard_success fun _ => psaErrorBufferTooSmall_ne).trans
      (and_congr_right fun _ => guard_success hi))).trans ?_)
  rw [not_or, not_not, not_not, ← ne_eq (ciphertext P).length, ciphertext_ne_nil]
  constructor
  · rintro ⟨-, ⟨h1, h2⟩, h3, h4, h⟩
    exact ⟨⟨h1, h2, not_lt.mp h3, h4⟩, h⟩
  · rintro ⟨⟨h1, h2, h3, h4⟩, h⟩
    exact ⟨not_lt.mpr h4.le, ⟨h1, h2⟩, not_lt.mpr h3, h4, h⟩

/-- **When a decryption succeeds**: its calls do, and the package opens. -/
theorem decryptModel_success_iff :
    (decryptModel dev f P s).1 = psaSuccess ↔ f.DecryptOk ∧ ∃ d, Opens dev P d := by
  rw [decryptModel_header]
  constructor
  · rintro ⟨⟨h1, h2, h3, h4⟩, h⟩
    obtain ⟨hf, ⟨h5, h6⟩, d, hd, hl, hm⟩ := (initAndDecrypt_success
      (ciphertext_ne_nil.mpr h4)).mp h
    exact ⟨hf, d, h1, h2, hl.symm, h4, h5, h6, hd, hm⟩
  · rintro ⟨hf, d, ho⟩
    have hlen : d.length ≤ (ciphertext P).length := by
      have hp := ho.padded
      unfold Pkcs7.unpad at hp
      split at hp
      · obtain rfl := Option.some.inj hp
        rw [Pkcs7.strip, List.length_take, plaintext, length_plaintext_block ho.whole]
        exact min_le_right _ _
      · cases hp
    exact ⟨⟨ho.magic, ho.version, ho.size ▸ hlen.trans ho.fits, ho.nonempty⟩,
      (initAndDecrypt_success (ciphertext_ne_nil.mpr ho.nonempty)).mpr
        ⟨hf, ⟨ho.whole, ho.fits⟩, d, ho.padded, ho.size.symm, ho.model⟩⟩

/-- **What a successful decryption leaves**: the padded model at the start of the buffer, its
size, and the device's key. -/
theorem decryptModel_success (h : (decryptModel dev f P s).1 = psaSuccess) :
    s.Holds (decryptModel dev f P s).2 (plaintext dev P) (headerWord P 8) (deviceKey dev) := by
  have hi : ∀ {c : Prop}, c → psaErrorInvalidArgument ≠ psaSuccess :=
    fun _ => psaErrorInvalidArgument_ne
  have hb : ∀ {c : Prop}, c → psaErrorBufferTooSmall ≠ psaSuccess :=
    fun _ => psaErrorBufferTooSmall_ne
  have h₁ := ((guard_success hi).mp h).2
  have h₂ := ((guard_success hi).mp h₁).2
  have h₃ := ((guard_success hb).mp h₂).2
  rw [show decryptModel dev f P s = initAndDecrypt dev f P s from (guard_state hi h).trans
    ((guard_state hi h₁).trans ((guard_state hb h₂).trans (guard_state hi h₃)))]
  exact initAndDecrypt_state (decryptModel_header.mp h).2

/-- **A package that opens is decrypted to its model**, when the calls succeed. -/
theorem decryptModel_opens {d : List Byte} (hf : f.DecryptOk) (ho : Opens dev P d) :
    (decryptModel dev f P s).1 = psaSuccess ∧
      (decryptModel dev f P s).2.gDecryptedSize = d.length ∧
      window (decryptModel dev f P s).2.gDecryptedModel 0 d.length = d := by
  have hok := (decryptModel_success_iff (s := s)).mpr ⟨hf, d, ho⟩
  have hs := decryptModel_success hok
  obtain ⟨hle, htake⟩ := Pkcs7.unpad_eq_take ho.padded
  refine ⟨hok, hs.size.trans ho.size, ?_⟩
  rw [hs.model, window_splice_take hle, htake]

end Spec

end Partition
