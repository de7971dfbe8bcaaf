import Pico2wTfm.Results.Provisioning
import Pico2wTfm.Tools.CbcTest

/-!
# Results — OfflineVerifier

`test_cbc_decrypt.py` against `decrypt_model`, for the packages of one key.  The script does not
compare the magic and the version of the header; the device does not want a model to have a magic,
if it is shorter than one.

* `verifier_agrees_iff`: the packages on which they agree;
* `wrong_magic_passed`: one on which they do not.
-/

namespace Partition
open Bytes Encryptor TinyMaix CbcTest

/-- The script calls the package valid, without another word, and has the plaintext `d`. -/
def Passes (dev : Device) (P d : List Byte) : Prop :=
  testCbcDecrypt dev.aes P (deviceKey dev) = .ok ⟨[.validModel], some d⟩

/-- Both accept the package or neither does, and they get one plaintext. -/
def Agree (dev : Device) (f : Outcome) (P : List Byte) (s : Service) : Prop :=
  let r := decryptModel dev f P s
  ((∃ d, Passes dev P d) ↔ r.1 = psaSuccess) ∧
    ∀ d, Passes dev P d → r.1 = psaSuccess → window r.2.gDecryptedModel 0 r.2.gDecryptedSize = d

/-- The magic and the version of the format. -/
def RightHeader (magic version : Nat) : Prop := magic = encryptedHeaderMagic ∧ version = 3

/-- A package of a model has the magic and the version of the format, and one of less than a magic
has not. -/
def HeaderTells (dev : Device) (P : List Byte) : Prop :=
  ∀ magic version iv d, magic < 256 ^ 4 → version < 256 ^ 4 →
    P = encode magic version d.length iv (encryptModel dev.aes d (deviceKey dev) iv) →
    if 4 ≤ d.length then leValue (d.take 4) = tmMdlMagic → RightHeader magic version
    else ¬RightHeader magic version

section Agreement

variable {dev : Device} {f : Outcome} {P d : List Byte} {s : Service}

/-- `d` is what the package holds, whatever magic and version it has. -/
structure Seals (dev : Device) (P d : List Byte) : Prop where
  size : headerWord P 8 = d.length
  nonempty : encryptedHeaderCbcSize < P.length
  whole : 16 ∣ (ciphertext P).length
  padded : Pkcs7.unpad 16 (plaintext dev P) = some d

theorem Seals.eq_encode (h : Seals dev P d) :
    P = encode (headerWord P 0) (headerWord P 4) d.length (headerIv P)
      (encryptModel dev.aes d (deviceKey dev) (headerIv P)) := by
  have hpad : plaintext dev P = Pkcs7.pad 16 d := Pkcs7.eq_pad_of_unpad (by decide)
    (by rw [plaintext, length_plaintext_block h.whole]; exact h.whole) h.padded
  have hct : encryptModel dev.aes d (deviceKey dev) (headerIv P) = ciphertext P := by
    rw [encryptModel, pkcs7Pad_eq, ← hpad, plaintext,
      Cbc.encryptBytes_decryptBytes _ (by decide) _ h.whole]
  rw [hct, ← h.size]
  exact Partition.eq_encode h.nonempty.le

theorem Seals.unique {d' : List Byte} (h : Seals dev P d) (h' : Seals dev P d') : d = d' :=
  Option.some.inj (h.padded.symm.trans h'.padded)

theorem seals_encode {magic version : Nat} {iv : Cbc.Block 16} (hd : d.length < 256 ^ 4) :
    Seals dev (encode magic version d.length iv (encryptModel dev.aes d (deviceKey dev) iv)) d := by
  have hpad : 0 < (Pkcs7.pad 16 d).length := Pkcs7.length_pad_pos (by decide) d
  refine ⟨headerWord_encode_size hd, ?_, ?_, ?_⟩
  · rw [length_encode, length_encryptModel]
    exact Nat.lt_add_of_pos_right hpad
  · rw [ciphertext_encode, length_encryptModel]
    exact Pkcs7.dvd_length_pad (by decide) d
  · rw [plaintext, headerIv_encode, ciphertext_encode, encryptModel, pkcs7Pad_eq,
      Cbc.decryptBytes_encryptBytes _ (by decide) _ (Pkcs7.dvd_length_pad (by decide) d),
      Pkcs7.unpad_pad (by decide) (by decide)]

/-- **What the script passes.** -/
theorem passes_iff :
    Passes dev P d ↔ Seals dev P d ∧ 4 ≤ d.length ∧ leValue (d.take 4) = tmMdlMagic := by
  rw [Passes, accepts_iff]
  constructor
  · rintro ⟨⟨hlen, hwhole⟩, hpad, hsize, hmagic⟩
    refine ⟨⟨hsize.symm, ?_, hwhole, hpad⟩, hmagic⟩
    -- without a ciphertext there is no padding
    refine ciphertext_ne_nil.mp fun hzero => ?_
    have hnil : P.drop 28 = [] := List.length_eq_zero_iff.mp hzero
    rw [hnil] at hpad
    cases hpad
  · rintro ⟨h, hmagic⟩
    exact ⟨⟨h.nonempty.le, h.whole⟩, h.padded, h.size.symm, hmagic⟩

/-- **What the device opens.** -/
theorem opens_iff (hP : P.length ≤ 4096) : Opens dev P d ↔
    Seals dev P d ∧ RightHeader (headerWord P 0) (headerWord P 4) ∧
      (4 ≤ d.length → leValue (d.take 4) = tmMdlMagic) := by
  constructor
  · intro h
    exact ⟨⟨h.size, h.nonempty, h.whole, h.padded⟩, ⟨h.magic, h.version⟩, h.model⟩
  · rintro ⟨h, hr, hm⟩
    have hfits : (ciphertext P).length ≤ tfmTinymaixMaxModelSize := by
      rw [ciphertext, List.length_drop]
      exact (Nat.sub_le _ _).trans hP
    exact ⟨hr.1, hr.2, h.size, h.nonempty, h.whole, hfits, h.padded, hm⟩

theorem headerWord_lt (off : Nat) : headerWord P off < 256 ^ 4 :=
  (leValue_lt _).trans_le (Nat.pow_le_pow_right (by decide) (List.length_take_le 4 _))

theorem headerTells_iff (hP : P.length ≤ 4096) : HeaderTells dev P ↔
    ∀ d, Seals dev P d →
      if 4 ≤ d.length then
        leValue (d.take 4) = tmMdlMagic → RightHeader (headerWord P 0) (headerWord P 4)
      else ¬RightHeader (headerWord P 0) (headerWord P 4) := by
  constructor
  · exact fun h d hd => h _ _ _ _ (headerWord_lt 0) (headerWord_lt 4) hd.eq_encode
  · intro h magic version iv d hm hv heq
    have hd : d.length < 256 ^ 4 := by
      have hlen := congrArg List.length heq
      rw [length_encode, length_encryptModel, Pkcs7.length_pad] at hlen
      omega
    have key := h d (heq ▸ seals_encode hd)
    rwa [heq, headerWord_encode_magic hm, headerWord_encode_version hv] at key

/-- **The offline verifier** agrees with the device on a package exactly when its header tells. -/
theorem verifier_agrees_iff (hf : f.DecryptOk) (hP : P.length ≤ 4096) :
    Agree dev f P s ↔ HeaderTells dev P := by
  have hsame : ∀ d, Passes dev P d → (decryptModel dev f P s).1 = psaSuccess →
      window (decryptModel dev f P s).2.gDecryptedModel 0
        (decryptModel dev f P s).2.gDecryptedSize = d := by
    intro d hd hok
    obtain ⟨-, d', ho⟩ := decryptModel_success_iff.mp hok
    obtain ⟨-, hsize, hwindow⟩ := decryptModel_opens (s := s) hf ho
    rw [hsize, hwindow]
    exact ((opens_iff hP).mp ho).1.unique (passes_iff.mp hd).1
  rw [Agree, and_iff_left hsame, decryptModel_success_iff, and_iff_right hf, headerTells_iff hP]
  simp only [passes_iff, opens_iff hP]
  by_cases hseals : ∃ d, Seals dev P d
  · obtain ⟨d, hd⟩ := hseals
    have only : ∀ q : List Byte → Prop, (∃ d', Seals dev P d' ∧ q d') ↔ q d := fun q =>
      ⟨fun ⟨d', hd', hq⟩ => hd'.unique hd ▸ hq, fun hq => ⟨d, hd, hq⟩⟩
    have all : ∀ q : List Byte → Prop, (∀ d', Seals dev P d' → q d') ↔ q d := fun q =>
      ⟨fun h => h d hd, fun hq d' hd' => hd.unique hd' ▸ hq⟩
    rw [only, only, all]
    by_cases hlen : 4 ≤ d.length
    · rw [if_pos hlen]
      constructor
      · exact fun h hm => (h.mp ⟨hlen, hm⟩).1
      · exact fun h => ⟨fun hm => ⟨h hm.2, fun _ => hm.2⟩, fun hr => ⟨hlen, hr.2 hlen⟩⟩
    · rw [if_neg hlen]
      constructor
      · exact fun h hr => hlen (h.mpr ⟨hr, fun hl => absurd hl hlen⟩).1
      · exact fun h => ⟨fun hm => absurd hm.1 hlen, fun hr => absurd hr.1 h⟩
  · have none : ∀ q : List Byte → Prop, ¬∃ d, Seals dev P d ∧ q d := fun q ⟨d, hd, _⟩ =>
      hseals ⟨d, hd⟩
    exact ⟨fun _ d hd => absurd ⟨d, hd⟩ hseals,
      fun _ => ⟨fun h => absurd h (none _), fun h => absurd h (none _)⟩⟩

end Agreement

/-- A model of five bytes. -/
def tinyModel : List Byte := [0x4D, 0x41, 0x49, 0x58, 0]

/-- Its package. -/
def tinyPackage (magic : Nat) (dev : Device) : List Byte :=
  encode magic 3 tinyModel.length (fun _ => 0)
    (encryptModel dev.aes tinyModel (deviceKey dev) fun _ => 0)

theorem seals_tinyPackage {magic : Nat} {dev : Device} :
    Seals dev (tinyPackage magic dev) tinyModel :=
  seals_encode (by decide)

theorem length_tinyPackage {magic : Nat} {dev : Device} :
    (tinyPackage magic dev).length = 44 := by
  rw [tinyPackage, length_encode, length_encryptModel]
  rfl

/-- They agree on the package of the tool. -/
theorem verifier_agrees_iff_tool :
    Agree (bareDevice []) .success (tinyPackage encryptedHeaderMagic (bareDevice [])) boot := by
  refine (verifier_agrees_iff Outcome.cryptoOk_success.decryptOk ?_).mpr ?_
  · rw [length_tinyPackage]
    decide
  · refine (headerTells_iff (by rw [length_tinyPackage]; decide)).mpr fun d hd => ?_
    obtain rfl := hd.unique seals_tinyPackage
    exact fun _ => ⟨headerWord_encode_magic (by decide), headerWord_encode_version (by decide)⟩

/-- **A package with another magic passes**, on every device, and the device refuses it. -/
theorem wrong_magic_passed :
    (∀ (dev : Device) (s : Service), (tinyPackage 0 dev).length ≤ 4096 ∧
      Passes dev (tinyPackage 0 dev) tinyModel ∧
      (decryptModel dev .success (tinyPackage 0 dev) s).1 ≠ psaSuccess) ∧
    ¬Agree (bareDevice []) .success (tinyPackage 0 (bareDevice [])) boot := by
  have passes : ∀ dev, Passes dev (tinyPackage 0 dev) tinyModel := fun dev =>
    passes_iff.mpr ⟨seals_tinyPackage, by decide, by decide⟩
  have refused : ∀ (dev : Device) (s : Service),
      (decryptModel dev .success (tinyPackage 0 dev) s).1 ≠ psaSuccess := by
    intro dev s hok
    obtain ⟨-, d, ho⟩ := decryptModel_success_iff.mp hok
    have hmagic := ho.magic
    rw [tinyPackage, headerWord_encode_magic (by decide)] at hmagic
    exact absurd hmagic (by decide)
  refine ⟨fun dev s => ⟨?_, passes dev, refused dev s⟩, fun hagree => ?_⟩
  · rw [length_tinyPackage]
    decide
  · exact refused _ _ (hagree.1.mp ⟨_, passes _⟩)

end Partition
