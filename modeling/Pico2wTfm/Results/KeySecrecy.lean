import Pico2wTfm.Results.LoadGate

/-!
# Results — KeySecrecy

The model key is derived on the device, kept in a global and handed to the cryptographic service.
Clients of a production build see nothing of it: two devices that were provisioned with one model,
each under its own hardware key, its own IV and its own package, cannot be told apart.

* `Twins`: what the devices have to have in common is what the packages hold, and no key.
* `key_secrecy`: whatever one of them does in a run, the other does in a run over the same messages,
  down to the accesses of the engine; the states differ in the key alone.

A `DEV_MODE` build answers a request for the key with the key, so the devices are production builds.
-/

namespace Partition
open Bytes Footprint TinyMaix Encryptor

/-- The states differ at most in the key. -/
def SameButKey (s t : Service) : Prop := ∃ k, t = s.setKey k

/-- So do the states of two results, which are the same. -/
def SameResult {α : Type} (r r' : α × Service) : Prop := r'.1 = r.1 ∧ SameButKey r.2 r'.2

/-- **Two devices with one model.**  Both are production builds on one kind of hardware.  The packages
have the same length and the same header but for the IV, and decrypt to the same bytes, each under the
key of its device. -/
structure Twins (dev dev' : Device) : Prop where
  production : dev.devMode = false ∧ dev'.devMode = false
  mainAddr : dev'.mainAddr = dev.mainAddr
  fl : dev'.fl = dev.fl
  length : dev'.package.length = dev.package.length
  header : ∀ off ∈ [0, 4, 8], headerWord dev'.package off = headerWord dev.package off
  plaintext : plaintext dev' dev'.package = plaintext dev dev.package

section Same

variable {s t x x' : Service} {f : Outcome} {msg : Msg} {dev dev' : Device}

theorem SameButKey.refl (s : Service) : SameButKey s s := ⟨s.encryptionKey, rfl⟩

section Guards

variable {c : Prop} [Decidable c] {e : Int} {y y' : Int × Service}

/-- Both pass a check, or both exit there. -/
theorem guard_twin (hx : SameButKey x x') (hy : SameResult y y') :
    SameResult (if c then (e, x) else y) (if c then (e, x') else y') := by
  split
  · exact ⟨rfl, hx⟩
  · exact hy

end Guards

/-! ### The decryption -/

theorem call_twin (h : SameButKey s t) (c : CryptoCall) (st : Int) :
    SameButKey (s.call c st) (t.call c st) := by
  obtain ⟨k, rfl⟩ := h
  exact ⟨k, rfl⟩

theorem writeModel_twin (h : SameButKey s t) (off : Nat) (bs : List Byte) :
    SameButKey (s.writeModel off bs) (t.writeModel off bs) := by
  obtain ⟨k, rfl⟩ := h
  exact ⟨k, rfl⟩

theorem release_twin (h : SameButKey s t) : SameButKey (s.release f) (t.release f) :=
  call_twin (call_twin h _ _) _ _

theorem removePadding_twin (h : SameButKey s t) (o n : Nat) :
    SameResult (removePadding o n s) (removePadding o n t) := by
  obtain ⟨k, rfl⟩ := h
  have same : SameButKey s (s.setKey k) := ⟨k, rfl⟩
  have size : ∀ n, SameButKey (s.setSize n) ((s.setKey k).setSize n) := fun _ => ⟨k, rfl⟩
  exact guard_twin same <| guard_twin same <| guard_twin same <| guard_twin same <|
    guard_twin (size _) <| guard_twin (size _) ⟨rfl, size _⟩

theorem deriveKeyFromHuk_twin (h : SameButKey s t) {derived derived' : Cbc.Block 16} {l : String} :
    (deriveKeyFromHuk dev' f l derived' t).1 = (deriveKeyFromHuk dev f l derived s).1 ∧
      SameButKey (deriveKeyFromHuk dev f l derived s).2.2
        (deriveKeyFromHuk dev' f l derived' t).2.2 := by
  obtain ⟨k, rfl⟩ := h
  unfold deriveKeyFromHuk
  dsimp only
  split_ifs <;> exact ⟨rfl, k, rfl⟩

theorem setKey_twin (h : SameButKey s t) (k k' : Cbc.Block 16) :
    SameButKey (s.setKey k) (t.setKey k') := by
  obtain ⟨k, rfl⟩ := h
  exact ⟨k', rfl⟩

/-- **The calls of the cipher** see the key, and what comes out is the same. -/
theorem cipherDecrypt_twin {P P' : List Byte} (h : SameButKey s t)
    (hplain : Cbc.decryptBytes (dev'.aes t.encryptionKey) (headerIv P') (ciphertext P') =
      Cbc.decryptBytes (dev.aes s.encryptionKey) (headerIv P) (ciphertext P))
    (hlen : (ciphertext P').length = (ciphertext P).length)
    (hsize : headerWord P' 8 = headerWord P 8) :
    SameResult (cipherDecrypt dev f P s) (cipherDecrypt dev' f P' t) := by
  rw [cipherDecrypt, cipherDecrypt, hplain, hlen, hsize]
  have h₁ := fun st => call_twin h .cipherUpdate st
  have h₂ := fun st n bs st' => call_twin (writeModel_twin (h₁ st) n bs) .cipherFinish st'
  exact guard_twin (release_twin (writeModel_twin (h₁ _) _ _)) <|
    guard_twin (release_twin (writeModel_twin (h₂ _ _ _ _) _ _)) <|
      removePadding_twin (release_twin (h₂ _ _ _ _)) _ _

theorem emit_twin (h : SameButKey s t) (ev : Event) : SameButKey (s.emit ev) (t.emit ev) := by
  obtain ⟨k, rfl⟩ := h
  exact ⟨k, rfl⟩

theorem setLoaded_twin (h : SameButKey s t) (b : Bool) :
    SameButKey (s.setLoaded b) (t.setLoaded b) := by
  obtain ⟨k, rfl⟩ := h
  exact ⟨k, rfl⟩

theorem setMdl_twin (h : SameButKey s t) (mdl : TmMdl) :
    SameButKey (s.setMdl mdl) (t.setMdl mdl) := by
  obtain ⟨k, rfl⟩ := h
  exact ⟨k, rfl⟩

theorem setIn_twin (h : SameButKey s t) (mat : TmMat) :
    SameButKey (s.setIn mat) (t.setIn mat) := by
  obtain ⟨k, rfl⟩ := h
  exact ⟨k, rfl⟩

theorem writeIfRoom_twin (h : SameButKey s t) (data : List Byte) :
    SameButKey (s.writeIfRoom msg data) (t.writeIfRoom msg data) := by
  unfold Service.writeIfRoom
  split
  · exact emit_twin h _
  · exact h

theorem run_twin {α : Type} (c : Eng α) {k : Cbc.Block 16} :
    SameResult (s.run c) ((s.setKey k).run c) := ⟨rfl, k, rfl⟩

/-- The status of the derivation. -/
def derived (dev : Device) (f : Outcome) (s : Service) : Int :=
  (deriveKeyFromHuk dev f decryptHukLabel s.encryptionKey (s.call .init f.cryptoInit)).1

theorem initAndDecrypt_eq (P : List Byte) : initAndDecrypt dev f P s =
    if f.cryptoInit ≠ psaSuccess ∧ f.cryptoInit ≠ psaErrorAlreadyExists then
      (f.cryptoInit, s.call .init f.cryptoInit)
    else if derived dev f s ≠ psaSuccess then (psaErrorGenericError, keyed dev f s)
    else importAndDecrypt dev f P (keyed dev f s) := rfl

section Twins

variable (tw : Twins dev dev')
include tw

theorem Twins.ciphertext : (ciphertext dev'.package).length = (ciphertext dev.package).length := by
  rw [Partition.ciphertext, Partition.ciphertext, List.length_drop, List.length_drop, tw.length]

theorem importAndDecrypt_twin (h : SameButKey s t) (hs : s.encryptionKey = deviceKey dev)
    (ht : t.encryptionKey = deviceKey dev') :
    SameResult (importAndDecrypt dev f dev.package s) (importAndDecrypt dev' f dev'.package t) := by
  have h₁ := call_twin h .importKey f.importKey
  have h₂ := call_twin h₁ (.cipherSetup f.keyId) f.cipherSetup
  have h₃ := call_twin h₂ .cipherSetIv f.cipherSetIv
  have plain : Cbc.decryptBytes (dev'.aes t.encryptionKey) (headerIv dev'.package)
      (Partition.ciphertext dev'.package) = Cbc.decryptBytes (dev.aes s.encryptionKey)
        (headerIv dev.package) (Partition.ciphertext dev.package) := by
    rw [hs, ht]
    exact tw.plaintext
  exact guard_twin h₁ <| guard_twin (call_twin h₂ _ _) <| guard_twin (release_twin h₃) <|
    cipherDecrypt_twin h₃ plain tw.ciphertext (tw.header 8 (by decide))

/-- The old key has no part in it: a decryption that uses a key has derived it. -/
theorem initAndDecrypt_twin (h : SameButKey s t) :
    SameResult (initAndDecrypt dev f dev.package s) (initAndDecrypt dev' f dev'.package t) := by
  have h₁ := call_twin h .init f.cryptoInit
  obtain ⟨status, h₂⟩ := @deriveKeyFromHuk_twin _ _ f dev dev' h₁ s.encryptionKey t.encryptionKey
    decryptHukLabel
  have h₃ : SameButKey (keyed dev f s) (keyed dev' f t) := setKey_twin h₂ _ _
  have hstatus : derived dev' f t = derived dev f s := status
  rw [initAndDecrypt_eq, initAndDecrypt_eq, hstatus]
  refine guard_twin h₁ ?_
  by_cases hk : derived dev f s = psaSuccess
  · have hs : (keyed dev f s).encryptionKey = deviceKey dev := keyed_key hk
    have ht : (keyed dev' f t).encryptionKey = deviceKey dev' := keyed_key (hstatus.trans hk)
    exact guard_twin h₃ (importAndDecrypt_twin tw h₃ hs ht)
  · rw [if_pos hk, if_pos hk]
    exact ⟨rfl, h₃⟩

theorem decryptModel_twin (h : SameButKey s t) :
    SameResult (decryptModel dev f dev.package s) (decryptModel dev' f dev'.package t) := by
  rw [decryptModel, decryptModel, tw.length, tw.ciphertext, tw.header 0 (by decide),
    tw.header 4 (by decide), tw.header 8 (by decide)]
  exact guard_twin h <| guard_twin h <| guard_twin h <| guard_twin h <| initAndDecrypt_twin tw h

/-! ### The requests -/

theorem Twins.env (h : SameButKey s t) : t.env dev' = s.env dev := by
  obtain ⟨k, rfl⟩ := h
  rw [Service.env, Service.env, tw.mainAddr, tw.fl]
  rfl

theorem tmLoadCall_twin (h : SameButKey s t) :
    SameResult (tmLoadCall dev s) (tmLoadCall dev' t) := by
  rw [tmLoadCall, tmLoadCall, tw.env h]
  obtain ⟨k, rfl⟩ := h
  exact run_twin _

theorem loaded_twin (h : SameButKey s t) : SameButKey (loaded dev s) (loaded dev' t) := by
  obtain ⟨hr, h₁⟩ := tmLoadCall_twin tw h
  rw [loaded, loaded, hr]
  exact setIn_twin (setMdl_twin h₁ _) _

theorem loadPackage_twin (h : SameButKey s t) :
    SameResult (loadPackage dev f s) (loadPackage dev' f t) := by
  rw [loadPackage, loadPackage, tw.length]
  exact guard_twin h (decryptModel_twin tw h)

theorem loadModel_twin (h : SameButKey s t) :
    SameResult (loadModel dev f s) (loadModel dev' f t) := by
  obtain ⟨hp, h₁⟩ := @loadPackage_twin _ _ f dev dev' tw h
  have h₂ := loaded_twin tw h₁
  have hl := (tmLoadCall_twin tw h₁).1
  rw [loadModel_eq, loadModel_eq, hp, hl]
  split
  · exact guard_twin (setLoaded_twin h₂ _) ⟨rfl, setLoaded_twin h₂ _⟩
  · exact ⟨rfl, setLoaded_twin h₁ _⟩

/-- **A `LOAD`.** -/
theorem handleLoad_twin (h : SameButKey s t) :
    SameButKey (handleLoad dev f msg s) (handleLoad dev' f msg t) := by
  obtain ⟨hr, h₁⟩ := @loadModel_twin _ _ f dev dev' tw h
  unfold handleLoad
  dsimp only
  rw [hr]
  split
  · exact emit_twin (writeIfRoom_twin h₁ _) _
  · exact emit_twin h₁ _

theorem tmPreprocessCall_twin (h : SameButKey s t) :
    SameResult (tmPreprocessCall dev s) (tmPreprocessCall dev' t) := by
  rw [tmPreprocessCall, tmPreprocessCall, tw.env h]
  obtain ⟨k, rfl⟩ := h
  exact run_twin _

theorem tmRunCall_twin (h : SameButKey s t) :
    SameResult (tmRunCall dev s) (tmRunCall dev' t) := by
  rw [tmRunCall, tmRunCall, tw.env h]
  obtain ⟨k, rfl⟩ := h
  exact run_twin _

theorem parseCall_twin (h : SameButKey s t) :
    SameResult (parseCall dev s) (parseCall dev' t) := by
  rw [parseCall, parseCall, tw.env h]
  obtain ⟨k, rfl⟩ := h
  exact run_twin _

theorem runModel_twin (h : SameButKey s t) :
    SameResult (runModel dev msg s) (runModel dev' msg t) := by
  obtain ⟨hr, h₀⟩ := tmRunCall_twin tw h
  have h₁ : SameButKey (ran dev s) (ran dev' t) := by
    rw [ran, ran, hr]
    exact setMdl_twin h₀ _
  obtain ⟨hc, h₂⟩ := parseCall_twin tw h₁
  rw [runModel_eq, runModel_eq, hr, hc]
  exact guard_twin h₁ ⟨rfl, writeIfRoom_twin h₂ _⟩

theorem classify_twin (h : SameButKey s t) :
    SameResult (classify dev msg s) (classify dev' msg t) := by
  have h₀ : SameButKey (s.setInUint8 imageMat) (t.setInUint8 imageMat) := by
    obtain ⟨k, rfl⟩ := h
    exact ⟨k, rfl⟩
  obtain ⟨hr, h₂⟩ := tmPreprocessCall_twin tw h₀
  have h₁ : SameButKey (afterPreprocess dev (s.setInUint8 imageMat))
      (afterPreprocess dev' (t.setInUint8 imageMat)) := by
    rw [afterPreprocess, afterPreprocess, hr]
    exact setIn_twin h₂ _
  rw [classify_def, classify_def, hr]
  exact guard_twin h₁ (runModel_twin tw h₁)

theorem runInference_twin (h : SameButKey s t) :
    SameResult (runInference dev f msg s) (runInference dev' f msg t) := by
  have h₁ : ∀ got, SameButKey (readImage msg got s) (readImage msg got t) := fun got => by
    obtain ⟨k, rfl⟩ := h
    exact ⟨k, rfl⟩
  have hl : t.gModelLoaded = s.gModelLoaded := by
    obtain ⟨k, rfl⟩ := h
    rfl
  unfold runInference
  dsimp only
  rw [hl]
  refine guard_twin h ?_
  split
  · exact guard_twin (h₁ _) (classify_twin tw (h₁ _))
  · split
    · exact classify_twin tw h
    · exact ⟨rfl, h⟩

/-- **A message**, of any type. -/
theorem handle_twin (h : SameButKey s t) :
    SameButKey (handle dev f msg s) (handle dev' f msg t) := by
  obtain ⟨hr, h₁⟩ := @runInference_twin _ _ f msg dev dev' tw h
  have key : ∀ dev : Device, dev.devMode = false →
      ¬(dev.devMode ∧ msg.type = tinymaixIpcGetModelKey) := fun dev hd hc => by
    rw [hd] at hc
    exact Bool.false_ne_true hc.1
  unfold handle
  rw [if_neg (key dev tw.production.1), if_neg (key dev' tw.production.2)]
  split_ifs
  · exact emit_twin h _
  · exact handleLoad_twin tw h
  · rw [handleRunInference, handleRunInference, hr]
    exact emit_twin h₁ _
  · exact emit_twin h _
  · exact emit_twin h _

theorem serve_twin (h : SameButKey s t) : SameButKey (serve dev f msg s) (serve dev' f msg t) := by
  have h₁ : SameButKey s.fresh t.fresh := by
    obtain ⟨k, rfl⟩ := h
    exact ⟨k, rfl⟩
  unfold serve
  split
  · exact h₁
  · exact handle_twin tw h₁

/-- **The key is a secret.**  Whatever one device does in a run, its twin does over the same messages:
the replies, the data written, the calls and their statuses and the accesses of the engine are the
same, and so is the state but for the key. -/
theorem key_secrecy {h : List (Input × Service)} (r : Reaches dev h s) :
    ∃ h' t, Reaches dev' h' t ∧ SameButKey s t ∧
      List.Forall₂ (fun a b => b.1 = a.1 ∧ SameButKey a.2 b.2) h h' := by
  have follow : ∀ (s t : Service) (i : Input) s', step dev s i = some s' → SameButKey s t →
      ∃ t', step dev' t i = some t' ∧ SameButKey s' t' := by
    intro s t i s' e hst
    have hserve : SameButKey (serve dev i.1 i.2 s) (serve dev' i.1 i.2 t) := serve_twin tw hst
    have hdef : (serve dev' i.1 i.2 t).Defined ↔ (serve dev i.1 i.2 s).Defined := by
      obtain ⟨k, hk⟩ := hserve
      rw [hk]
      exact Iff.rfl
    unfold step at e
    split at e
    · rename_i hd
      obtain rfl := Option.some.inj e
      exact ⟨_, if_pos (hdef.mpr hd), hserve⟩
    · cases e
  obtain ⟨h', t, r', hall, hst⟩ := r.simulate follow (SameButKey.refl boot)
  exact ⟨h', t, r', hst, hall⟩

end Twins

end Same

/-! ### One model on two devices -/

section Provisioned

variable {dev dev' : Device} {m : List Byte} {iv iv' : Cbc.Block 16}

/-- What a package has in front of the IV. -/
theorem headerWord_left {pre rest : List Byte} {off : Nat} (h : off + 4 ≤ pre.length) :
    headerWord (pre ++ rest) off = headerWord pre off := by
  have hoff : 4 ≤ (pre.drop off).length := by
    rw [List.length_drop]
    omega
  rw [headerWord, headerWord, List.drop_append_of_le_length (by omega),
    List.take_append_of_le_length hoff]

/-- **What the tool makes of one model** for two devices. -/
theorem twins_packages (hdev : dev.devMode = false ∧ dev'.devMode = false)
    (ha : dev'.mainAddr = dev.mainAddr) (hf : dev'.fl = dev.fl)
    (hp : dev.package = packageBytes dev.aes m (deviceKey dev) iv)
    (hp' : dev'.package = packageBytes dev'.aes m (deviceKey dev') iv') : Twins dev dev' := by
  have h12 : (leBytes 4 encryptedHeaderMagic ++ leBytes 4 3 ++ leBytes 4 m.length).length = 12 := by
    simp
  have front : ∀ (aes : Cipher) (key iv : Cbc.Block 16) (off : Nat), off ∈ [0, 4, 8] →
      headerWord (packageBytes aes m key iv) off = headerWord
        (leBytes 4 encryptedHeaderMagic ++ leBytes 4 3 ++ leBytes 4 m.length) off := by
    intro aes key iv off hoff
    have hle : off + 4 ≤ 12 := (by decide : ∀ off ∈ [0, 4, 8], off + 4 ≤ 12) off hoff
    rw [packageBytes_eq, encode, List.append_assoc _ (List.ofFn iv)]
    exact headerWord_left (h12 ▸ hle)
  refine ⟨hdev, ha, hf, ?_, fun off hoff => ?_, ?_⟩
  · rw [hp, hp', length_packageBytes, length_packageBytes]
  · rw [hp, hp', front _ _ _ _ hoff, front _ _ _ _ hoff]
  · rw [hp, hp', plaintext_packageBytes, plaintext_packageBytes]

theorem involutive_xorKey (key : Cbc.Block 16) :
    Function.Involutive fun b => Cbc.xorBlock b key := fun b => Cbc.xorBlock_xorBlock b key

/-- A cipher that adds the key to a block. -/
def addKey (key : Cbc.Block 16) : Equiv.Perm (Cbc.Block 16) := (involutive_xorKey key).toPerm

/-- A production device with the hardware key `n`, which derives 16 times `n` from it. -/
def smallDevice (n : Byte) (iv : Cbc.Block 16) : Device where
  devMode := false
  huk := [n]
  hkdf := fun huk _ _ _ => huk.getD 0 0
  aes := addKey
  package := packageBytes addKey reshapeModel (fun _ => n) iv
  mainAddr := 0
  fl := ieee754

/-- A `LOAD` on two of them. -/
theorem key_secrecy_small :
    ∃ s, step (smallDevice 1 fun _ => 7) boot loadRequest = some s ∧
      ∃ h' t, Reaches (smallDevice 2 fun _ => 9) h' t ∧ SameButKey s t ∧
        List.Forall₂ (fun a b => b.1 = a.1 ∧ SameButKey a.2 b.2) [(loadRequest, s)] h' := by
  have hstep : (step (smallDevice 1 fun _ => 7) boot loadRequest).isSome = true := by
    decide +kernel
  obtain ⟨s, hs⟩ := Option.isSome_iff_exists.mp hstep
  have tw : Twins (smallDevice 1 fun _ => 7) (smallDevice 2 fun _ => 9) :=
    twins_packages ⟨rfl, rfl⟩ rfl rfl rfl rfl
  exact ⟨s, hs, key_secrecy tw (.more hs (.refl _))⟩

end Provisioned

end Partition
