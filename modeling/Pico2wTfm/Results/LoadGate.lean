import Pico2wTfm.Partition.Package
import Pico2wTfm.Partition.Rounds
import Pico2wTfm.Results.Provisioning

/-!
# Results — LoadGate

`g_model_loaded` gates every inference.  A `LOAD` writes the plaintext, its size and half of
`g_mdl` before it knows how it ends, and may fail after an earlier `LOAD` succeeded; what the gate
promises is therefore about the last `LOAD` of a history (`lastLoad`), whatever came before it and
whatever the requests after it did.

* `load_gate`: the gate is open exactly when the last `LOAD` succeeded; while it is open, the
  plaintext is that of the built-in package and the engine points at it; while it is closed, an
  inference does nothing but reply.
-/

namespace Partition
open Bytes Footprint TinyMaix

/-- The round handles a `LOAD`. -/
def IsLoad (i : Input) : Prop :=
  i.1.get = psaSuccess ∧ i.2.type = tinymaixIpcLoadEncryptedModel

instance (i : Input) : Decidable (IsLoad i) := inferInstanceAs (Decidable (_ ∧ _))

/-- The reply to the last `LOAD` of a history. -/
def lastLoad (h : List (Input × Service)) : Option Int :=
  (h.filter fun a => IsLoad a.1).getLast?.bind fun a => replyStatus a.2.trace

/-- What an open gate promises. -/
structure GateHolds (dev : Device) (s : Service) : Prop where
  plain : Pkcs7.unpad 16 (Cbc.decryptBytes (dev.aes (deviceKey dev)) (headerIv dev.package)
    (ciphertext dev.package)) = some (window s.gDecryptedModel 0 s.gDecryptedSize)
  size : s.gDecryptedSize = headerWord dev.package 8
  b : s.gMdl.b = gDecryptedModelPtr
  magic : window s.gDecryptedModel 0 4 = [0x4D, 0x41, 0x49, 0x58]
  mdlType : (s.gDecryptedModel 4).toNat = tmMdlType
  buf : s.gMdl.buf = staticMainBuf
  input : s.gIn.data = staticMainBuf
  /-- No inference has moved the engine away from the model. -/
  ready : firstLayer s.gMdl = loadedMdl ∧ s.gIn = inputMat (s.env dev)

/-- The gate is in step with the history. -/
def InStep (dev : Device) (h : List (Input × Service)) (s : Service) : Prop :=
  (s.gModelLoaded = true ↔ lastLoad h = some psaSuccess) ∧
    (s.gModelLoaded = true → GateHolds dev s)

section History

variable {dev : Device} {h : List (Input × Service)} {s s' : Service} {i : Input}

theorem lastLoad_skip (hi : ¬IsLoad i) : lastLoad (h ++ [(i, s)]) = lastLoad h := by
  rw [lastLoad, List.filter_append]
  simp only [List.filter_cons, hi, decide_false, Bool.false_eq_true, if_false, List.filter_nil,
    List.append_nil, lastLoad]

theorem lastLoad_load (hi : IsLoad i) : lastLoad (h ++ [(i, s)]) = replyStatus s.trace := by
  rw [lastLoad, List.filter_append]
  simp only [List.filter_cons, hi, decide_true, if_true, List.filter_nil, List.getLast?_concat,
    Option.bind_some]

/-- The promise is about the gate. -/
theorem GateHolds.congr (hg : s'.gate = s.gate) (H : GateHolds dev s) : GateHolds dev s' := by
  obtain ⟨-, hm, hn, hmdl, hin⟩ := Gate.mk.inj hg
  obtain ⟨h₁, h₂, h₃, h₄, h₅, h₆, h₇, h₈, h₉⟩ := H
  have hb := congrArg TmMdl.b hmdl
  have hbuf := congrArg TmMdl.buf hmdl
  refine ⟨?_, ?_, hb.trans h₃, ?_, ?_, hbuf.trans h₆, ?_, hmdl.trans h₈, ?_⟩
  · rwa [hm, hn]
  · rwa [hn]
  · rwa [hm]
  · rwa [hm]
  · rwa [hin]
  · rw [hin, h₉]
    exact matAt_pic hm.symm _ _

/-- A `LOAD` that succeeds keeps the promise. -/
theorem GateHolds.of_load {f : Outcome} (hs : (loadModel dev f s).1 = psaSuccess) :
    GateHolds dev (loadModel dev f s).2 := by
  obtain ⟨hp, hl⟩ := loadModel_success.mp hs
  have hd := (loadPackage_success.mp hp).2
  obtain ⟨hf, d, ho⟩ := decryptModel_success_iff.mp hd
  have hopen := (decryptModel_opens (s := s) hf ho).2
  have hsize := (decryptModel_success hd).size
  rw [loadPackage_state hp] at hl
  obtain ⟨-, hm, hn, hmdl, hin⟩ := Gate.mk.inj (loadModel_gate hs)
  rw [loadPackage_state hp] at hm hn
  have hmagic : leValue (window (decryptModel dev f dev.package s).2.gDecryptedModel 0 4) =
      tmMdlMagic := hl.magic
  have htype : leValue (window (decryptModel dev f dev.package s).2.gDecryptedModel 4 1) =
      tmMdlType := hl.mdlType
  have hb := congrArg TmMdl.b hmdl
  have hbuf := congrArg TmMdl.buf hmdl
  refine ⟨?_, hn.trans hsize, hb, ?_, ?_, hbuf, congrArg TmMat.data hin, hmdl, ?_⟩
  · rw [hm, hn, hopen.1, hopen.2]
    exact ho.padded
  · rw [hm]
    exact leValue_inj (length_window _ _ _) hmagic
  · rw [hm]
    simpa [window_succ, leValue, window] using htype
  · rw [hin]
    refine matAt_pic ?_ _ _
    rw [loadPackage_state hp]
    exact hm.symm

/-- One round keeps the gate in step with the history. -/
theorem InStep.serve (H : InStep dev h s) (hs : s' = serve dev i.1 i.2 s) :
    InStep dev (h ++ [(i, s')]) s' := by
  obtain ⟨hi, hg⟩ := H
  have hb : s.fresh.gModelLoaded = true → s.fresh.gMdl.b.region = .model := fun hl => by
    rw [show s.fresh.gMdl.b = s.gMdl.b from rfl, (hg hl).b]
    rfl
  -- a round that handles no `LOAD` leaves the gate and the last `LOAD` as they were
  have skip : ¬IsLoad i → s'.gate = s.gate → InStep dev (h ++ [(i, s')]) s' := fun hn he => by
    have hl : s'.gModelLoaded = s.gModelLoaded := congrArg Gate.loaded he
    rw [InStep, lastLoad_skip hn, hl]
    exact ⟨hi, fun h => (hg h).congr he⟩
  by_cases hget : i.1.get = psaSuccess
  · have hs' : s' = handle dev i.1 i.2 s.fresh := hs.trans (if_neg (not_not.mpr hget))
    by_cases ht : i.2.type = tinymaixIpcLoadEncryptedModel
    · have hh : s' = handleLoad dev i.1 i.2 s.fresh := by
        rw [hs', handle, ht, if_neg (by decide), if_pos rfl]
      have hgate : s'.gate = (loadModel dev i.1 s.fresh).2.gate := hh ▸ handleLoad_gate
      have hl : s'.gModelLoaded = (loadModel dev i.1 s.fresh).2.gModelLoaded :=
        congrArg Gate.loaded hgate
      rw [InStep, lastLoad_load ⟨hget, ht⟩, hl, show replyStatus s'.trace = _ from
        hh ▸ handleLoad_reply rfl]
      by_cases hok : (loadModel dev i.1 s.fresh).1 = psaSuccess
      · have ho : (loadModel dev i.1 s.fresh).2.gModelLoaded = true :=
          congrArg Gate.loaded (loadModel_gate hok)
        exact ⟨by simp [ho, hok], fun _ => (GateHolds.of_load hok).congr hgate⟩
      · rw [loadModel_fails hok]
        exact ⟨by simp [hok], fun h => absurd h Bool.false_ne_true⟩
    · exact skip (fun hl => ht hl.2) (hs' ▸ handle_gate hb ht)
  · have hs' : s' = s.fresh := hs.trans (if_pos hget)
    exact skip (fun hl => hget hl.1) (hs' ▸ rfl)

/-- Every run keeps the gate in step. -/
theorem Serves.inStep (r : Serves dev h s) : InStep dev h s := by
  have start : InStep dev [] boot :=
    ⟨⟨fun h => absurd h Bool.false_ne_true, fun h => by cases h⟩,
      fun h => absurd h Bool.false_ne_true⟩
  have key : InStep dev ([] ++ h) s :=
    r.history (fun h s i s' e J => J.serve (Option.some.inj e).symm) start
  rwa [List.nil_append] at key

/-- An inference while no model is loaded. -/
theorem serve_badState {f : Outcome} {msg : Msg} (hl : s.gModelLoaded = false)
    (hget : f.get = psaSuccess) (ht : msg.type = tinymaixIpcRunInference) :
    serve dev f msg s = s.fresh.reply msg psaErrorBadState := by
  rw [serve, if_neg (not_not.mpr hget), handle, ht, if_neg (by decide), if_neg (by decide),
    if_pos rfl, handleRunInference, runInference, if_pos (show s.fresh.gModelLoaded = false from hl)]

end History

/-- **The load gate.** -/
theorem load_gate {dev : Device} {h : List (Input × Service)} {s : Service}
    (r : Serves dev h s) :
    (s.gModelLoaded = true ↔ lastLoad h = some psaSuccess) ∧
      (s.gModelLoaded = true → GateHolds dev s) ∧
      (s.gModelLoaded = false → ∀ f msg, f.get = psaSuccess →
        msg.type = tinymaixIpcRunInference →
        (serve dev f msg s).trace = [.reply msg.handle psaErrorBadState] ∧
          (serve dev f msg s).eng.log = [] ∧ (serve dev f msg s).fresh = s.fresh) := by
  refine ⟨r.inStep.1, r.inStep.2, fun hl f msg hget ht => ?_⟩
  rw [serve_badState hl hget ht]
  exact ⟨rfl, rfl, rfl⟩

/-! ### A small model -/

/-- A device with a model built in, under the zero key. -/
def deviceWith (m : List Byte) : Device :=
  bareDevice (Encryptor.packageBytes (fun _ => Equiv.refl _) m (fun _ => 0) fun _ => 0)

def loadRequest : Input := (.success, ⟨tinymaixIpcLoadEncryptedModel, 0, [], 4⟩)

/-- A request for an inference; the read gets `n` bytes of the image. -/
def inferenceRequest (n : Nat) (img : List Byte) : Input :=
  ({ Outcome.success with readLen := n }, ⟨tinymaixIpcRunInference, 0, img, 4⟩)

/-- The gate of that device opens. -/
theorem load_gate_reshape :
    let s := serve (deviceWith reshapeModel) loadRequest.1 loadRequest.2 boot
    s.gModelLoaded = true ∧ GateHolds (deviceWith reshapeModel) s := by
  have hl : (serve (deviceWith reshapeModel) loadRequest.1 loadRequest.2 boot).gModelLoaded =
      true := by decide +kernel
  exact ⟨hl, (load_gate (.more rfl (.refl _))).2.1 hl⟩

end Partition
