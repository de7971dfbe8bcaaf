import Pico2wTfm.Partition.Service
import Pico2wTfm.TinyMaix.Extents

/-!
# Partition — Rounds

What the handlers do, one specification for each.

`Gate` is the part of the state that a loaded model consists of.  Only a `LOAD` changes it
(`handle_gate`), and a `LOAD` succeeds exactly when the built-in package decrypts and `tm_load`
accepts the header of what comes out (`loadModel_success`).
-/

namespace Partition
open Bytes Footprint TinyMaix

/-- The loaded model: the flag, the plaintext, and the engine's view of it as each inference
starts on it. -/
structure Gate where
  loaded : Bool
  model : Int → Byte
  size : Nat
  mdl : TmMdl
  input : TmMat

def Service.gate (s : Service) : Gate :=
  ⟨s.gModelLoaded, s.gDecryptedModel, s.gDecryptedSize, firstLayer s.gMdl, s.gIn⟩

/-- The view of the engine on a model that was loaded. -/
def loadedMdl : TmMdl :=
  ⟨gDecryptedModelPtr, true, staticMainBuf, .null, 0, 0, gDecryptedModelPtr.add 64⟩

/-- The input tensor of the model. -/
def inputMat (e : Env) : TmMat := e.matAt (gDecryptedModelPtr.add 20) staticMainBuf

variable {dev : Device} {f : Outcome} {msg : Msg} {s : Service}

/-! ### Loading -/

theorem psaErrorInsufficientMemory_ne : psaErrorInsufficientMemory ≠ psaSuccess := by decide

/-- The decryption of a `LOAD`. -/
def loadPackage (dev : Device) (f : Outcome) (s : Service) : Int × Service :=
  if tfmTinymaixMaxModelSize < dev.package.length then (psaErrorInsufficientMemory, s)
  else decryptModel dev f dev.package s

theorem loadPackage_success : (loadPackage dev f s).1 = psaSuccess ↔
    dev.package.length ≤ tfmTinymaixMaxModelSize ∧
      (decryptModel dev f dev.package s).1 = psaSuccess := by
  rw [loadPackage, guard_success fun _ => psaErrorInsufficientMemory_ne, not_lt]

theorem loadPackage_state (h : (loadPackage dev f s).1 = psaSuccess) :
    loadPackage dev f s = decryptModel dev f dev.package s :=
  guard_state (fun _ => psaErrorInsufficientMemory_ne) h

/-- The call of `tm_load`. -/
def tmLoadCall (dev : Device) (s : Service) : (TmErr × TmMdl × TmMat) × Service :=
  s.run (tmLoad (s.env dev) s.gMdl gDecryptedModelPtr staticMainBuf true s.gIn)

theorem tmLoadCall_spec :
    (tmLoadCall dev s).1 =
        loadResult (s.env dev) s.gMdl gDecryptedModelPtr staticMainBuf true s.gIn ∧
      (tmLoadCall dev s).2.eng.mem = s.eng.mem := (tmLoad_reads rfl).spec s.eng

/-- The tensors as `tm_load` sets them. -/
def loaded (dev : Device) (s : Service) : Service :=
  ((tmLoadCall dev s).2.setMdl (tmLoadCall dev s).1.2.1).setIn (tmLoadCall dev s).1.2.2

theorem loadModel_eq : loadModel dev f s =
    if (loadPackage dev f s).1 = psaSuccess then
      if (tmLoadCall dev (loadPackage dev f s).2).1.1 ≠ .ok then
        (psaErrorGenericError, (loaded dev (loadPackage dev f s).2).setLoaded false)
      else (psaSuccess, (loaded dev (loadPackage dev f s).2).setLoaded true)
    else ((loadPackage dev f s).1, (loadPackage dev f s).2.setLoaded false) := rfl

theorem staticMainBuf_ne : staticMainBuf ≠ .null := by decide

theorem tmLoadCall_ok : (tmLoadCall dev s).1.1 = .ok ↔ (s.env dev).Loads gDecryptedModelPtr := by
  rw [tmLoadCall_spec.1, loadResult_ok staticMainBuf_ne]

/-- **When a `LOAD` succeeds.** -/
theorem loadModel_success : (loadModel dev f s).1 = psaSuccess ↔
    (loadPackage dev f s).1 = psaSuccess ∧
      ((loadPackage dev f s).2.env dev).Loads gDecryptedModelPtr := by
  rw [loadModel_eq]
  by_cases hp : (loadPackage dev f s).1 = psaSuccess
  · rw [if_pos hp, guard_success fun _ => psaErrorGenericError_ne, not_not, tmLoadCall_ok]
    exact ⟨fun h => ⟨hp, h.1⟩, fun h => ⟨h.2, rfl⟩⟩
  · rw [if_neg hp]
    exact ⟨fun h => absurd h hp, fun h => absurd h.1 hp⟩

/-- A failed `LOAD` leaves no model loaded. -/
theorem loadModel_fails (h : (loadModel dev f s).1 ≠ psaSuccess) :
    (loadModel dev f s).2.gModelLoaded = false := by
  rw [loadModel_eq] at h ⊢
  split_ifs at h ⊢ with hp ht
  · rfl
  · exact absurd rfl h
  · rfl

theorem loadModel_state (h : (loadModel dev f s).1 = psaSuccess) :
    (loadModel dev f s).2 = (loaded dev (loadPackage dev f s).2).setLoaded true := by
  obtain ⟨hp, hl⟩ := loadModel_success.mp h
  rw [loadModel_eq, if_pos hp, if_neg (not_not.mpr (tmLoadCall_ok.mpr hl))]

/-- **What a `LOAD` sets up.** -/
theorem loadModel_gate (h : (loadModel dev f s).1 = psaSuccess) :
    (loadModel dev f s).2.gate = ⟨true, (loadPackage dev f s).2.gDecryptedModel,
      (loadPackage dev f s).2.gDecryptedSize, loadedMdl,
      inputMat ((loadPackage dev f s).2.env dev)⟩ := by
  obtain ⟨-, hl⟩ := loadModel_success.mp h
  have ht := tmLoadCall_spec.1.trans (loadResult_eq staticMainBuf_ne hl)
  rw [loadModel_state h]
  simp only [Service.gate, loaded, Service.setLoaded, Service.setIn, Service.setMdl, ht]
  rfl

/-! ### Requests -/

theorem writeIfRoom_gate {data : List Byte} : (s.writeIfRoom msg data).gate = s.gate := by
  unfold Service.writeIfRoom
  split <;> rfl

/-- The call of `tm_preprocess`. -/
def tmPreprocessCall (dev : Device) (s : Service) : (TmErr × TmMat) × Service :=
  s.run (tmPreprocess (s.env dev) s.gMdl .uint2int s.gInUint8 s.gIn)

theorem run_gate {α : Type} {c : Eng α} : (s.run c).2.gate = s.gate := rfl

/-- Preprocessing an image always succeeds, and moves no pointer. -/
theorem tmPreprocessCall_spec (hb : s.gMdl.b.region = .model) :
    (tmPreprocessCall dev s).1 = (.ok, s.gIn) := by
  have runs := @tmPreprocess_runs (s.env dev) s.gMdl s.gInUint8 s.gIn (fun _ _ => True) hb
    fun _ _ _ _ => trivial
  rw [tmPreprocessCall, Service.run_fst]
  exact (runs s.eng trivial).1.1

/-- The call of `tm_run`, and the model after it. -/
def tmRunCall (dev : Device) (s : Service) : (TmErr × TmMdl) × Service :=
  s.run (tmRun (s.env dev) s.gMdl s.gIn)

def ran (dev : Device) (s : Service) : Service := (tmRunCall dev s).2.setMdl (tmRunCall dev s).1.2

theorem tmRunCall_spec (hb : s.gMdl.b.region = .model) :
    (tmRunCall dev s).1 =
      runResult (s.env dev) (layerCnt (s.env dev) s.gMdl) (firstLayer s.gMdl) :=
  (tmRun_runs hb s.eng trivial).1

theorem ran_gate (hb : s.gMdl.b.region = .model) : (ran dev s).gate = s.gate := by
  have hk := firstLayer_runResult (s.env dev) (layerCnt (s.env dev) s.gMdl) (firstLayer s.gMdl)
  simp only [Service.gate, ran, Service.setMdl, tmRunCall_spec hb, hk]
  rfl

/-- The call of `parse_output`. -/
def parseCall (dev : Device) (s : Service) : Int × Service := s.run (parseOutput (s.env dev))

theorem runModel_eq : runModel dev msg s =
    if (tmRunCall dev s).1.1 ≠ .ok then (psaErrorGenericError, ran dev s)
    else (psaSuccess, (parseCall dev (ran dev s)).2.writeIfRoom msg
      (leBytes 4 (BitVec.ofInt 32 (parseCall dev (ran dev s)).1).toNat)) := rfl

theorem runModel_gate (hb : s.gMdl.b.region = .model) :
    (runModel dev msg s).2.gate = s.gate := by
  rw [runModel_eq]
  split
  · exact ran_gate hb
  · rw [writeIfRoom_gate, parseCall, run_gate, ran_gate hb]

theorem setIn_gIn (s : Service) : s.setIn s.gIn = s := rfl

/-- The service before `tm_run` is called. -/
def preprocessed (dev : Device) (s : Service) : Service :=
  (tmPreprocessCall dev (s.setInUint8 imageMat)).2

/-- The state with the tensor as `tm_preprocess` left it. -/
def afterPreprocess (dev : Device) (s : Service) : Service :=
  (tmPreprocessCall dev s).2.setIn (tmPreprocessCall dev s).1.2

theorem classify_def : classify dev msg s =
    if (tmPreprocessCall dev (s.setInUint8 imageMat)).1.1 ≠ .ok then
      (psaErrorGenericError, afterPreprocess dev (s.setInUint8 imageMat))
    else runModel dev msg (afterPreprocess dev (s.setInUint8 imageMat)) := rfl

theorem afterPreprocess_eq (hb : s.gMdl.b.region = .model) :
    afterPreprocess dev s = (tmPreprocessCall dev s).2 := by
  rw [afterPreprocess, tmPreprocessCall_spec hb]
  exact setIn_gIn (tmPreprocessCall dev s).2

theorem classify_eq (hb : s.gMdl.b.region = .model) :
    classify dev msg s = runModel dev msg (preprocessed dev s) := by
  have hb' : (s.setInUint8 imageMat).gMdl.b.region = .model := hb
  rw [classify_def, afterPreprocess_eq hb', tmPreprocessCall_spec hb', if_neg (not_not.mpr rfl),
    preprocessed]

theorem preprocessed_gate : (preprocessed dev s).gate = s.gate := by
  rw [preprocessed, tmPreprocessCall, run_gate]
  rfl

theorem classify_gate (hb : s.gMdl.b.region = .model) :
    (classify dev msg s).2.gate = s.gate := by
  have hb' : (preprocessed dev s).gMdl.b.region = .model := by
    rw [show (preprocessed dev s).gMdl.b = s.gMdl.b from
      congrArg (fun g : Gate => g.mdl.b) preprocessed_gate, hb]
  rw [classify_eq hb, runModel_gate hb', preprocessed_gate]

theorem runInference_gate (hb : s.gModelLoaded = true → s.gMdl.b.region = .model) :
    (runInference dev f msg s).2.gate = s.gate := by
  unfold runInference
  split_ifs with h
  · rfl
  · dsimp only
    split_ifs
    · rfl
    · exact classify_gate (s := readImage msg _ s) (hb (by simpa using h))
  · exact classify_gate (hb (by simpa using h))
  · rfl

theorem handleGetModelKey_gate : (handleGetModelKey dev f msg s).gate = s.gate := by
  have key : (deriveKeyFromHuk dev f getModelKeyHukLabel (fun _ => 0) s).2.2.gate = s.gate :=
    deriveKeyFromHuk_keeps (p := fun t => t.gate = s.gate) (fun _ _ _ h => h) rfl
  unfold handleGetModelKey
  split_ifs
  · rfl
  · dsimp only
    split_ifs
    · exact key
    · exact key

/-- **Only a `LOAD` changes the gate.** -/
theorem handle_gate (hb : s.gModelLoaded = true → s.gMdl.b.region = .model)
    (h : msg.type ≠ tinymaixIpcLoadEncryptedModel) : (handle dev f msg s).gate = s.gate := by
  unfold handle
  rw [if_neg h]
  split_ifs
  · rfl
  · exact runInference_gate hb
  · exact handleGetModelKey_gate
  · rfl
  · rfl

/-! ### Inferences -/

/-- A request for an inference whose image arrives, or that brings none. -/
structure Delivered (f : Outcome) (msg : Msg) : Prop where
  get : f.get = psaSuccess
  type : msg.type = tinymaixIpcRunInference
  image : msg.inSize = 28 * 28 ∧ 28 * 28 ≤ f.readLen ∨ msg.inSize = 0

/-- The service once the image of a request, if there is one, is in `mnist_pic`. -/
def received (f : Outcome) (msg : Msg) (s : Service) : Service :=
  if msg.inSize = 28 * 28 then readImage msg (min f.readLen msg.inSize) s else s

/-- The image of a delivered request is classified. -/
theorem serve_delivered (hl : s.gModelLoaded = true) (hd : Delivered f msg) :
    serve dev f msg s = (classify dev msg (received f msg s.fresh)).2.reply msg
      (classify dev msg (received f msg s.fresh)).1 := by
  have hinf : runInference dev f msg s.fresh = classify dev msg (received f msg s.fresh) := by
    have hl' : ¬s.fresh.gModelLoaded = false := ne_of_eq_of_ne hl (by decide)
    unfold runInference received
    rw [if_neg hl']
    rcases hd.image with ⟨hn, hr⟩ | h0
    · have hgot : min f.readLen msg.inSize = msg.inSize := by omega
      rw [if_pos hn, if_pos hn]
      exact if_neg (not_not.mpr hgot)
    · have hn : ¬msg.inSize = 28 * 28 := by omega
      rw [if_neg hn, if_neg hn, if_pos h0]
  rw [serve, if_neg (not_not.mpr hd.get), handle, hd.type, if_neg (by decide), if_neg (by decide),
    if_pos rfl, handleRunInference, hinf]

/-- The service after `tm_preprocess` and `tm_run` for a request. -/
def inferred (dev : Device) (f : Outcome) (msg : Msg) (s : Service) : Service :=
  (tmRunCall dev (preprocessed dev (received f msg s.fresh))).2

/-- The stretches that `tm_preprocess` and `tm_run` touch for a request. -/
def requestStretches (e : Env) : List (Stretch Region) :=
  preprocessStretches loadedMdl imageMat (inputMat e) ++ field gDecryptedModelPtr 10 2 ::
    runStretches e (layerCnt e loadedMdl) loadedMdl (inputMat e) 0

theorem requestStretches_pic {e e' : Env} (hm : e.model = e'.model)
    (ha : e.mainAddr = e'.mainAddr) : requestStretches e = requestStretches e' := by
  rw [requestStretches, requestStretches, runStretches_pic hm ha, show inputMat e = inputMat e' from
    matAt_pic hm _ _, layerCnt, layerCnt, Env.word, Env.word, hm]

/-- **The footprint of a request** is a function of the model. -/
theorem mem_inferred_log (hmdl : firstLayer s.gMdl = loadedMdl)
    (hin : s.gIn = inputMat (s.env dev)) (a : Access Cell) :
    a ∈ (inferred dev f msg s).eng.log ↔ a ∈ cover (requestStretches (s.env dev)) := by
  have hb : s.gMdl.b = gDecryptedModelPtr := congrArg (fun m : TmMdl => m.b) hmdl
  have hr : s.gMdl.b.region = .model := by rw [hb]; rfl
  -- the service as `tm_preprocess` finds it
  obtain ⟨t, ht⟩ : ∃ t, t = (received f msg s.fresh).setInUint8 imageMat := ⟨_, rfl⟩
  have hs : t.gMdl = s.gMdl ∧ t.gIn = s.gIn ∧ t.gDecryptedModel = s.gDecryptedModel ∧
      t.eng.log = [] ∧ t.gInUint8 = imageMat := by
    rw [ht, received]
    split <;> exact ⟨rfl, rfl, rfl, rfl, rfl⟩
  obtain ⟨h₁, h₂, h₃, h₄, h₅⟩ := hs
  have pre := @tmPreprocess_runs (t.env dev) t.gMdl t.gInUint8 t.gIn (fun _ _ => True)
    (h₁ ▸ hr) fun _ _ _ _ => trivial
  have hpre := (pre t.eng trivial).2.mem_log a
  -- the service as `tm_run` finds it
  obtain ⟨u, hu⟩ : ∃ u, u = preprocessed dev (received f msg s.fresh) := ⟨_, rfl⟩
  have hu' : u = (t.run (tmPreprocess (t.env dev) t.gMdl .uint2int t.gInUint8 t.gIn)).2 := by
    rw [hu, preprocessed, ← ht, tmPreprocessCall]
  have k₁ : u.gMdl = s.gMdl := by rw [hu', Service.run_gMdl, h₁]
  have k₂ : u.gIn = s.gIn := by rw [hu', Service.run_gIn, h₂]
  have k₃ : (u.env dev).model = (s.env dev).model := by
    rw [hu']
    exact h₃
  have run := @tmRun_runs (u.env dev) u.gMdl u.gIn (k₁ ▸ hr)
  have hrun := (run u.eng trivial).2.mem_log a
  have hcnt : layerCnt (u.env dev) u.gMdl = layerCnt (s.env dev) loadedMdl := by
    rw [layerCnt, layerCnt, Env.word, Env.word, k₃, k₁, hb]
    rfl
  have hpres : preprocessStretches t.gMdl t.gInUint8 t.gIn =
      preprocessStretches loadedMdl imageMat (inputMat (s.env dev)) := by
    rw [h₁, h₅, h₂, hin, preprocessStretches, hb]
    rfl
  rw [inferred, ← hu, tmRunCall, Service.run_eng, hrun, hcnt, k₁, k₂, hmdl, hin, hb,
    runStretches_pic k₃ rfl, hu', Service.run_eng, hpre, h₄, hpres, requestStretches, cover_append,
    Set.mem_union, or_comm]
  simp only [List.not_mem_nil, or_false]

/-! ### Replies -/

theorem replyStatus_reply (h : replyStatus s.trace = none) {st : Int} :
    replyStatus (s.reply msg st).trace = some st := by
  rw [replyStatus] at h ⊢
  rw [show (s.reply msg st).trace = s.trace ++ [.reply msg.handle st] from rfl,
    List.findSome?_append, h]
  rfl

theorem replyStatus_emit {ev : Event} (he : ∀ hd st, ev ≠ .reply hd st) :
    replyStatus (s.emit ev).trace = replyStatus s.trace := by
  rw [replyStatus, show (s.emit ev).trace = s.trace ++ [ev] from rfl, List.findSome?_append]
  cases ev with
  | reply hd st => exact absurd rfl (he hd st)
  | _ => simp [replyStatus]

theorem loadModel_trace : replyStatus (loadModel dev f s).2.trace = replyStatus s.trace := by
  have key : replyStatus (loadPackage dev f s).2.trace = replyStatus s.trace := by
    have keeps : replyStatus (decryptModel dev f dev.package s).2.trace = replyStatus s.trace :=
      decryptModel_keeps (p := fun t => replyStatus t.trace = replyStatus s.trace)
        (fun _ _ _ h => (replyStatus_emit fun _ _ => Event.noConfusion).trans h)
        (fun _ _ _ h => h) (fun _ _ h => h) (fun _ _ h => h) rfl
    exact guard_keeps (p := fun t : Service => replyStatus t.trace = replyStatus s.trace) rfl keeps
  rw [loadModel_eq]
  split_ifs <;> exact key

/-- A `LOAD` replies with what became of it. -/
theorem handleLoad_reply (h : replyStatus s.trace = none) :
    replyStatus (handleLoad dev f msg s).trace = some (loadModel dev f s).1 := by
  refine replyStatus_reply ?_
  have key := (@loadModel_trace dev f s).trans h
  split
  · unfold Service.writeIfRoom
    split
    · exact (replyStatus_emit fun _ _ => Event.noConfusion).trans key
    · exact key
  · exact key

theorem handleLoad_gate : (handleLoad dev f msg s).gate = (loadModel dev f s).2.gate := by
  unfold handleLoad
  dsimp only
  split_ifs
  · exact writeIfRoom_gate
  · rfl

theorem handleLoad_eng : (handleLoad dev f msg s).eng = (loadModel dev f s).2.eng := by
  unfold handleLoad
  dsimp only
  split_ifs
  · unfold Service.writeIfRoom
    split <;> rfl
  · rfl

/-- **The footprint of a `LOAD`** that succeeds. -/
theorem mem_loadModel_log (h : (loadModel dev f s).1 = psaSuccess) (a : Access Cell) :
    a ∈ (loadModel dev f s).2.eng.log ↔
      a ∈ cover (loadStretches ((loadModel dev f s).2.env dev) gDecryptedModelPtr staticMainBuf) ∨
        a ∈ s.eng.log := by
  obtain ⟨hp, -⟩ := loadModel_success.mp h
  obtain ⟨p, hp'⟩ : ∃ p, p = (loadPackage dev f s).2 := ⟨_, rfl⟩
  have heng : p.eng = s.eng := by
    rw [hp', loadPackage_state hp]
    exact decryptModel_frame.eng
  have hm : (p.env dev).model = ((loadModel dev f s).2.env dev).model := by
    rw [hp']
    exact (congrArg Gate.model (loadModel_gate h)).symm
  have run := @tmLoad_reads (p.env dev) p.gMdl gDecryptedModelPtr staticMainBuf true p.gIn rfl
  have hlog := (run (fun _ => True) p.eng trivial).2.mem_log a
  rw [loadModel_state h, ← hp', show ((loaded dev p).setLoaded true).eng = (tmLoadCall dev p).2.eng
    from rfl, tmLoadCall, Service.run_eng, hlog, heng, loadStretches_pic hm, loadModel_state h, hp']

end Partition
