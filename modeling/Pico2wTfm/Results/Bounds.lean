import Pico2wTfm.Results.LoadGate

/-!
# Results — Bounds

What an accepted model makes the engine touch.  `tm_load` checks the magic, the type and the second
buffer of a model; it is told neither the length of the main buffer nor that of the model, so
nothing on the load path compares the offsets of the layers with either.  The engine touches what
the model says (`mem_inferred_log`), and stays inside exactly when the model says so:

* `main_buffer_safe_iff`: inside `static_main_buf`;
* `model_reads_safe_iff`: inside the decrypted model.

The second is about a `LOAD` and a later inference; in between anything but a `LOAD` may happen.
-/

namespace Partition
open Bytes Footprint TinyMaix

section Gate

variable {dev : Device} {s t : Service} {i : Input} {k : List (Input × Service)}

theorem serve_load (hi : IsLoad i) : serve dev i.1 i.2 s = handleLoad dev i.1 i.2 s.fresh := by
  rw [serve, if_neg (not_not.mpr hi.1), handle, hi.2, if_neg (by decide), if_pos rfl]

/-- A `LOAD` that is answered with success has loaded the model. -/
theorem loadModel_of_reply (hi : IsLoad i)
    (hok : replyStatus (serve dev i.1 i.2 s).trace = some psaSuccess) :
    (loadModel dev i.1 s.fresh).1 = psaSuccess := by
  rw [serve_load hi, handleLoad_reply rfl] at hok
  exact Option.some.inj hok

/-- The gate stays as it is until the next `LOAD`. -/
theorem gate_of_noLoad (hs : GateHolds dev s)
    (r : Run.Steps (serveStep dev) s k t)
    (hk : ∀ a ∈ k, ¬IsLoad a.1) : t.gate = s.gate := by
  refine r.invariant_on (I := fun t => t.gate = s.gate) (p := fun i => ¬IsLoad i)
    (fun u i u' e hi hu => ?_) hk rfl
  obtain rfl := Option.some.inj e
  rw [serve]
  split_ifs with hget
  · exact hu
  · have hb : u.fresh.gModelLoaded = true → u.fresh.gMdl.b.region = .model := fun _ => by
      rw [show u.fresh.gMdl.b = s.gMdl.b from congrArg (fun g : Gate => g.mdl.b) hu, hs.b]
      rfl
    rw [handle_gate hb fun ht => hi ⟨not_not.mp hget, ht⟩]
    exact hu

end Gate

/-! ### The main buffer -/

/-- **The main buffer is safe** for a loaded model exactly when the header and the layers of the
model describe stretches of it only. -/
theorem main_buffer_safe_iff {dev : Device} {h : List (Input × Service)} {s : Service}
    (r : Serves dev h s) (hl : s.gModelLoaded = true) (f : Outcome) (msg : Msg) :
    (∀ a ∈ (inferred dev f msg s).eng.log, a.loc.1 = .main → 0 ≤ a.loc.2 ∧ a.loc.2 < mdlBufLen) ↔
      ∀ st ∈ requestStretches (s.env dev), st.Within .main mdlBufLen := by
  obtain ⟨hmdl, hin⟩ := (r.inStep.2 hl).ready
  rw [← all_cover_within]
  exact forall_congr' fun a => imp_congr_left (mem_inferred_log hmdl hin a)

/-- The main buffer is safe for the model whose output is at its start. -/
theorem main_buffer_safe_iff_reshape :
    (serve (deviceWith reshapeModel) loadRequest.1 loadRequest.2 boot).gModelLoaded = true ∧
    ∀ a ∈ (inferred (deviceWith reshapeModel) .success (inferenceRequest 0 []).2
        (serve (deviceWith reshapeModel) loadRequest.1 loadRequest.2 boot)).eng.log,
      a.loc.1 = .main → 0 ≤ a.loc.2 ∧ a.loc.2 < mdlBufLen := by
  obtain ⟨hl, hw⟩ :
      (serve (deviceWith reshapeModel) loadRequest.1 loadRequest.2 boot).gModelLoaded = true ∧
      ∀ st ∈ requestStretches ((serve (deviceWith reshapeModel) loadRequest.1 loadRequest.2
        boot).env (deviceWith reshapeModel)), st.Within .main mdlBufLen := by decide +kernel
  exact ⟨hl, (main_buffer_safe_iff (.more rfl (.refl _)) hl _ _).mpr hw⟩

/-- **The main buffer is overrun.**  A model whose output is 10 bytes at offset 1460 is loaded, and
the engine leaves the buffer at the first inference. -/
theorem main_buffer_overrun :
    ∃ s, Reaches (deviceWith (reshapeModelAt 1460)) [(loadRequest, s)] s ∧
      s.gModelLoaded = true ∧ replyStatus s.trace = some psaSuccess ∧
      Delivered (inferenceRequest 0 []).1 (inferenceRequest 0 []).2 ∧
      ∃ a ∈ (inferred (deviceWith (reshapeModelAt 1460)) (inferenceRequest 0 []).1
          (inferenceRequest 0 []).2 s).eng.log, a.loc.1 = .main ∧
        ¬(0 ≤ a.loc.2 ∧ a.loc.2 < mdlBufLen) := by
  have hd : (serve (deviceWith (reshapeModelAt 1460)) loadRequest.1 loadRequest.2 boot).Defined := by
    decide +kernel
  have r : Reaches (deviceWith (reshapeModelAt 1460)) [(loadRequest, _)] _ :=
    .more (if_pos hd) (.refl _)
  have hl : (serve (deviceWith (reshapeModelAt 1460)) loadRequest.1 loadRequest.2
      boot).gModelLoaded = true := by decide +kernel
  obtain ⟨hmdl, hin⟩ := (r.serves.inStep.2 hl).ready
  obtain ⟨a, ha, hr, hN⟩ := exists_not_within (l := requestStretches ((serve (deviceWith
    (reshapeModelAt 1460)) loadRequest.1 loadRequest.2 boot).env (deviceWith (reshapeModelAt 1460))))
    (r := .main) (N := mdlBufLen) (by decide +kernel)
  exact ⟨_, r, hl, by decide +kernel, ⟨rfl, rfl, Or.inr rfl⟩, a, (mem_inferred_log hmdl hin a).mpr ha,
    hr, hN⟩

/-! ### The model -/

/-- **The model is safe**: a `LOAD` that succeeds, and an inference later, read nothing outside the
model that was decrypted, exactly when the model describes nothing outside itself. -/
theorem model_reads_safe_iff {dev : Device} {s s₁ t : Service} {i : Input}
    {k : List (Input × Service)} (r : Run.Steps (serveStep dev) s ((i, s₁) :: k) t)
    (hi : IsLoad i) (hok : replyStatus s₁.trace = some psaSuccess) (hk : ∀ a ∈ k, ¬IsLoad a.1)
    (f : Outcome) (msg : Msg) :
    (∀ a, a ∈ s₁.eng.log ∨ a ∈ (inferred dev f msg t).eng.log → a.loc.1 = .model →
        0 ≤ a.loc.2 ∧ a.loc.2 < t.gDecryptedSize) ↔
      ∀ st ∈ loadStretches (s₁.env dev) gDecryptedModelPtr staticMainBuf ++
        requestStretches (s₁.env dev), st.Within .model s₁.gDecryptedSize := by
  cases r with
  | more e r =>
    obtain rfl := Option.some.inj e
    have hload := loadModel_of_reply hi hok
    have hgate : (serve dev i.1 i.2 s).gate = (loadModel dev i.1 s.fresh).2.gate := by
      rw [serve_load hi, handleLoad_gate]
    have hholds := (GateHolds.of_load hload).congr hgate
    have htg := gate_of_noLoad hholds r hk
    obtain ⟨hmdl, hin⟩ := (hholds.congr htg).ready
    -- what the `LOAD` touched
    have hload_log : ∀ a, a ∈ (serve dev i.1 i.2 s).eng.log ↔ a ∈ cover (loadStretches
        ((serve dev i.1 i.2 s).env dev) gDecryptedModelPtr staticMainBuf) := fun a => by
      have hm : ((loadModel dev i.1 s.fresh).2.env dev).model =
          ((serve dev i.1 i.2 s).env dev).model := (congrArg Gate.model hgate).symm
      rw [← loadStretches_pic hm, serve_load hi, handleLoad_eng, mem_loadModel_log hload]
      exact or_iff_left List.not_mem_nil
    -- what the inference touches
    have hinf_log : ∀ a, a ∈ (inferred dev f msg t).eng.log ↔
        a ∈ cover (requestStretches ((serve dev i.1 i.2 s).env dev)) := fun a => by
      have hm : (t.env dev).model = ((serve dev i.1 i.2 s).env dev).model :=
        congrArg Gate.model htg
      rw [mem_inferred_log hmdl hin, requestStretches_pic hm rfl]
    rw [← all_cover_within, cover_append, show t.gDecryptedSize = _ from congrArg Gate.size htg]
    exact forall_congr' fun a => imp_congr_left (or_congr (hload_log a) (hinf_log a))

/-- The model of one layer, of 112 bytes, is safe. -/
theorem model_reads_safe_iff_reshape :
    replyStatus (serve (deviceWith reshapeModel) loadRequest.1 loadRequest.2 boot).trace =
        some psaSuccess ∧
    ∀ a, a ∈ (serve (deviceWith reshapeModel) loadRequest.1 loadRequest.2 boot).eng.log ∨
        a ∈ (inferred (deviceWith reshapeModel) .success (inferenceRequest 0 []).2
          (serve (deviceWith reshapeModel) loadRequest.1 loadRequest.2 boot)).eng.log →
      a.loc.1 = .model → 0 ≤ a.loc.2 ∧ a.loc.2 < (serve (deviceWith reshapeModel) loadRequest.1
        loadRequest.2 boot).gDecryptedSize := by
  have hok : replyStatus (serve (deviceWith reshapeModel) loadRequest.1 loadRequest.2 boot).trace =
      some psaSuccess := by decide +kernel
  exact ⟨hok, (model_reads_safe_iff (.more rfl (.refl _)) ⟨rfl, rfl⟩ hok
    (fun _ h => absurd h List.not_mem_nil) _ _).mpr (by decide +kernel)⟩

/-- **The model is read past its end.**  A plaintext of five bytes is loaded; its header is padding
and what the buffer held before. -/
theorem model_reads_past_end :
    ∃ s, Reaches (deviceWith [0x4D, 0x41, 0x49, 0x58, 0]) [(loadRequest, s)] s ∧
      s.gModelLoaded = true ∧ replyStatus s.trace = some psaSuccess ∧ s.gDecryptedSize = 5 ∧
      ∃ a ∈ s.eng.log, a.loc.1 = .model ∧ ¬(0 ≤ a.loc.2 ∧ a.loc.2 < s.gDecryptedSize) := by
  have hd : (serve (deviceWith [0x4D, 0x41, 0x49, 0x58, 0]) loadRequest.1 loadRequest.2
      boot).Defined := by decide +kernel
  exact ⟨_, .more (if_pos hd) (.refl _), by decide +kernel, by decide +kernel, by decide +kernel,
    by decide +kernel⟩

end Partition
