import Pico2wTfm.Partition.Rounds
import Pico2wTfm.TinyMaix.Walk

/-!
# Partition — Inference

A delivered request for an inference, seen along the layers of the loaded model.  `atStart` is the
walk of such a request; the request succeeds exactly when the walk does
(`replyStatus_delivered`).
-/

namespace Partition
open Bytes Footprint TinyMaix

/-- The walk of a request. -/
def atStart (e : Env) : Walk := ⟨loadedMdl, inputMat e, 0⟩

theorem inModel_atStart {e : Env} : (atStart e).InModel := ⟨rfl, rfl, rfl, rfl⟩

/-- The walk reaches layer `k`. -/
structure ReachesLayer (e : Env) (k : Nat) : Prop where
  lt : k < layerCnt e loadedMdl
  ok : (atStart e).Ok e k

/-- Layer `k`. -/
def layerAt (e : Env) (k : Nat) : Walk := (atStart e).after e k

section Request

variable {dev : Device} {f : Outcome} {msg : Msg} {s : Service}

theorem received_trace : replyStatus (received f msg s.fresh).trace = none := by
  unfold received
  split
  · exact replyStatus_emit fun _ _ => Event.noConfusion
  · rfl

theorem received_gate : (received f msg s).gate = s.gate := by
  unfold received
  split <;> rfl

theorem runModel_trace : replyStatus (runModel dev msg s).2.trace = replyStatus s.trace := by
  rw [runModel_eq]
  split
  · rfl
  · unfold Service.writeIfRoom
    split
    · exact replyStatus_emit fun _ _ => Event.noConfusion
    · rfl

/-- What a delivered request is answered with. -/
theorem serve_delivered_eq (hl : s.gModelLoaded = true) (hd : Delivered f msg)
    (hb : s.gMdl.b.region = .model) : serve dev f msg s =
      (runModel dev msg (preprocessed dev (received f msg s.fresh))).2.reply msg
        (runModel dev msg (preprocessed dev (received f msg s.fresh))).1 := by
  have hb' : (received f msg s.fresh).gMdl.b.region = .model := by
    rw [show (received f msg s.fresh).gMdl.b = s.gMdl.b from
      congrArg (fun g : Gate => g.mdl.b) received_gate, hb]
  rw [serve_delivered hl hd, classify_eq hb']

/-- The model as `tm_run` finds it. -/
theorem preprocessed_gMdl : (preprocessed dev (received f msg s.fresh)).gMdl = s.gMdl := by
  unfold preprocessed received
  split <;> rfl

theorem preprocessed_model :
    ((preprocessed dev (received f msg s.fresh)).env dev).model = (s.env dev).model := by
  unfold preprocessed received
  split <;> rfl

theorem preprocessed_trace :
    replyStatus (preprocessed dev (received f msg s.fresh)).trace = none := received_trace

/-- **When a request succeeds.** -/
theorem replyStatus_delivered (hl : s.gModelLoaded = true) (hd : Delivered f msg)
    (hmdl : firstLayer s.gMdl = loadedMdl) :
    replyStatus (serve dev f msg s).trace = some psaSuccess ↔
      (atStart (s.env dev)).Ok (s.env dev) (layerCnt (s.env dev) loadedMdl) := by
  have hb : s.gMdl.b = gDecryptedModelPtr := congrArg (fun m : TmMdl => m.b) hmdl
  have hr : s.gMdl.b.region = .model := by rw [hb]; rfl
  obtain ⟨u, hu⟩ : ∃ u, u = preprocessed dev (received f msg s.fresh) := ⟨_, rfl⟩
  have k₁ : u.gMdl = s.gMdl := hu ▸ preprocessed_gMdl
  have k₂ : (u.env dev).model = (s.env dev).model := hu ▸ preprocessed_model
  have hcnt : layerCnt (u.env dev) u.gMdl = layerCnt (s.env dev) loadedMdl := by
    rw [layerCnt, layerCnt, Env.word, Env.word, k₂, k₁, hb]
    rfl
  have hrun : (tmRunCall dev u).1 =
      runResult (s.env dev) (layerCnt (s.env dev) loadedMdl) loadedMdl := by
    rw [tmRunCall_spec (k₁ ▸ hr), hcnt, k₁, hmdl, runResult_pic k₂]
  have hnone : replyStatus (runModel dev msg u).2.trace = none :=
    runModel_trace.trans (hu ▸ preprocessed_trace)
  rw [serve_delivered_eq hl hd hr, ← hu, replyStatus_reply hnone, Option.some_inj, runModel_eq,
    guard_success fun _ => psaErrorGenericError_ne, not_not, hrun]
  exact and_iff_left rfl

end Request

end Partition
