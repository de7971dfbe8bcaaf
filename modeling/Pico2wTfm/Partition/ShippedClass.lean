import Pico2wTfm.Partition.ShippedRun
import Pico2wTfm.Support.Argmax

/-!
# Partition — ShippedClass

The class of an image by the shipped model, as a function of the image: the average over the last
activations, the fully connected layer, softmax, the scores and the largest of them (`mnistClass`).
A request that brings the image comes to that class, whatever the service did before
(`shipped_answer`).
-/

namespace TinyMaix
open Bytes Footprint

section Values

variable (fl : FloatOps) (image : Nat → Byte)

/-- The activations behind the convolutions. -/
def mnistAvg : Nat → Byte := mnistGap.output (mnistEnv fl) (mnistVal fl image 3)
def mnistDense : Nat → Byte := mnistFc.output (mnistEnv fl) (mnistAvg fl image)
def mnistShare : Nat → Byte := mnistSoftmax.output (mnistEnv fl) (mnistDense fl image)

/-- The scores. -/
def mnistScore : Nat → F32 := scoreOf (mnistEnv fl) (Partition.mnistMdl 5) (mnistShare fl image)

/-- The class. -/
def mnistClass : Int := (Argmax.argmax fl.lt 0 (mnistScore fl image) 10).2

end Values

section Ships

variable {e : Env} (he : e.Ships)
include he

theorem fc_output_ships {v : Nat → Byte} {c : Nat} (hc : c < 10) :
    mnistFc.output e v c = mnistFc.output (mnistEnv e.fl) v c := by
  have hsum : mnistFc.sum e v c = mnistFc.sum (mnistEnv e.fl) v c := by
    have hdot : e.dotWith v (mnistFc.kernel c) 16 =
        (mnistEnv e.fl).dotWith v (mnistFc.kernel c) 16 := by
      refine dotWith_ships he ?_ v
      rw [show (mnistFc.kernel c).off = 2160 + (c * 16 : Nat) from rfl]
      omega
    have hbias : mnistFc.bias e c = mnistFc.bias (mnistEnv e.fl) c := by
      have hin : 0 ≤ mnistFc.b.off ∧ mnistFc.b.off + (4 * 10 : Nat) ≤ 2408 := by decide
      rw [Fc.bias, Fc.bias, Env.i32, Env.i32, entry_ships he hin hc,
        entry_ships (ships_mnistEnv _) hin hc]
    rw [Fc.sum, Fc.sum, hbias]
    exact congrArg (· + _) hdot
  have hscale : e.f32 mnistFc.ws = (mnistEnv e.fl).f32 mnistFc.ws := by
    rw [Env.f32, Env.f32, word_ships he (by decide), word_ships (ships_mnistEnv _) (by decide)]
  rw [Fc.output, Fc.output, hsum, hscale]
  rfl

theorem scoreOf_ships (v : Nat → Byte) :
    scoreOf e (Partition.mnistMdl 5) v = scoreOf (mnistEnv e.fl) (Partition.mnistMdl 5) v := by
  funext i
  simp (disch := decide) only [scoreOf, Env.f32, Env.i32, word_ships he,
    word_ships (ships_mnistEnv e.fl)]
  rfl

end Ships

end TinyMaix

namespace Partition
open Bytes Footprint TinyMaix

section Run

variable {e : Env} (he : e.Ships) (image : Nat → Byte)
include he

/-- The average and the fully connected layer. -/
theorem avg_ends : Ends (fun m => m.Holds (mnistAct 0).data (mnistAct 0).size
    (mnistVal e.fl image 0)) ((atStart e).layers e 4) fun _ m =>
      m.Holds mnistGap.out.data 16 (mnistAvg e.fl image) := by
  have hcall : Ends (fun m => m.Holds (mnistAct 3).data (mnistAct 3).size (mnistVal e.fl image 3))
      ((layerAt e 3).call e) fun r m => r = .ok ∧
        m.Holds mnistGap.out.data 16 (mnistAvg e.fl image) := by
    refine gap_ends inModel_atStart.after (layerAt_type he (by decide)) ?_
    rw [gap_three he]
    exact Gap.layer_ends plain_mnistGap
  exact mnist_ends he (by decide) (convs_ends he le_rfl) hcall

theorem dense_ends : Ends (fun m => m.Holds (mnistAct 0).data (mnistAct 0).size
    (mnistVal e.fl image 0)) ((atStart e).layers e 5) fun _ m =>
      m.Holds mnistSoftmax.input.data 10 (mnistDense e.fl image) := by
  have hcall : Ends (fun m => m.Holds mnistGap.out.data 16 (mnistAvg e.fl image))
      ((layerAt e 4).call e) fun r m => r = .ok ∧
        m.Holds mnistSoftmax.input.data 10 (mnistDense e.fl image) := by
    refine fc_ends inModel_atStart.after (layerAt_type he (by decide)) ?_
    rw [fc_four he]
    exact (Fc.layer_ends plain_mnistFc).weaken fun _ m hm =>
      ⟨hm.1, Mem.Holds.congr (n := 10) hm.2 fun c hc => fc_output_ships he hc⟩
  exact mnist_ends he (by decide) (avg_ends he image) hcall

/-- The last layer, and the scores behind its output. -/
theorem scores_ends : Ends (fun m => m.Holds (mnistAct 0).data (mnistAct 0).size
    (mnistVal e.fl image 0)) ((atStart e).layers e 6) fun _ m =>
      (m.outs 0).data = outf e mnistSoftmax.out ∧
        e.Floats m (outf e mnistSoftmax.out) 0 10 (mnistScore e.fl image) := by
  have hp : (layerAt e 5).InModel := inModel_atStart.after
  have hcall : Ends (fun m => m.Holds mnistSoftmax.input.data 10 (mnistDense e.fl image))
      ((layerAt e 5).call e) fun r m => r = .ok ∧
        m.Holds mnistSoftmax.out.data 10 (mnistShare e.fl image) := by
    refine softmax_ends hp (layerAt_type he (by decide)) ?_
    rw [softmax_five he]
    exact Softmax.layer_ends plain_mnistSoftmax
  have hmat : outputAt e (layerAt e 5).mdl = mnistSoftmax.out :=
    congrArg Softmax.out (softmax_five he)
  have hidx : (layerAt e 5).outIdx = 0 := Walk.outIdx_eq fun k hk =>
    mt (isOut_layerAt he hk.le).mp hk.ne
  have hdeq : e.word 1 ((layerAt e 5).mdl.b.add 5) ≠ 0 := by
    obtain ⟨-, -, deq, -⟩ := mdl_header
    rw [layerAt_mdl he (by decide), word_ships he (by decide)]
    exact deq
  have hapart : Apart mnistSoftmax.out.data 10 (outf e mnistSoftmax.out) (4 * 10) :=
    ⟨rfl, rfl, Or.inl (tmAlign_le e _)⟩
  have hout : Ends (fun m => m.Holds mnistSoftmax.out.data 10 (mnistShare e.fl image))
      (layerOutput e (layerAt e 5).mdl (layerAt e 5).outIdx) fun _ m =>
        (m.outs 0).data = outf e mnistSoftmax.out ∧
          e.Floats m (outf e mnistSoftmax.out) 0 10 (mnistScore e.fl image) := by
    have key := @layerOutput_ends e (layerAt e 5).mdl (mnistShare e.fl image) 0 hp.layerBody hp.b
      ((isOut_layerAt he le_rfl).mpr rfl) hdeq
    rw [hmat] at key
    rw [hidx]
    refine (key hapart).weaken fun _ m hm => ⟨hm.1, hm.2.congr fun i _ _ => ?_⟩
    rw [layerAt_mdl he le_rfl, scoreOf_ships he]
    rfl
  exact layers_ends inModel_atStart (ok_mnist he) (dense_ends he image)
    (round_ends hp hcall hout)

theorem layerCnt_ships : layerCnt e loadedMdl = 6 := by
  obtain ⟨-, -, -, cnt, -⟩ := mdl_header
  exact (word_ships he (p := gDecryptedModelPtr.add 10) (by decide)).trans cnt

/-- **A run of the shipped model** on the image. -/
theorem tmRun_ends {mdl : TmMdl} (hmdl : firstLayer mdl = loadedMdl) :
    Ends (fun m => m.Holds (mnistAct 0).data (mnistAct 0).size (mnistVal e.fl image 0))
      (tmRun e mdl (inputMat e)) fun _ m => (m.outs 0).data = outf e mnistSoftmax.out ∧
        e.Floats m (outf e mnistSoftmax.out) 0 10 (mnistScore e.fl image) := by
  have hb : mdl.b = gDecryptedModelPtr := congrArg TmMdl.b hmdl
  have hcnt : e.word 2 (mdl.b.add 10) = 6 := by
    rw [hb]
    exact layerCnt_ships he
  refine ((field_reads (by rw [hb]; rfl) 10 2).ends _).bind_eq ?_
  rw [hcnt, show { mdl with layerI := 0, layerBody := mdl.b.add 64 } = loadedMdl from hmdl]
  exact scores_ends he image

end Run

/-- What `parse_output` returns. -/
theorem parseOutput_ends {e : Env} {p : Ptr} {F : Nat → F32} :
    Ends (fun m => (m.outs 0).data = p ∧ e.Floats m p 0 10 F) (parseOutput e)
      fun r _ => r = (Argmax.argmax e.fl.lt 0 F 10).2 := by
  refine Ends.bind (R := fun o m => o.data = p ∧ e.Floats m p 0 10 F)
    (((loadOut_reads 0).ends _).weaken fun o m ho => ⟨ho.1 ▸ ho.2.1, ho.2.2⟩) fun o => ?_
  have loop := Ends.foldN_val (Argmax.argmax e.fl.lt 0 F) (n := 10)
    (f := fun i st => do
      let d ← loadF32 e (o.data.add (4 * i : Nat))
      return if e.fl.lt st.1 d then (d, (i : Int)) else st)
    (J := fun _ m => o.data = p ∧ e.Floats m p 0 10 F) fun i hi =>
      (((loadF32_reads e _).ends _).weaken fun d m hd =>
        ⟨hd.1.trans (hd.2.1 ▸ hd.2.2 i (Nat.zero_le i) hi), hd.2⟩).bind_eq
          (Ends.pure fun m hm => ⟨rfl, hm⟩)
  exact loop.bind_eq (Ends.pure fun _ _ => rfl)

section Request

variable {dev : Device} {f : Outcome} {msg : Msg} {s : Service} {h : List (Input × Service)}

/-- **The class of a request** is that of its image. -/
theorem shipped_answer (r : Serves dev h s) (hs : Shipped s) (hd : Delivered f msg)
    (hn : msg.inSize = 28 * 28) {u : Service}
    (hu : u = preprocessed dev (received f msg s.fresh)) :
    (tmRunCall dev u).1.1 = .ok ∧
      (parseCall dev (ran dev u)).1 = mnistClass dev.fl fun i => msg.inVec.getD i 0 := by
  have he : (u.env dev).Ships := hu ▸ ships_preprocessed hs
  have gate := r.inStep.2 hs.loaded
  have hg : u.gate = s.gate := by
    rw [hu]
    exact preprocessed_gate.trans received_gate
  have hmdl : firstLayer u.gMdl = loadedMdl := (congrArg Gate.mdl hg).trans gate.ready.1
  have hin : u.gIn = inputMat (u.env dev) := by
    rw [show u.gIn = s.gIn from congrArg Gate.input hg, gate.ready.2]
    exact matAt_pic (congrArg Gate.model hg).symm _ _
  have hb : u.gMdl.b = gDecryptedModelPtr := congrArg TmMdl.b hmdl
  constructor
  · have hcnt : layerCnt (u.env dev) u.gMdl = 6 := by
      rw [layerCnt, hb]
      exact layerCnt_ships he
    rw [tmRunCall_spec (by rw [hb]; rfl), hcnt, hmdl]
    exact ok_mnist he
  · have himage : u.eng.mem.Holds (mnistAct 0).data (mnistAct 0).size
        (mnistVal dev.fl (fun i => msg.inVec.getD i 0) 0) := hu ▸ holds_image r hs.loaded hd hn
    have run := tmRun_ends he (fun i => msg.inVec.getD i 0) hmdl u.eng himage
    have henv : (ran dev u).env dev = u.env dev := rfl
    have heng : (ran dev u).eng = (tmRun (u.env dev) u.gMdl u.gIn u.eng).2 := rfl
    rw [← hin] at run
    have key := parseOutput_ends (tmRun (u.env dev) u.gMdl u.gIn u.eng).2 run
    rw [parseCall, Service.run_fst, henv, heng]
    exact key

end Request

end Partition
