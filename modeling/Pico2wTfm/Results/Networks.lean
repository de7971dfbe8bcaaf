import Pico2wTfm.Results.Classification
import Pico2wTfm.Results.HistoryIndependence
import Pico2wTfm.TinyMaix.Network

/-!
# Results — Networks

The class in a reply, from the network of the model.  What a request brings is an image, and what
comes back is the number of a largest score: with a model whose records lay its network out, it is
the class that the network gives the image, as if there were no buffer.

* `network_class`: the class in a successful reply, for every such model and every history.
* `networked_ships`: the shipped model is one.
-/

namespace Partition
open Bytes Footprint TinyMaix

/-- The model is a classifier by layer `k`, and its records lay out the network up to there. -/
structure Networked (e : Env) (W : Wiring) (k : Nat) : Prop where
  classifier : Classifier e k
  laid : (atStart e).Laid e W {k + 1} (k + 1)
  full : 10 ≤ (layerAt e k).writes e

/-- An image as `tm_preprocess` leaves it. -/
def centred (image : Nat → Byte) (i : Nat) : Byte := BitVec.ofInt 8 ((image i).toNat - 128)

/-- **The scores of the network.** -/
def networkScore (e : Env) (W : Wiring) (k : Nat) (image : Nat → Byte) : Nat → F32 :=
  scoreOf e (layerAt e k).mdl (((atStart e).network e W).value (centred image) (k + 1))

/-- The class: the number of a largest score above 0, or -1. -/
def networkClass (e : Env) (W : Wiring) (k : Nat) (image : Nat → Byte) : Int :=
  (Argmax.argmax e.fl.lt 0 (networkScore e W k image) 10).2

section Request

variable {dev : Device} {f : Outcome} {msg : Msg} {s : Service} {h : List (Input × Service)}
  {W : Wiring} {k : Nat}

theorem Networked.congr {e e' : Env} (hm : e.model = e'.model) (hf : e.fl = e'.fl)
    (ha : e.mainAddr = e'.mainAddr) (h : Networked e W k) : Networked e' W k := by
  have hat := @layerAt_pic e e' hm k
  have hin : atStart e = atStart e' := by
    rw [atStart, atStart, show inputMat e = inputMat e' from matAt_pic hm _ _]
  have hlaid := h.laid.pic hm hf ha
  have hwrites : (layerAt e k).writes e = (layerAt e k).writes e' := by
    obtain ⟨m, pic, a, fl⟩ := e
    obtain ⟨m', pic', a', fl'⟩ := e'
    obtain rfl : m = m' := hm
    rfl
  refine ⟨h.classifier.congr hm ha, hin ▸ hlaid, ?_⟩
  rw [← hat, ← hwrites]
  exact h.full

theorem networkScore_pic {e e' : Env} (hm : e.model = e'.model) (hf : e.fl = e'.fl)
    (image : Nat → Byte) : networkScore e W k image = networkScore e' W k image := by
  have hat := @layerAt_pic e e' hm k
  have hin : atStart e = atStart e' := by
    rw [atStart, atStart, show inputMat e = inputMat e' from matAt_pic hm _ _]
  funext i
  rw [networkScore, networkScore, Walk.network_pic hm hf, hat, hin, scoreOf, scoreOf, Env.f32,
    Env.f32, Env.i32, Env.i32, Env.word, Env.word, Env.word, Env.word, hm, hf]

/-- The score of a layer, from the byte that is in its output. -/
theorem scoreAt_holds {e : Env} {mdl : TmMdl} {m : Mem} {n i : Nat} {v : Nat → Byte}
    (hbuf : mdl.buf.region = .main) (hm : m.Holds (outputAt e mdl).data n v) (hi : i < n) :
    scoreAt e mdl m i = scoreOf e mdl v i := by
  have hne : ((outputAt e mdl).data.add i).region ≠ .model ∧
      ((outputAt e mdl).data.add i).region ≠ .pic := by
    rw [Ptr.add_region, show (outputAt e mdl).data.region = .main from hbuf]
    decide
  rw [scoreAt, scoreOf, Env.i8At, e.byteAt_mem hne.1 hne.2]
  exact congrArg (fun b : Byte => tmDequant e.fl b.toInt _ _) (hm i hi)

/-- **The engine's scores are the network's.** -/
theorem layerScore_network (r : Serves dev h s) (hl : s.gModelLoaded = true) (hd : Delivered f msg)
    (hn : msg.inSize = 28 * 28) (hnet : Networked (runEnv dev f msg s) W k) {i : Nat} (hi : i < 10) :
    layerScore dev (atRun dev f msg s) k i =
      networkScore (runEnv dev f msg s) W k (fun i => msg.inVec.getD i 0) i := by
  have hin : (atRun dev f msg s).eng.mem.Holds staticMainBuf 784
      (centred fun i => msg.inVec.getD i 0) := holds_image r hl hd hn
  have hsize : (atStart (runEnv dev f msg s)).input.size = 784 := by
    obtain ⟨hh, hw, hc⟩ := hnet.classifier.input
    show (inputMat (runEnv dev f msg s)).h * (inputMat (runEnv dev f msg s)).w *
      (inputMat (runEnv dev f msg s)).c = 784
    rw [hh, hw, hc]
  have hstart : (loadU16 (runEnv dev f msg s) (gDecryptedModelPtr.add 10)
      (atRun dev f msg s).eng).2.mem.Holds (atStart (runEnv dev f msg s)).input.data
        (atStart (runEnv dev f msg s)).input.size (centred fun i => msg.inVec.getD i 0) := by
    have hmem := ((field_reads (e := runEnv dev f msg s) (l := gDecryptedModelPtr) rfl 10 2).spec
      (atRun dev f msg s).eng).2
    rw [hsize, show loadU16 (runEnv dev f msg s) (gDecryptedModelPtr.add 10) =
      loadLe (runEnv dev f msg s) 2 (gDecryptedModelPtr.add 10) from rfl, hmem]
    exact hin
  have run := hnet.laid.holds inModel_atStart hstart le_rfl ⟨le_rfl, Or.inl rfl⟩
  rw [Walk.InPlace, Walk.place] at run
  have hp : (layerAt (runEnv dev f msg s) k).InModel := inModel_atStart.after
  have hscore := scoreAt_holds hp.buf run (hi.trans_le hnet.full)
  rw [layerScore, networkScore, afterLayers, ← runEnv]
  exact hscore

/-- **The class in a reply is that of the network.** -/
theorem network_class (r : Serves dev h s) (hget : f.get = psaSuccess)
    (ht : msg.type = tinymaixIpcRunInference)
    (hok : replyStatus (serve dev f msg s).trace = some psaSuccess) (hn : msg.inSize = 28 * 28)
    (hroom : 4 ≤ msg.outSize) (hnet : Networked (s.env dev) W k) :
    written (serve dev f msg s).trace = leBytes 4 (BitVec.ofInt 32
      (networkClass (s.env dev) W k fun i => msg.inVec.getD i 0)).toNat := by
  obtain ⟨hl, hd⟩ := delivered_of_success hget ht hok
  obtain ⟨hmdl, hin⟩ := (r.inStep.2 hl).ready
  obtain ⟨hall, -⟩ := walk_of_success r hget ht hok
  have hm : (s.env dev).model = (runEnv dev f msg s).model := preprocessed_model.symm
  have hnet' := @Networked.congr W k _ (runEnv dev f msg s) hm rfl rfl hnet
  obtain ⟨⟨hk, ho, honly, -, hdeq, hten⟩, havoid⟩ := hnet'.classifier
  have heng := @inferred_eng dev f msg s hmdl hin
  have hdata : ((inferred dev f msg s).eng.mem.outs 0).data =
      layerScores (runEnv dev f msg s) k := by
    have hmat := outs_afterLayers hall hk ho honly
    rw [← runEnv, outMat_layer, if_neg hdeq] at hmat
    rw [heng]
    exact congrArg TmMat.data hmat
  have hscores : (runEnv dev f msg s).Floats (inferred dev f msg s).eng.mem
      ((inferred dev f msg s).eng.mem.outs 0).data 0 10
        (networkScore (s.env dev) W k fun i => msg.inVec.getD i 0) := by
    rw [hdata, heng, networkScore_pic hm rfl]
    exact (floats_afterLayers hall hk ho hdeq hten havoid).congr fun i _ hi =>
      layerScore_network r hl hd hn hnet' hi
  rw [written_class r hget ht hok hscores, if_pos hroom, networkClass]
  rfl

end Request

/-! ### The shipped model -/

/-- The tensors of the shipped model, layer by layer. -/
def mnistSource : Nat → TmMat
  | 3 => mnistGap.input
  | 4 => mnistFc.input
  | 5 => mnistSoftmax.input
  | k => (mnistConv k).input

def mnistTarget : Nat → TmMat
  | 3 => mnistGap.out
  | 4 => mnistFc.out
  | 5 => mnistSoftmax.out
  | k => (mnistConv k).out

/-- The convolutions are sound. -/
theorem sound_mnistConv {k : Nat} (hk : k < 3) : (mnistConv k).Sound := by
  have hroom : ∀ k < 3, (mnistConv k).out.c ≤ tmMaxCsize ∧
      (mnistConv k).p.chans (mnistConv k).input (mnistConv k).out * (mnistConv k).p.maxk ≤
        tmMaxKcsize := by decide
  exact (plain_mnistConv hk).sound (hroom k hk).1 (hroom k hk).2

section Ships

variable {e : Env} (he : e.Ships)
include he

theorem tensors_ships {k : Nat} (hk : k ≤ 5) : (layerAt e k).source e = mnistSource k ∧
    (layerAt e k).target e = mnistTarget k := by
  obtain rfl | rfl | rfl | rfl | rfl | rfl : k = 0 ∨ k = 1 ∨ k = 2 ∨ k = 3 ∨ k = 4 ∨ k = 5 := by
    omega
  · exact ⟨congrArg Conv.input (conv_zero he), congrArg Conv.out (conv_zero he)⟩
  · exact ⟨congrArg Conv.input (conv_one he), congrArg Conv.out (conv_one he)⟩
  · exact ⟨congrArg Conv.input (conv_two he), congrArg Conv.out (conv_two he)⟩
  · exact ⟨congrArg Gap.input (gap_three he), congrArg Gap.out (gap_three he)⟩
  · exact ⟨congrArg Fc.input (fc_four he), congrArg Fc.out (fc_four he)⟩
  · exact ⟨congrArg Softmax.input (softmax_five he), congrArg Softmax.out (softmax_five he)⟩

theorem sound_ships {k : Nat} (hk : k ≤ 5) : (layerAt e k).Sound e := by
  rw [Walk.Sound, layerAt_type he hk]
  obtain rfl | rfl | rfl | rfl | rfl | rfl : k = 0 ∨ k = 1 ∨ k = 2 ∨ k = 3 ∨ k = 4 ∨ k = 5 := by
    omega
  · exact (conv_zero he).symm ▸ sound_mnistConv (by decide)
  · exact (conv_one he).symm ▸ sound_mnistConv (by decide)
  · exact (conv_two he).symm ▸ sound_mnistConv (by decide)
  · exact (gap_three he).symm ▸ plain_mnistGap
  · exact (fc_four he).symm ▸ plain_mnistFc
  · exact (softmax_five he).symm ▸ plain_mnistSoftmax

/-- What a layer of the shipped model reads and writes. -/
theorem lengths_ships {k : Nat} (hk : k ≤ 5) :
    (layerAt e k).reads e = (if 4 ≤ k then (mnistSource k).c else (mnistSource k).size) ∧
      (layerAt e k).writes e = if 3 ≤ k then (mnistTarget k).c else (mnistTarget k).size := by
  obtain ⟨hsource, htarget⟩ := tensors_ships he hk
  rw [Walk.reads, Walk.writes, layerAt_type he hk, hsource, htarget]
  obtain rfl | rfl | rfl | rfl | rfl | rfl : k = 0 ∨ k = 1 ∨ k = 2 ∨ k = 3 ∨ k = 4 ∨ k = 5 := by
    omega
  all_goals exact ⟨rfl, rfl⟩

theorem inputMat_ships : inputMat e = mainMat 28 28 1 0 := inputAt_zero he

/-- Where a layer finds its input, and how much of it. -/
theorem place_ships {k : Nat} (hk : k ≤ 5) :
    ((atStart e).place e k).1 = (mnistSource k).data ∧
      (layerAt e k).reads e ≤ ((atStart e).place e k).2 := by
  rw [(lengths_ships he hk).1]
  cases k with
  | zero =>
      rw [Walk.place, atStart, inputMat_ships he]
      exact ⟨rfl, by decide⟩
  | succ k =>
      have hk' : k < 5 := hk
      have hlink : ∀ k < 5, (mnistTarget k).data = (mnistSource (k + 1)).data ∧
          (if 4 ≤ k + 1 then (mnistSource (k + 1)).c else (mnistSource (k + 1)).size) ≤
            if 3 ≤ k then (mnistTarget k).c else (mnistTarget k).size := by decide
      have htarget := (tensors_ships he hk'.le).2
      have hwrites := (lengths_ships he hk'.le).2
      rw [layerAt] at htarget hwrites
      rw [Walk.place, htarget, hwrites]
      exact hlink k hk'

/-- **The shipped model** lays its network out, layer by layer, and classifies. -/
theorem networked_ships : Networked e .chain 5 := by
  obtain ⟨-, -, deq, -⟩ := mdl_header
  have hcnt : layerCnt e loadedMdl = 6 := layerCnt_ships he
  have htarget : (layerAt e 5).target e = mnistSoftmax.out := (tensors_ships he le_rfl).2
  have hsum : ∀ k < 6, (layerAt e k).type e ≠ some .add := fun k hk => by
    rw [layerAt_type he (Nat.lt_succ_iff.mp hk)]
    exact (by decide : ∀ k < 6, some (mnistType k) ≠ some .add) k hk
  refine ⟨⟨⟨by rw [hcnt]; decide, (isOut_layerAt he le_rfl).mpr rfl, fun j hj hoj => ?_, ?_, ?_,
    ?_⟩, ?_⟩, ⟨fun k hk => ⟨sound_ships he (Nat.lt_succ_iff.mp hk), fun ho => ?_⟩, fun k hk => ?_,
      fun k hk ht => absurd ht (hsum k hk), fun k hk i hi hlive =>
        absurd hlive (Walk.not_live_chain hsum hk hi)⟩, ?_⟩
  · rw [hcnt] at hj
    exact (isOut_layerAt he (Nat.lt_succ_iff.mp hj)).mp hoj
  · rw [inputMat_ships he]
    exact ⟨rfl, rfl, rfl⟩
  · rwa [word_ships he (by decide)]
  · rw [layerOut, show outputAt e (layerAt e 5).mdl = mnistSoftmax.out from htarget]
    rfl
  · rw [hcnt]
    exact fun st hst => absurd hst List.not_mem_nil
  · obtain rfl := (isOut_layerAt he (Nat.lt_succ_iff.mp hk)).mp ho
    show (layerAt e 5).writes e ≤ outSize ((layerAt e 5).target e)
    rw [(lengths_ships he le_rfl).2, htarget]
    decide
  · have hk := Nat.lt_succ_iff.mp hk
    show ((atStart e).place e k).1 = ((layerAt e k).source e).data ∧
      (layerAt e k).reads e ≤ ((atStart e).place e k).2
    rw [(tensors_ships he hk).1]
    exact place_ships he hk
  · rw [(lengths_ships he le_rfl).2]
    decide

end Ships

/-- A memory full of ones. -/
def ones : Logged Mem Cell := ⟨⟨fun _ _ => 1, fun _ => 0, fun _ => 0, fun _ => .zero⟩, []⟩

/-- The layers of the shipped model, in that memory. -/
theorem run_network_ones :
    let e := mnistEnv ieee754
    ((atStart e).layers e (5 + 1) ones).1.1 = .ok ∧ ∀ i ≤ 5 + 1, i ∈ ({5 + 1} : Set Nat) →
      ((atStart e).layers e (5 + 1) ones).2.mem.Holds ((atStart e).place e i).1
        ((atStart e).place e i).2 (((atStart e).network e .chain).value (fun _ => 1) i) := by
  intro e
  have laid : (atStart e).Laid e .chain {5 + 1} (5 + 1) :=
    (networked_ships (ships_mnistEnv ieee754)).laid
  have full : ones.mem.Holds (atStart e).input.data (atStart e).input.size fun _ => 1 :=
    fun _ _ => rfl
  exact Walk.run_network inModel_atStart laid full

/-- A picture with one bright pixel. -/
def dotRequest : Input := inferenceRequest 784 (dotImage 3)

theorem inSize_dotRequest : dotRequest.2.inSize = 28 * 28 := length_dotImage (by decide)

theorem delivered_dotRequest : Delivered dotRequest.1 dotRequest.2 :=
  ⟨rfl, rfl, Or.inl ⟨inSize_dotRequest, le_rfl⟩⟩

theorem network_class_dot :
    written (serve mnistDevice dotRequest.1 dotRequest.2 mnistLoaded).trace = leBytes 4
      (BitVec.ofInt 32 (networkClass (mnistLoaded.env mnistDevice) .chain 5
        fun i => dotRequest.2.inVec.getD i 0)).toNat :=
  network_class serves_mnistLoaded rfl rfl
    (shipped_reply serves_mnistLoaded shipped_mnistLoaded delivered_dotRequest
      inSize_dotRequest).1 inSize_dotRequest (by decide)
    (networked_ships (shipped_mnistLoaded.ships mnistDevice))

end Partition
