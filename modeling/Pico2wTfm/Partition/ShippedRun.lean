import Pico2wTfm.Partition.ShippedLayers
import Pico2wTfm.Results.LoadGate

/-!
# Partition — ShippedRun

A request for an inference on the shipped model, layer by layer.  The activations of the convolutions
are functions of the image and of the bytes of the model alone (`mnistVal`); nothing else that is in
the memory or in the buffer behind the model has a part in them (`entering_holds`).
-/

namespace TinyMaix
open Bytes Footprint

/-- The shipped model, and nothing else of a device. -/
def mnistEnv (fl : FloatOps) : Env := ⟨fun i => mdlData.getD i.toNat 0, fun _ => 0, 0, fl⟩

theorem ships_mnistEnv (fl : FloatOps) : (mnistEnv fl).Ships := by
  refine List.ext_getElem (length_window _ _ _) fun i h₁ h₂ => ?_
  rw [getElem_window, Int.zero_add, show (mnistEnv fl).model i = mdlData.getD i 0 from rfl,
    List.getD_eq_getElem _ _ h₂]

section Ships

variable {e : Env} (he : e.Ships)
include he

theorem model_ships {i : Int} (hi : 0 ≤ i ∧ i < 2408) : e.model i = mdlData.getD i.toNat 0 := by
  have key := @window_ships e he i 1 (by omega)
  have hlt : i.toNat < mdlData.length := by
    rw [length_mdlData]
    omega
  rw [window_succ, window, List.range_zero, List.map_nil, List.drop_eq_getElem_cons hlt] at key
  rw [List.getD_eq_getElem _ _ hlt]
  exact (List.cons.inj key).1

/-- Weights of the shipped model. -/
theorem dotWith_ships {k : Ptr} {n : Nat} (hk : 0 ≤ k.off ∧ k.off + n ≤ 2408) (v : Nat → Byte) :
    e.dotWith v k n = (mnistEnv e.fl).dotWith v k n := by
  induction n with
  | zero => rfl
  | succ n ih =>
      have hn : 0 ≤ k.off + n ∧ k.off + n < 2408 := by omega
      rw [Env.dotWith, Env.dotWith, ih (by omega), model_ships he hn]
      rfl

variable {L : Conv} {v : Nat → Byte} (hp : L.Plain) (hi : L.Inside)
include hp hi

theorem raw_ships {y x c : Nat} (hc : c < L.out.c) :
    L.raw e v y x c = L.raw (mnistEnv e.fl) v y x c := by
  have hsum : L.sum e v y x c = L.sum (mnistEnv e.fl) v y x c := by
    exact dotWith_ships he (hi.kernel hp hc) _
  have hbias : L.bias e c = L.bias (mnistEnv e.fl) c := by
    rw [Conv.bias, Conv.bias, Env.i32, Env.i32, entry_ships he hi.b hc,
      entry_ships (ships_mnistEnv _) hi.b hc]
  have hscale : L.scale e c = L.scale (mnistEnv e.fl) c := by
    rw [Conv.scale, Conv.scale, Env.f32, Env.f32, entry_ships he hi.ws hc,
      entry_ships (ships_mnistEnv _) hi.ws hc]
    rfl
  rw [Conv.raw, Conv.raw, Conv.sumf, Conv.sumf, hsum, hbias, hscale]
  rfl

theorem output_ships (hc : 0 < L.out.c) (j : Nat) :
    L.output e v j = L.output (mnistEnv e.fl) v j := by
  rw [Conv.output, Conv.output, raw_ships he hp hi (Nat.mod_lt _ hc)]

end Ships

/-- The activations of the convolutions, from those before the first, which are the image. -/
def mnistVal (fl : FloatOps) (image : Nat → Byte) : Nat → Nat → Byte
  | 0 => fun i => BitVec.ofInt 8 ((image i).toNat - 128)
  | k + 1 => (mnistConv k).output (mnistEnv fl) (mnistVal fl image k)

/-- Where they are. -/
def mnistAct : Nat → TmMat
  | 0 => mainMat 28 28 1 0
  | k + 1 => (mnistConv k).out

theorem input_mnistConv {k : Nat} (hk : k < 3) : (mnistConv k).input = mnistAct k := by
  match k with
  | 0 => rfl
  | 1 => rfl
  | 2 => rfl

end TinyMaix

namespace Partition
open Bytes Footprint TinyMaix

section Request

variable {dev : Device} {f : Outcome} {msg : Msg} {s : Service} {h : List (Input × Service)}

/-- The engine as layer `k` of a request finds it. -/
def entering (dev : Device) (u : Service) (k : Nat) : Logged Mem Cell :=
  ((atStart (u.env dev)).layers (u.env dev) k u.eng).2

theorem ships_preprocessed (hs : Shipped s) :
    ((preprocessed dev (received f msg s.fresh)).env dev).Ships := by
  have hm : (preprocessed dev (received f msg s.fresh)).gDecryptedModel = s.gDecryptedModel := by
    have hg := @preprocessed_gate dev (received f msg s.fresh)
    exact (congrArg Gate.model hg).trans (congrArg Gate.model received_gate)
  exact (congrArg (fun mem => window mem 0 mdlData.length) hm).trans hs.model

/-- A layer of the shipped model that is no output. -/
theorem mnist_ends {e : Env} (he : e.Ships) {k : Nat} (hk : k < 5) {P Q R : Mem → Prop}
    (h : Ends P ((atStart e).layers e k) fun _ => Q)
    (hcall : Ends Q ((layerAt e k).call e) fun r m => r = .ok ∧ R m) :
    Ends P ((atStart e).layers e (k + 1)) fun _ => R := by
  have hout : ¬isOut e (layerAt e k).mdl := mt (isOut_layerAt he hk.le).mp hk.ne
  have hp : (layerAt e k).InModel := inModel_atStart.after
  refine layers_ends inModel_atStart (Walk.ok_of fun _ hj => (ok_mnist he).layer ?_) h
    (round_ends hp hcall (noOutput_ends hp hout))
  exact (hj.trans_le hk).trans (by decide)

/-- **The convolutions**: the activations before each determine those after it. -/
theorem convs_ends {e : Env} (he : e.Ships) {image : Nat → Byte} {k : Nat} (hk : k ≤ 3) :
    Ends (fun m => m.Holds (mnistAct 0).data (mnistAct 0).size (mnistVal e.fl image 0))
      ((atStart e).layers e k) fun _ m =>
        m.Holds (mnistAct k).data (mnistAct k).size (mnistVal e.fl image k) := by
  induction k with
  | zero => exact Ends.pure fun _ hm => hm
  | succ k ih =>
      have hk₃ : k < 3 := hk
      have hk₅ : k < 5 := hk₃.trans (by decide)
      have hplain := plain_mnistConv hk₃
      have htype : (layerAt e k).type e = some .conv2d := by
        rw [layerAt_type he hk₅.le]
        exact congrArg some ((by decide : ∀ k < 3, mnistType k = .conv2d) k hk₃)
      have hchans : 0 < (mnistConv k).out.c := (by decide : ∀ k < 3, 0 < (mnistConv k).out.c) k hk₃
      have hcall : Ends (fun m => m.Holds (mnistAct k).data (mnistAct k).size (mnistVal e.fl image k))
          ((layerAt e k).call e) fun r m => r = .ok ∧
            m.Holds (mnistAct (k + 1)).data (mnistAct (k + 1)).size
              (mnistVal e.fl image (k + 1)) := by
        refine conv_ends inModel_atStart.after (Or.inl htype) ?_
        rw [conv_mnist he hk₃, ← input_mnistConv hk₃]
        exact (Conv.layer_ends hplain).weaken fun _ m hm => ⟨hm.1, hm.2.2.congr fun i _ =>
          output_ships he hplain (inside_mnistConv hk₃) hchans i⟩
      exact mnist_ends he hk₅ (ih hk₃.le) hcall

/-- **The image is in place** when the first layer begins, whatever model is loaded. -/
theorem holds_preprocessed (r : Serves dev h s) (hl : s.gModelLoaded = true) :
    let u := preprocessed dev (received f msg s.fresh)
    u.eng.mem.Holds staticMainBuf 784 (mnistVal dev.fl (fun i => u.mnistPic i) 0) := by
  intro u
  have gate := r.inStep.2 hl
  -- the service as `tm_preprocess` finds it
  obtain ⟨t, ht⟩ : ∃ t, t = (received f msg s.fresh).setInUint8 imageMat := ⟨_, rfl⟩
  have hgate : t.gate = s.gate := by
    rw [ht]
    exact received_gate
  have hb : t.gMdl.b.region = .model := by
    have hb : t.gMdl.b = s.gMdl.b := congrArg (fun g : Gate => g.mdl.b) hgate
    rw [hb, gate.b]
    rfl
  have hin : t.gIn.data = staticMainBuf :=
    (congrArg (fun g : Gate => g.input.data) hgate).trans gate.input
  have hpic : u.mnistPic = t.mnistPic := by
    rw [ht]
    rfl
  have himage : t.gInUint8 = imageMat := by
    rw [ht]
    rfl
  have step : ∀ i < outSize imageMat, ∀ m : Mem,
      m.Holds staticMainBuf i (mnistVal dev.fl (fun i => u.mnistPic i) 0) →
      (m.setByte (staticMainBuf.add i) (BitVec.ofInt 8
        (((t.env dev).leAt m 1 (imageMat.data.add i) : Int) - 128))).Holds staticMainBuf (i + 1)
          (mnistVal dev.fl (fun i => u.mnistPic i) 0) := by
    intro i _ m hm
    refine hm.push ?_
    have hbyte : (t.env dev).leAt m 1 (imageMat.data.add i) = (t.mnistPic i).toNat := by
      rw [Env.leAt, Env.leAt, Nat.mul_zero, Nat.add_zero, Env.byteAt]
      exact congrArg (fun j => (t.mnistPic j).toNat) (Int.zero_add _)
    rw [hbyte, mnistVal, hpic]
  have run := (@tmPreprocess_runs (t.env dev) t.gMdl imageMat t.gIn
    (fun i m => m.Holds staticMainBuf i (mnistVal dev.fl (fun i => u.mnistPic i) 0)) hb
    (by rw [hin]; exact step)).ends
  have hu : u = (t.run (tmPreprocess (t.env dev) t.gMdl .uint2int t.gInUint8 t.gIn)).2 := by
    rw [ht]
    rfl
  have heng : u.eng = (tmPreprocess (t.env dev) t.gMdl .uint2int imageMat t.gIn t.eng).2 := by
    rw [congrArg Service.eng hu, Service.run_eng, himage]
  have hsize : outSize imageMat = 784 := by decide
  have key := run t.eng fun i hi => absurd hi (Nat.not_lt_zero i)
  rw [hsize] at key
  rw [heng]
  exact key.2

/-- The picture of a request that brings an image is the image. -/
theorem mnistPic_preprocessed (hd : Delivered f msg) (hn : msg.inSize = 28 * 28) :
    ∀ i < 784, (preprocessed dev (received f msg s.fresh)).mnistPic (i : Nat) =
      msg.inVec.getD i 0 := by
  intro i hi
  have hread : 28 * 28 ≤ f.readLen := by
    rcases hd.image with h | h
    · exact h.2
    · exact absurd (hn.symm.trans h) (by decide)
  have hall : msg.inVec.take (min f.readLen msg.inSize) = msg.inVec := by
    refine List.take_of_length_le ?_
    rw [hn, min_eq_right hread]
    exact hn.le
  have hpic : (preprocessed dev (received f msg s.fresh)).mnistPic =
      splice s.mnistPic 0 msg.inVec := by
    rw [received, if_pos hn, readImage, hall]
    rfl
  have hin := @splice_inside s.mnistPic 0 msg.inVec i (hi.trans_le hn.ge)
  rwa [Int.zero_add, ← hpic] at hin

/-- The image of a request, as it is in its message. -/
theorem holds_image (r : Serves dev h s) (hl : s.gModelLoaded = true) (hd : Delivered f msg)
    (hn : msg.inSize = 28 * 28) :
    (preprocessed dev (received f msg s.fresh)).eng.mem.Holds (mnistAct 0).data (mnistAct 0).size
      (mnistVal dev.fl (fun i => msg.inVec.getD i 0) 0) := by
  have hsize : (mnistAct 0).size = 784 := by decide
  rw [hsize]
  exact (holds_preprocessed r hl).congr fun i hi =>
    congrArg (fun b : Byte => BitVec.ofInt 8 (b.toNat - 128)) (mnistPic_preprocessed hd hn i hi)

/-- **The activations of a request.** -/
theorem entering_holds (r : Serves dev h s) (hs : Shipped s) (hd : Delivered f msg)
    (hn : msg.inSize = 28 * 28) {k : Nat} (hk : k ≤ 3) :
    (entering dev (preprocessed dev (received f msg s.fresh)) k).mem.Holds (mnistAct k).data
      (mnistAct k).size (mnistVal dev.fl (fun i => msg.inVec.getD i 0) k) :=
  convs_ends (ships_preprocessed hs) hk _ (holds_image r hs.loaded hd hn)

end Request

end Partition
