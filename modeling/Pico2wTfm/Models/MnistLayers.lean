import Pico2wTfm.Models.MnistValidQ
import Pico2wTfm.TinyMaix.OutputValues
import Pico2wTfm.TinyMaix.Ranges

/-!
# Models — MnistLayers

The records of the shipped model, as the engine reads them.
-/

namespace TinyMaix
open Bytes Footprint

/-- The engine has the shipped model before it. -/
def Env.Ships (e : Env) : Prop := window e.model 0 mdlData.length = mdlData

/-- A word of the shipped model. -/
def mdlWord (w off : Nat) : Nat := leValue ((mdlData.drop off).take w)

theorem window_ships {e : Env} (h : e.Ships) {off : Int} {n : Nat}
    (hoff : 0 ≤ off ∧ off + n ≤ 2408) :
    window e.model off n = (mdlData.drop off.toNat).take n := by
  obtain ⟨k, rfl⟩ := Int.eq_ofNat_of_zero_le hoff.1
  have hlen : k + n ≤ mdlData.length := by
    rw [length_mdlData]
    omega
  have hw := @window_slice e.model 0 _ _ _ hlen
  rw [show window e.model 0 mdlData.length = mdlData from h, Int.zero_add] at hw
  exact hw.symm

theorem word_ships {e : Env} (h : e.Ships) {w : Nat} {p : Ptr}
    (hoff : 0 ≤ p.off ∧ p.off + w ≤ 2408) : e.word w p = mdlWord w p.off.toNat :=
  congrArg leValue (window_ships h hoff)

/-- A field of the record at `o`. -/
def mdlField (o w j : Nat) : Nat := leValue (((mdlData.drop o).drop j).take w)

theorem field_ships {e : Env} (h : e.Ships) {o w : Nat} {p : Ptr} (j : Nat) (hp : p.off = o + j)
    (hj : o + j + w ≤ 2408) : e.word w p = mdlField o w j := by
  have hnat : p.off.toNat = o + j := by omega
  rw [word_ships h (by omega), hnat, mdlWord, mdlField, List.drop_drop]

/-- The words of the header that are read: magic, type, `out_deq`, number of layers, size of the
sub-buffer. -/
theorem mdl_header : mdlWord 4 0 = tmMdlMagic ∧ mdlWord 1 4 = tmMdlType ∧ mdlWord 1 5 ≠ 0 ∧
    mdlWord 2 10 = 6 ∧ mdlWord 4 16 = 0 := by
  decide +kernel

/-! ### The layers -/

/-- The place of layer `k`. -/
def mnistOffset : Nat → Nat
  | 0 => 64
  | 1 => 216
  | 2 => 648
  | 3 => 2008
  | 4 => 2056
  | _ => 2360

/-- The parameters of the three convolutions: a 3x3 kernel, stride 2, ReLU. -/
def mnistParams : ConvParams := ⟨3, 3, 2, 2, 1, 1, 1, 0, 0, 0, 0, 0⟩

def mainMat (h w c : Nat) (off : Int) : TmMat := ⟨3, h, w, c, ⟨.main, off⟩⟩

def modelPtr (off : Int) : Ptr := ⟨.model, off⟩

def mnistConv : Nat → Conv
  | 0 => ⟨mainMat 28 28 1 0, mainMat 13 13 4 784, modelPtr 160, modelPtr 200, mnistParams,
      modelPtr 144, ⟨0x3b808081, -128, 0x3c84e931, -128⟩⟩
  | 1 => ⟨mainMat 13 13 4 784, mainMat 6 6 8 0, modelPtr 328, modelPtr 616, mnistParams,
      modelPtr 296, ⟨0x3c84e931, -128, 0x3c842aa0, -128⟩⟩
  | _ => ⟨mainMat 6 6 8 0, mainMat 2 2 16 1400, modelPtr 792, modelPtr 1944, mnistParams,
      modelPtr 728, ⟨0x3c842aa0, -128, 0x3d680905, -128⟩⟩

theorem plain_mnistConv {k : Nat} (hk : k < 3) : (mnistConv k).Plain := by
  match k with
  | 0 => constructor <;> decide
  | 1 => constructor <;> decide
  | 2 => constructor <;> decide

def mnistGap : Gap :=
  ⟨mainMat 2 2 16 1400, ⟨1, 1, 1, 16, ⟨.main, 0⟩⟩, ⟨0x3d680905, -128, 0x3cb71a21, -128⟩⟩

theorem plain_mnistGap : mnistGap.Plain := by
  refine ⟨rfl, rfl, rfl, ?_⟩
  decide

def mnistFc : Fc :=
  ⟨⟨1, 1, 1, 16, ⟨.main, 0⟩⟩, ⟨1, 1, 1, 10, ⟨.main, 1448⟩⟩, modelPtr 2160, modelPtr 2320,
    modelPtr 2120, ⟨0x3cb71a21, -128, 0x3e1b06fd, 42⟩⟩

theorem plain_mnistFc : mnistFc.Plain := by
  refine ⟨rfl, rfl, rfl, rfl, rfl, ?_⟩
  decide

def mnistSoftmax : Softmax :=
  ⟨⟨1, 1, 1, 10, ⟨.main, 1448⟩⟩, ⟨1, 1, 1, 10, ⟨.main, 0⟩⟩,
    ⟨0x3e1b06fd, 42, 0x3b800000, -128⟩⟩

theorem plain_mnistSoftmax : mnistSoftmax.Plain := by
  refine ⟨rfl, rfl, ?_⟩
  decide

/-! ### Weights, biases and scales -/

/-- The sum of the absolute values of `n` weights. -/
def mdlWeight (off n : Nat) : Nat :=
  (((mdlData.drop off).take n).map fun b => b.toInt.natAbs).sum

/-- The weights, biases and scales of a convolution are in the model. -/
structure Conv.Inside (L : Conv) : Prop where
  w : 0 ≤ L.w.off ∧ L.w.off + (L.out.c * L.input.c * L.p.maxk : Nat) ≤ 2408
  b : 0 ≤ L.b.off ∧ L.b.off + (4 * L.out.c : Nat) ≤ 2408
  ws : 0 ≤ L.ws.off ∧ L.ws.off + (4 * L.out.c : Nat) ≤ 2408

/-- So are the weights of every channel. -/
theorem Conv.Inside.kernel {L : Conv} (hi : L.Inside) (hp : L.Plain) {c : Nat} (hc : c < L.out.c) :
    0 ≤ (L.kernel c).off ∧ (L.kernel c).off + (L.p.maxk * L.p.chi L.input : Nat) ≤ 2408 := by
  have hkernel : c * L.input.c * L.p.maxk + L.p.maxk * L.input.c ≤
      L.out.c * L.input.c * L.p.maxk := by
    calc c * L.input.c * L.p.maxk + L.p.maxk * L.input.c
        = (c + 1) * L.input.c * L.p.maxk := by ring
      _ ≤ L.out.c * L.input.c * L.p.maxk :=
        Nat.mul_le_mul_right _ (Nat.mul_le_mul_right _ hc)
  have hw := hi.w
  rw [Conv.kernel, Conv.chi_eq hp, Ptr.add_off]
  omega

theorem inside_mnistConv {k : Nat} (hk : k < 3) : (mnistConv k).Inside := by
  match k with
  | 0 => constructor <;> decide
  | 1 => constructor <;> decide
  | 2 => constructor <;> decide

/-- The scale of channel `c`, with the floating-point unit of the target. -/
def mnistScale (L : Conv) (c : Nat) : Int :=
  sumscaleOf ieee754 (BitVec.ofNat 32 (mdlWord 4 (L.ws.off.toNat + 4 * c))) L.q.inS

/-- The bound on the sums of channel `c`. -/
def mnistReach (L : Conv) (c : Nat) : Nat :=
  128 * mdlWeight (L.w.off.toNat + c * L.input.c * L.p.maxk) (L.p.maxk * L.input.c) +
    (toI32 (mdlWord 4 (L.b.off.toNat + 4 * c))).natAbs

/-- The condition of `Conv.Fits`, on the bytes of the model. -/
def MnistFits (L : Conv) (c : Nat) : Prop :=
  mnistScale L c ≠ 0 ∧ mnistReach L c * 2 ^ tmFastscaleShift < 2 ^ 31 ∧
    mnistReach L c * 2 ^ tmFastscaleShift / (mnistScale L c).natAbs *
      (outscaleOf ieee754 L.q.outS).natAbs < 2 ^ 31

instance (L : Conv) (c : Nat) : Decidable (MnistFits L c) := inferInstanceAs (Decidable (_ ∧ _))

/-- `P` holds of the weights, the bias and the scale of every channel, the tables read once. -/
def everyChannel (P : Nat → Nat → Nat → Bool) (w : Nat) :
    Nat → List Byte → List Byte → List Byte → Bool
  | 0, _, _, _ => true
  | n + 1, ws, bs, ss =>
      P ((ws.take w).map fun b => b.toInt.natAbs).sum (leValue (bs.take 4)) (leValue (ss.take 4)) &&
        everyChannel P w n (ws.drop w) (bs.drop 4) (ss.drop 4)

theorem everyChannel_drop {P : Nat → Nat → Nat → Bool} {w n o b s : Nat}
    (h : everyChannel P w n (mdlData.drop o) (mdlData.drop b) (mdlData.drop s)) {c : Nat}
    (hc : c < n) : P (mdlWeight (o + c * w) w) (mdlWord 4 (b + 4 * c)) (mdlWord 4 (s + 4 * c)) := by
  induction n generalizing o b s c with
  | zero => exact absurd hc (Nat.not_lt_zero c)
  | succ n ih =>
      rw [everyChannel, Bool.and_eq_true] at h
      obtain ⟨hhead, htail⟩ := h
      rw [List.drop_drop, List.drop_drop, List.drop_drop] at htail
      match c, hc with
      | 0, _ =>
          rw [Nat.zero_mul]
          exact hhead
      | c + 1, hc =>
          have hw : o + (c + 1) * w = o + w + c * w := by ring
          have hfour : ∀ a, a + 4 * (c + 1) = a + 4 + 4 * c := fun a => by ring
          rw [hw, hfour, hfour]
          exact ih htail (Nat.lt_of_succ_lt_succ hc)

/-- What is checked of a channel: `MnistFits`, and the sign of its scale. -/
def channelFits (L : Conv) (weight bias scale : Nat) : Bool :=
  let reach := 128 * weight + (toI32 bias).natAbs
  let sumscale := sumscaleOf ieee754 (BitVec.ofNat 32 scale) L.q.inS
  0 < sumscale ∧ reach * 2 ^ tmFastscaleShift < 2 ^ 31 ∧
    reach * 2 ^ tmFastscaleShift / sumscale.natAbs *
      (outscaleOf ieee754 L.q.outS).natAbs < 2 ^ 31

/-- Every channel of the convolutions and of the fully connected layer. -/
theorem everyChannel_mnist :
    (∀ k < 3, everyChannel (channelFits (mnistConv k))
      ((mnistConv k).input.c * (mnistConv k).p.maxk) (mnistConv k).out.c
      (mdlData.drop (mnistConv k).w.off.toNat) (mdlData.drop (mnistConv k).b.off.toNat)
      (mdlData.drop (mnistConv k).ws.off.toNat)) ∧
    everyChannel (fun weight bias _ => 128 * weight + (toI32 bias).natAbs < 2 ^ 31) 16 10
      (mdlData.drop 2160) (mdlData.drop 2320) (mdlData.drop 2120) := by
  decide +kernel

theorem channelFits_mnist {k c : Nat} (hk : k < 3) (hc : c < (mnistConv k).out.c) :
    channelFits (mnistConv k)
      (mdlWeight ((mnistConv k).w.off.toNat + c * ((mnistConv k).input.c * (mnistConv k).p.maxk))
        ((mnistConv k).input.c * (mnistConv k).p.maxk))
      (mdlWord 4 ((mnistConv k).b.off.toNat + 4 * c))
      (mdlWord 4 ((mnistConv k).ws.off.toNat + 4 * c)) :=
  everyChannel_drop (everyChannel_mnist.1 k hk) hc

/-- The scales are positive, -/
theorem scale_mnist {k c : Nat} (hk : k < 3) (hc : c < (mnistConv k).out.c) :
    0 < mnistScale (mnistConv k) c :=
  (of_decide_eq_true (channelFits_mnist hk hc)).1

/-- and every channel fits. -/
theorem mnistFits_all : ∀ k < 3, ∀ c < (mnistConv k).out.c, MnistFits (mnistConv k) c := by
  intro k hk c hc
  obtain ⟨-, hreach⟩ := of_decide_eq_true (channelFits_mnist hk hc)
  rw [← Nat.mul_assoc, Nat.mul_comm (mnistConv k).input.c] at hreach
  exact ⟨(scale_mnist hk hc).ne', hreach⟩

section Channels

variable {e : Env} (he : e.Ships)
include he

theorem absWeight_ships {k : Ptr} {n : Nat} (hoff : 0 ≤ k.off ∧ k.off + n ≤ 2408) :
    e.absWeight k n = mdlWeight k.off.toNat n := by
  rw [Env.absWeight, window_ships he hoff, mdlWeight]

/-- Word `c` of a table of the model. -/
theorem entry_ships {p : Ptr} {n c : Nat} (hp : 0 ≤ p.off ∧ p.off + (4 * n : Nat) ≤ 2408)
    (hc : c < n) : e.word 4 (p.add (4 * c : Nat)) = mdlWord 4 (p.off.toNat + 4 * c) := by
  have hoff : (p.add (4 * c : Nat)).off.toNat = p.off.toNat + 4 * c := by
    rw [Ptr.add_off]
    omega
  rw [← hoff]
  refine word_ships he ?_
  rw [Ptr.add_off]
  omega

theorem reach_ships {L : Conv} (hp : L.Plain) (hi : L.Inside) {c : Nat} (hc : c < L.out.c) :
    L.reach e c = mnistReach L c := by
  have hw := hi.w
  have hoff : (L.kernel c).off.toNat = L.w.off.toNat + c * L.input.c * L.p.maxk := by
    rw [Conv.kernel, Conv.chi_eq hp, Ptr.add_off]
    omega
  have hweight : e.absWeight (L.kernel c) (L.p.maxk * L.input.c) =
      mdlWeight (L.w.off.toNat + c * L.input.c * L.p.maxk) (L.p.maxk * L.input.c) := by
    rw [← hoff]
    exact absWeight_ships he (Conv.chi_eq hp ▸ hi.kernel hp hc)
  rw [Conv.reach, Conv.chi_eq hp, hweight, Conv.bias, Env.i32, entry_ships he hi.b hc, mnistReach]

/-- **Every channel of the shipped model fits.** -/
theorem fits_mnistConv (hfl : e.fl = ieee754) {k c : Nat} (hk : k < 3)
    (hc : c < (mnistConv k).out.c) : (mnistConv k).Fits e c := by
  obtain ⟨h₁, h₂, h₃⟩ := mnistFits_all k hk c hc
  have hscale : (mnistConv k).scale e c = mnistScale (mnistConv k) c := by
    rw [Conv.scale, hfl, Env.f32, entry_ships he (inside_mnistConv hk).ws hc, mnistScale]
  have hreach := reach_ships he (plain_mnistConv hk) (inside_mnistConv hk) hc
  have hout : (mnistConv k).outscale e = outscaleOf ieee754 (mnistConv k).q.outS := by
    rw [Conv.outscale, hfl]
  constructor
  · rwa [hscale]
  · rwa [hreach]
  · rwa [hreach, hscale, hout]

/-- So does every channel of its fully connected layer. -/
theorem fits_mnistFc {c : Nat} (hc : c < 10) : mnistFc.Fits e c := by
  have hweight : e.absWeight (mnistFc.kernel c) 16 = mdlWeight (2160 + c * 16) 16 := by
    have hoff : (mnistFc.kernel c).off = 2160 + (c * 16 : Nat) := rfl
    have hnat : (mnistFc.kernel c).off.toNat = 2160 + c * 16 := by
      rw [hoff]
      omega
    rw [← hnat]
    refine absWeight_ships he ?_
    rw [hoff]
    omega
  have hbias : e.word 4 (mnistFc.b.add (4 * c : Nat)) = mdlWord 4 (2320 + 4 * c) :=
    entry_ships he (n := 10) (by decide) hc
  have key := of_decide_eq_true (everyChannel_drop everyChannel_mnist.2 hc)
  rw [← hweight, ← hbias] at key
  exact key

end Channels

end TinyMaix
