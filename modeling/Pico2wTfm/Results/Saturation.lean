import Pico2wTfm.Partition.ShippedRun
import Pico2wTfm.Results.ClientImages

/-!
# Results — Saturation

`tm_postprocess_sum` casts a requantised value to `int8_t` and does not clamp it.  ReLU keeps it from
being too small, nothing keeps it from being too large: a sum that is large enough is stored modulo
256, so that a strong response becomes a negative activation.  `tml_softmax` takes care that its
largest value does not.

* `saturates_iff`: when every activation of a request is clamped, as a bound on the weighted sums of
  the windows of each convolution.
-/

namespace TinyMaix
open Bytes Footprint

/-- `r`, clamped to the range of `int8_t`. -/
def clampI8 (r : Int) : Int := max (-128) (min 127 r)

/-- A value that is not too small is narrowed as it is clamped if it is not too large, or just below
a multiple of 256 behind that. -/
theorem narrow_eq_clamp_iff {n : Int} (hn : 0 ≤ n) :
    (BitVec.ofInt 8 (n - 128)).toInt = clampI8 (n - 128) ↔
      n < 256 ∨ ∃ j, 1 ≤ j ∧ 256 * j + 255 ≤ n ∧ n < 256 * j + 256 := by
  rw [BitVec.toInt_ofInt, Int.bmod_def, clampI8]
  constructor
  · intro h
    by_cases hlt : n < 256
    · exact Or.inl hlt
    · refine Or.inr ⟨n / 256, ?_, ?_, ?_⟩ <;> omega
  · rintro (h | ⟨j, h₁, h₂, h₃⟩) <;> omega

/-! ### Levels -/

/-- The scaled sum with which a channel of scale `s` gets to level `k`, if the layer has scale `o`:
a multiple of `s`, by a quotient that is rounded up. -/
def cut (s o k : Int) : Int := s * -(-(k * 2 ^ 16) / o)

/-- The quantised value of a scaled sum `n`, counted from the zero point. -/
def level (s o n : Int) : Int := max 0 (n / s) * o / 2 ^ 16

section Levels

variable {s o n k : Int} (hs : 0 < s) (ho : 0 < o)
include hs ho

theorem le_level_iff (hk : 0 < k) : k ≤ level s o n ↔ cut s o k ≤ n := by
  have hround : k * 2 ^ 16 ≤ max 0 (n / s) * o ↔ -(-(k * 2 ^ 16) / o) ≤ max 0 (n / s) := by
    rw [neg_le, Int.le_ediv_iff_mul_le ho, Int.neg_mul, neg_le_neg_iff]
  have hpos : 0 < -(-(k * 2 ^ 16) / o) := by
    refine neg_pos.mpr (Int.ediv_neg_of_neg_of_pos ?_ ho)
    omega
  have hmax : -(-(k * 2 ^ 16) / o) ≤ max 0 (n / s) ↔ -(-(k * 2 ^ 16) / o) ≤ n / s := by
    rw [le_max_iff, or_iff_right (not_le.mpr hpos)]
  rw [level, Int.le_ediv_iff_mul_le (by decide), hround, hmax, Int.le_ediv_iff_mul_le hs, cut,
    Int.mul_comm]

theorem level_lt_iff (hk : 0 < k) : level s o n < k ↔ n < cut s o k := by
  rw [← not_le, ← not_le, le_level_iff hs ho hk]

omit hs in
theorem level_nonneg : 0 ≤ level s o n :=
  Int.ediv_nonneg (Int.mul_nonneg (le_max_left _ _) ho.le) (by decide)

omit ho in
/-- The value that the code computes. -/
theorem requant_relu : requant (applyAct tmActRelu (Int.tdiv n s)) o (-128) =
    level s o n - 128 := by
  have hq : applyAct tmActRelu (Int.tdiv n s) = max 0 (n / s) := by
    rw [applyAct, if_pos rfl]
    by_cases hn : 0 ≤ n
    · have hdiv : 0 ≤ n / s := Int.ediv_nonneg hn hs.le
      rw [Int.tdiv_eq_ediv_of_nonneg hn, max_eq_right hdiv]
      by_cases hpos : 0 < n / s
      · exact if_pos hpos
      · rw [if_neg hpos]
        omega
    · have hdiv : n / s ≤ 0 := (Int.ediv_neg_of_neg_of_pos (not_le.mp hn) hs).le
      have hneg : 0 ≤ Int.tdiv (-n) s := Int.tdiv_nonneg (by omega) hs.le
      have htdiv : Int.tdiv n s ≤ 0 := by
        rw [Int.neg_tdiv] at hneg
        omega
      rw [max_eq_left hdiv, if_neg (not_lt.mpr htdiv)]
  rw [requant, hq, level, Int.shiftRight_eq_div_pow]
  rfl

end Levels

/-- A weighted sum that a channel of scale `s` does not wrap, in a layer of scale `o`: it is below the
first level that is too large, or wraps to the largest value. -/
def Unwrapped (s o sum : Int) : Prop :=
  sum * 2 ^ tmFastscaleShift < cut s o 256 ∨ ∃ j, 1 ≤ j ∧
    cut s o (256 * j + 255) ≤ sum * 2 ^ tmFastscaleShift ∧
    sum * 2 ^ tmFastscaleShift < cut s o (256 * j + 256)

theorem unwrapped_iff {s o sum : Int} (hs : 0 < s) (ho : 0 < o) :
    (BitVec.ofInt 8 (requant (applyAct tmActRelu (scaleSum sum s)) o (-128))).toInt =
      clampI8 (requant (applyAct tmActRelu (scaleSum sum s)) o (-128)) ↔ Unwrapped s o sum := by
  rw [scaleSum, requant_relu hs, narrow_eq_clamp_iff (level_nonneg ho),
    level_lt_iff hs ho (by decide), Unwrapped]
  refine or_congr_right (exists_congr fun j => and_congr_right fun hj => ?_)
  rw [le_level_iff hs ho (by omega), level_lt_iff hs ho (by omega)]

end TinyMaix

namespace Partition
open Bytes Footprint TinyMaix

/-- The weighted sum of a window of the input of convolution `k`, and the bias. -/
def weighted (k : Nat) (v : Nat → Byte) (y x c : Nat) : Int :=
  (mnistConv k).sum (mnistEnv ieee754) v y x c + (mnistConv k).bias (mnistEnv ieee754) c

/-- No window of the input of convolution `k` has a sum that wraps. -/
def Moderate (image : Nat → Byte) (k : Nat) : Prop :=
  ∀ y < (mnistConv k).out.h, ∀ x < (mnistConv k).out.w, ∀ c < (mnistConv k).out.c,
    Unwrapped (mnistScale (mnistConv k) c) (outscaleOf ieee754 (mnistConv k).q.outS)
      (weighted k (mnistVal ieee754 image k) y x c)

/-- Every activation that layer `k` of a request writes is the clamped value. -/
def Saturates (dev : Device) (u : Service) (k : Nat) : Prop :=
  let e := u.env dev
  let L := (layerAt e k).conv e
  let v := fun i : Nat => (entering dev u k).mem.bytes L.input.data.region (L.input.data.off + i)
  ∀ y < L.out.h, ∀ x < L.out.w, ∀ c < L.out.c,
    ((entering dev u (k + 1)).mem.bytes L.out.data.region
      (L.out.data.off + L.outIndex y x c)).toInt = clampI8 (L.raw e v y x c)

/-- The scales of the shipped model are positive, and its convolutions have ReLU. -/
theorem pos_mnistScale : ∀ k < 3, 0 < outscaleOf ieee754 (mnistConv k).q.outS ∧
    ∀ c < (mnistConv k).out.c, 0 < mnistScale (mnistConv k) c := by
  intro k hk
  have hout : ∀ k < 3, 0 < outscaleOf ieee754 (mnistConv k).q.outS := by decide +kernel
  exact ⟨hout k hk, fun c hc => scale_mnist hk hc⟩

theorem relu_mnistConv : ∀ k < 3, (mnistConv k).p.act = tmActRelu ∧
    (mnistConv k).q.outZp = -128 := by
  decide

/-- **One activation.** -/
theorem activation_iff {k : Nat} (hk : k < 3) {v : Nat → Byte} {y x c : Nat}
    (hc : c < (mnistConv k).out.c) :
    (BitVec.ofInt 8 ((mnistConv k).raw (mnistEnv ieee754) v y x c)).toInt =
      clampI8 ((mnistConv k).raw (mnistEnv ieee754) v y x c) ↔
    Unwrapped (mnistScale (mnistConv k) c) (outscaleOf ieee754 (mnistConv k).q.outS)
      (weighted k v y x c) := by
  obtain ⟨hout, hscale⟩ := pos_mnistScale k hk
  obtain ⟨hact, hzp⟩ := relu_mnistConv k hk
  have hs : (mnistConv k).scale (mnistEnv ieee754) c = mnistScale (mnistConv k) c := by
    rw [Conv.scale, Env.f32, entry_ships (ships_mnistEnv _) (inside_mnistConv hk).ws hc, mnistScale]
    rfl
  rw [← unwrapped_iff (hscale c hc) hout, Conv.raw, Conv.sumf, hact, hzp, hs]
  rfl

section Request

variable {dev : Device} {f : Outcome} {msg : Msg} {s : Service} {h : List (Input × Service)}

/-- One layer. -/
theorem saturates_layer_iff (r : Serves dev h s) (hs : Shipped s) (hfl : dev.fl = ieee754)
    (hd : Delivered f msg) (hn : msg.inSize = 28 * 28) {k : Nat} (hk : k < 3) :
    Saturates dev (preprocessed dev (received f msg s.fresh)) k ↔
      Moderate (fun i => msg.inVec.getD i 0) k := by
  obtain ⟨u, hu⟩ : ∃ u, u = preprocessed dev (received f msg s.fresh) := ⟨_, rfl⟩
  have he : (u.env dev).Ships := hu ▸ ships_preprocessed hs
  have hplain := plain_mnistConv hk
  have hval : ∀ k ≤ 3, (entering dev u k).mem.Holds (mnistAct k).data (mnistAct k).size
      (mnistVal ieee754 (fun i => msg.inVec.getD i 0) k) := by
    intro k hk
    rw [← hfl, hu]
    exact entering_holds r hs hd hn hk
  -- what is in the memory before and after the layer
  have hin : (entering dev u k).mem.Holds (mnistConv k).input.data (mnistConv k).input.size
      (mnistVal ieee754 (fun i => msg.inVec.getD i 0) k) := by
    rw [input_mnistConv hk]
    exact hval k hk.le
  have hout : (entering dev u (k + 1)).mem.Holds (mnistConv k).out.data (mnistConv k).out.size
      ((mnistConv k).output (mnistEnv ieee754)
        (mnistVal ieee754 (fun i => msg.inVec.getD i 0) k)) := hval (k + 1) hk
  rw [← hu]
  simp only [Saturates, Moderate, conv_mnist he hk]
  refine forall₂_congr fun y hy => forall₂_congr fun x hx => forall₂_congr fun c hc => ?_
  have hraw : (mnistConv k).raw (u.env dev) (fun i => (entering dev u k).mem.bytes
      (mnistConv k).input.data.region ((mnistConv k).input.data.off + i)) y x c =
      (mnistConv k).raw (mnistEnv ieee754) (mnistVal ieee754 (fun i => msg.inVec.getD i 0) k)
        y x c := by
    rw [raw_ships he hplain (inside_mnistConv hk) hc, show (u.env dev).fl = ieee754 from hfl]
    exact Conv.raw_congr hplain hy hx hin
  have hbyte := (hout _ (Conv.outIndex_lt hy hx hc)).trans (Conv.output_outIndex _ _ hx hc)
  rw [hbyte, hraw, activation_iff hk hc]

/-- **When the activations of a request are clamped**: no window has a sum that wraps. -/
theorem saturates_iff (r : Serves dev h s) (hs : Shipped s) (hfl : dev.fl = ieee754)
    (hd : Delivered f msg) (hn : msg.inSize = 28 * 28) :
    (∀ k < 3, Saturates dev (preprocessed dev (received f msg s.fresh)) k) ↔
      ∀ k < 3, Moderate (fun i => msg.inVec.getD i 0) k :=
  forall₂_congr fun _ hk => saturates_layer_iff r hs hfl hd hn hk

end Request

/-- A white corner on black. -/
def cornerImage : List Byte :=
  List.replicate 28 0 ++ [255, 255, 0] ++ List.replicate 25 0 ++ [255, 255, 255] ++
    List.replicate 725 0

/-- A request for it. -/
def cornerRequest : Input := inferenceRequest 784 cornerImage

theorem inSize_cornerRequest : cornerRequest.2.inSize = 28 * 28 := by decide +kernel

theorem delivered_cornerRequest : Delivered cornerRequest.1 cornerRequest.2 :=
  ⟨rfl, rfl, Or.inl ⟨inSize_cornerRequest, le_rfl⟩⟩

/-- The activations for the corner. -/
theorem saturates_iff_corner :
    (∀ k < 3, Saturates mnistDevice (preprocessed mnistDevice
      (received cornerRequest.1 cornerRequest.2 mnistLoaded.fresh)) k) ↔
      ∀ k < 3, Moderate (fun i => cornerRequest.2.inVec.getD i 0) k :=
  saturates_iff serves_mnistLoaded shipped_mnistLoaded rfl delivered_cornerRequest
    inSize_cornerRequest

/-- **A strong response becomes a negative activation**: channel 3 of the first pixel is 142, and is
stored as -114. -/
theorem corner_wraps : Serves mnistDevice [(loadRequest, mnistLoaded)] mnistLoaded ∧
    Shipped mnistLoaded ∧ Delivered cornerRequest.1 cornerRequest.2 ∧
    cornerRequest.2.inSize = 28 * 28 ∧
    ¬∀ k < 3, Saturates mnistDevice (preprocessed mnistDevice
      (received cornerRequest.1 cornerRequest.2 mnistLoaded.fresh)) k := by
  refine ⟨serves_mnistLoaded, shipped_mnistLoaded, delivered_cornerRequest, inSize_cornerRequest,
    fun hall => ?_⟩
  have first := (saturates_layer_iff serves_mnistLoaded shipped_mnistLoaded rfl
    delivered_cornerRequest inSize_cornerRequest (by decide : 0 < 3)).mp (hall 0 (by decide))
  have pixel := (activation_iff (by decide : 0 < 3) (by decide)).mpr
    (first 0 (by decide) 0 (by decide) 3 (by decide))
  have value : (mnistConv 0).raw (mnistEnv ieee754)
      (mnistVal ieee754 (fun i => cornerRequest.2.inVec.getD i 0) 0) 0 0 3 = 142 := by
    decide +kernel
  rw [value] at pixel
  exact absurd pixel (by decide)

end Partition
