import Pico2wTfm.TinyMaix.LayerValues

/-!
# TinyMaix — Ranges

The integers that a convolution and a fully connected layer compute with.  The inputs are bytes, so a
dot product is at most 128 times the sum of its weights (`natAbs_dotAt_le`), and the rest of the
pipeline is bounded from there: `Conv.Fits` is a condition on the weights, the bias and the scales of
one channel under which nothing leaves the range of `int32_t`, whatever the input.
-/

namespace TinyMaix
open Bytes Footprint

/-- The range of `int32_t`. -/
def Int32 (n : Int) : Prop := -2 ^ 31 ≤ n ∧ n < 2 ^ 31

theorem int32_of_natAbs {n : Int} (h : n.natAbs < 2 ^ 31) : Int32 n := by
  unfold Int32
  omega

/-- The sum of the absolute values of the `n` weights at `k`. -/
def Env.absWeight (e : Env) (k : Ptr) (n : Nat) : Nat :=
  ((Bytes.window e.model k.off n).map fun b => b.toInt.natAbs).sum

section Weights

variable {e : Env} {m : Mem} {s k : Ptr}

theorem absWeight_succ (n : Nat) :
    e.absWeight k (n + 1) = e.absWeight k n + (e.model (k.off + n)).toInt.natAbs := by
  rw [Env.absWeight, Env.absWeight, Bytes.window, Bytes.window, List.range_succ, List.map_append,
    List.map_append, List.sum_append]
  rfl

theorem absWeight_mono {i n : Nat} (h : i ≤ n) : e.absWeight k i ≤ e.absWeight k n := by
  induction n with
  | zero => rw [Nat.le_zero.mp h]
  | succ n ih =>
      rcases Nat.le_succ_iff.mp h with h | rfl
      · rw [absWeight_succ]
        exact (ih h).trans (Nat.le_add_right _ _)
      · exact le_rfl

theorem natAbs_byte (b : Byte) : b.toInt.natAbs ≤ 128 := by
  have h₁ := BitVec.toInt_lt (x := b)
  have h₂ := BitVec.le_toInt (x := b)
  omega

/-- **A dot product** is at most 128 times the sum of its weights. -/
theorem natAbs_dotAt_le (hk : k.region = .model) (n : Nat) :
    (e.dotAt m s k n).natAbs ≤ 128 * e.absWeight k n := by
  induction n with
  | zero => exact Nat.zero_le _
  | succ n ih =>
      have hweight : e.i8At m (k.add n) = (e.model (k.off + n)).toInt := by
        rw [Env.i8At, Env.byteAt, Ptr.add_region, hk]
        rfl
      have hprod : (e.i8At m (s.add n) * e.i8At m (k.add n)).natAbs ≤
          128 * (e.model (k.off + n)).toInt.natAbs := by
        rw [Int.natAbs_mul, hweight]
        exact Nat.mul_le_mul_right _ (natAbs_byte _)
      calc (e.dotAt m s k (n + 1)).natAbs
          ≤ (e.dotAt m s k n).natAbs + (e.i8At m (s.add n) * e.i8At m (k.add n)).natAbs :=
            Int.natAbs_add_le _ _
        _ ≤ 128 * e.absWeight k n + 128 * (e.model (k.off + n)).toInt.natAbs :=
            Nat.add_le_add ih hprod
        _ = 128 * e.absWeight k (n + 1) := by rw [absWeight_succ, Nat.mul_add]

end Weights

/-! ### A channel of a convolution -/

/-- No activation function makes a value larger. -/
theorem natAbs_applyAct_le (act : Nat) (n : Int) : (applyAct act n).natAbs ≤ n.natAbs := by
  have h6 : ((6 * 2 ^ tmFastscaleShift : Int)) = 1536 := by decide
  unfold applyAct
  rw [h6]
  dsimp only
  split_ifs <;> omega

theorem natAbs_scaleSum (n scale : Int) :
    (scaleSum n scale).natAbs = n.natAbs * 2 ^ tmFastscaleShift / scale.natAbs := by
  rw [scaleSum, Int.natAbs_tdiv, Int.natAbs_mul]
  rfl

namespace Conv

section Channel

variable (e : Env) (L : Conv) (c : Nat) (m : Mem)

/-- The dot product of the first `n` taps, as `tm_dot_prod` computes it from `sbuf`. -/
def dot (n : Nat) : Int := e.dotAt m ⟨.sbuf, 0⟩ (L.kernel c) n

/-- The dot product and the bias. -/
def biased : Int :=
  L.dot e c m (L.p.maxk * L.p.chi L.input) + toI32 (e.leAt m 4 (L.b.add (4 * c : Nat)))

/-- **Nothing overflows at a sum**, and nothing is divided by zero. -/
structure Safe : Prop where
  scale : m.sumscale c ≠ 0
  dot : ∀ n ≤ L.p.maxk * L.p.chi L.input, Int32 (L.dot e c m n)
  biased : Int32 (L.biased e c m)
  shifted : Int32 (L.biased e c m * 2 ^ tmFastscaleShift)
  quotient : Int32 (scaleSum (L.biased e c m) (m.sumscale c))
  scaled : Int32 (applyAct L.p.act (scaleSum (L.biased e c m) (m.sumscale c)) * L.outscale e)

/-- A bound on the sums of channel `c`, bias included. -/
def reach : Nat := 128 * e.absWeight (L.kernel c) (L.p.maxk * L.p.chi L.input) + (L.bias e c).natAbs

/-- The condition on the weights, the bias and the scales. -/
structure Fits : Prop where
  scale : L.scale e c ≠ 0
  shifted : L.reach e c * 2 ^ tmFastscaleShift < 2 ^ 31
  scaled : L.reach e c * 2 ^ tmFastscaleShift / (L.scale e c).natAbs * (L.outscale e).natAbs < 2 ^ 31

end Channel

variable {e : Env} {L : Conv} {v : Nat → Byte} {y x c : Nat} {m : Mem}

/-- **What fits is safe**, whatever the input. -/
theorem Fits.safe (hp : L.Plain) (hc : c < L.out.c) (h : L.Fits e c)
    (hm : Summing e L v y x c m) : L.Safe e c m := by
  have hscale : m.sumscale c = L.scale e c := hm.1.scales c hc
  have hbias : toI32 (e.leAt m 4 (L.b.add (4 * c : Nat))) = L.bias e c := by
    rw [leAt_model (p := L.b.add (4 * c : Nat)) hp.b]
    rfl
  have hdot : ∀ n, (L.dot e c m n).natAbs ≤ 128 * e.absWeight (L.kernel c) n :=
    natAbs_dotAt_le (k := L.kernel c) hp.w
  have hbiased : (L.biased e c m).natAbs ≤ L.reach e c := by
    rw [biased, hbias, reach]
    exact (Int.natAbs_add_le _ _).trans (Nat.add_le_add_right (hdot _) _)
  have hshifted : (L.biased e c m * 2 ^ tmFastscaleShift).natAbs ≤
      L.reach e c * 2 ^ tmFastscaleShift := by
    rw [Int.natAbs_mul]
    exact Nat.mul_le_mul_right _ hbiased
  have hquotient : (scaleSum (L.biased e c m) (m.sumscale c)).natAbs ≤
      L.reach e c * 2 ^ tmFastscaleShift / (L.scale e c).natAbs := by
    rw [natAbs_scaleSum, hscale]
    exact Nat.div_le_div_right (Nat.mul_le_mul_right _ hbiased)
  have hreach : L.reach e c < 2 ^ 31 :=
    (Nat.le_mul_of_pos_right _ (by decide)).trans_lt h.shifted
  constructor
  · rw [hscale]
    exact h.scale
  · intro n hn
    have hle : 128 * e.absWeight (L.kernel c) n ≤ L.reach e c :=
      (Nat.mul_le_mul_left _ (absWeight_mono hn)).trans (Nat.le_add_right _ _)
    exact int32_of_natAbs (((hdot n).trans hle).trans_lt hreach)
  · exact int32_of_natAbs (hbiased.trans_lt hreach)
  · exact int32_of_natAbs (hshifted.trans_lt h.shifted)
  · exact int32_of_natAbs ((hquotient.trans (Nat.div_le_self _ _)).trans_lt h.shifted)
  · refine int32_of_natAbs (lt_of_le_of_lt ?_ h.scaled)
    rw [Int.natAbs_mul]
    exact Nat.mul_le_mul_right _ ((natAbs_applyAct_le _ _).trans hquotient)

end Conv

/-! ### A channel of a fully connected layer -/

namespace Fc

variable (e : Env) (L : Fc) (c : Nat) (m : Mem)

/-- The dot product of the first `n` inputs. -/
def dot (n : Nat) : Int := e.dotAt m L.input.data (L.kernel c) n

/-- **Nothing overflows at a sum.** -/
structure Safe : Prop where
  dot : ∀ n ≤ L.input.c, Int32 (L.dot e c m n)
  biased : Int32 (L.dot e c m L.input.c + toI32 (e.leAt m 4 (L.b.add (4 * c : Nat))))

/-- The condition on the weights and the bias. -/
def Fits : Prop := 128 * e.absWeight (L.kernel c) L.input.c + (L.bias e c).natAbs < 2 ^ 31

variable {e L c m}

theorem Fits.safe (hp : L.Plain) (h : L.Fits e c) : L.Safe e c m := by
  have hbias : toI32 (e.leAt m 4 (L.b.add (4 * c : Nat))) = L.bias e c := by
    rw [leAt_model (p := L.b.add (4 * c : Nat)) hp.b]
    rfl
  have hdot : ∀ n, (L.dot e c m n).natAbs ≤ 128 * e.absWeight (L.kernel c) n :=
    natAbs_dotAt_le (k := L.kernel c) hp.w
  constructor
  · intro n hn
    have hle : 128 * e.absWeight (L.kernel c) n ≤ 128 * e.absWeight (L.kernel c) L.input.c :=
      Nat.mul_le_mul_left _ (absWeight_mono hn)
    exact int32_of_natAbs (((hdot n).trans hle).trans_lt ((Nat.le_add_right _ _).trans_lt h))
  · rw [hbias]
    exact int32_of_natAbs (((Int.natAbs_add_le _ _).trans (Nat.add_le_add_right (hdot _) _)).trans_lt h)

end Fc

end TinyMaix
