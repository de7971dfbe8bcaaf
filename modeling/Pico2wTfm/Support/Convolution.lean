import Mathlib.Algebra.BigOperators.Intervals
import Mathlib.Algebra.BigOperators.Ring.Finset

/-!
# Support — Convolution

The convolution of an image with a kernel, over any semiring.  An image is a function of a row, a
column and a channel; it goes on beyond its borders, with one value everywhere (`padded`).  The taps
of a kernel are numbered channel by channel and row by row when it is stored, and the sum over them
in this order is the sum over channels, rows and columns (`sum_taps`).
-/

namespace Convolution
open Finset

/-! ### Sums in the order of storage -/

section Sums

variable {M : Type*} [AddCommMonoid M]

/-- Numbers below `a * b` are those of `a` rows of `b`. -/
theorem sum_range_mul (a b : ℕ) (f : ℕ → M) :
    ∑ k ∈ range (a * b), f k = ∑ i ∈ range a, ∑ j ∈ range b, f (i * b + j) := by
  induction a with
  | zero => rw [Nat.zero_mul, sum_range_zero, sum_range_zero]
  | succ a ih => rw [Nat.succ_mul, sum_range_add, sum_range_succ, ih]

theorem div_row {b i j : ℕ} (hj : j < b) : (i * b + j) / b = i := by
  rw [Nat.mul_comm, Nat.mul_add_div (Nat.zero_lt_of_lt hj), Nat.div_eq_of_lt hj, Nat.add_zero]

theorem mod_row {b i j : ℕ} (hj : j < b) : (i * b + j) % b = j := by
  rw [Nat.mul_comm, Nat.mul_add_mod, Nat.mod_eq_of_lt hj]

/-- **The taps of a kernel in their order.** -/
theorem sum_taps (cs kh kw : ℕ) (f : ℕ → ℕ → ℕ → M) :
    ∑ t ∈ range (cs * (kh * kw)), f (t / (kh * kw)) (t % (kh * kw) / kw) (t % (kh * kw) % kw) =
      ∑ c ∈ range cs, ∑ i ∈ range kh, ∑ j ∈ range kw, f c i j := by
  rw [sum_range_mul]
  refine sum_congr rfl fun c _ => ?_
  rw [sum_range_mul]
  refine sum_congr rfl fun i hi => sum_congr rfl fun j hj => ?_
  have hj := mem_range.mp hj
  have hk : i * kw + j < kh * kw := by
    rw [Nat.mul_comm i]
    exact Nat.mul_add_lt_mul_of_lt_of_lt (mem_range.mp hi) hj
  rw [div_row hk, mod_row hk, div_row hj, mod_row hj]

end Sums

/-! ### Convolutions -/

section Padded

variable {R S : Type*}

/-- The pixel `(y, x)` of an image of `h` rows and `w` columns, which has `z` around it. -/
def padded (h w : ℕ) (z : R) (image : ℕ → ℕ → ℕ → R) (y x : ℤ) (c : ℕ) : R :=
  if 0 ≤ y ∧ y < h ∧ 0 ≤ x ∧ x < w then image y.toNat x.toNat c else z

theorem map_padded (f : R → S) (h w : ℕ) (z : R) (image : ℕ → ℕ → ℕ → R) (y x : ℤ) (c : ℕ) :
    f (padded h w z image y x c) = padded h w (f z) (fun y x c => f (image y x c)) y x c :=
  apply_ite f _ _ _

end Padded

section Conv

variable {R : Type*} [Semiring R]

/-- **The convolution** at `(y, x)`, with `cs` channels and `kh` by `kw` taps. -/
def conv (cs kh kw : ℕ) (image : ℤ → ℤ → ℕ → R) (kernel : ℕ → ℕ → ℕ → R) (y x : ℤ) : R :=
  ∑ c ∈ range cs, ∑ i ∈ range kh, ∑ j ∈ range kw, image (y + i) (x + j) c * kernel c i j

/-- One sum over all taps. -/
theorem conv_eq_sum_taps (cs kh kw : ℕ) (image : ℤ → ℤ → ℕ → R) (kernel : ℕ → ℕ → ℕ → R)
    (y x : ℤ) : conv cs kh kw image kernel y x = ∑ t ∈ range (cs * (kh * kw)),
      image (y + (t % (kh * kw) / kw : ℕ)) (x + (t % (kh * kw) % kw : ℕ)) (t / (kh * kw)) *
        kernel (t / (kh * kw)) (t % (kh * kw) / kw) (t % (kh * kw) % kw) :=
  (sum_taps cs kh kw fun c i j => image (y + i) (x + j) c * kernel c i j).symm

end Conv

end Convolution
