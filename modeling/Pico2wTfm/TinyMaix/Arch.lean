import Pico2wTfm.TinyMaix.Machine

/-!
# TinyMaix — Arch

The inner loops of `arch_cpu.h` in the partition's configuration (`TM_MDL_INT8`, `TM_FASTSCALE`):
the dot products and the requantisation of a sum.

* `tmDotProd_reads`, `tmDotProdPack2_reads`: the loops unrolled by eight compute plain dot
  products and read exactly the operands;
* `tmPostprocessSum_runs`: the rule of the requantisation loop.

`requant` is the value before the narrowing cast and `storeI8` is the cast.
-/

namespace TinyMaix
open Bytes Footprint

/-! ### Dot products -/

/-- `sum += sptr[i]*kptr[i]`. -/
def macStep (e : Env) (sptr kptr : Ptr) (i : Nat) (sum : Int) : Eng Int := do
  let s ← loadI8 e (sptr.add i)
  let k ← loadI8 e (kptr.add i)
  return sum + s * k

/-- `tm_dot_prod`: rounds of eight, then the rest. -/
def tmDotProd (e : Env) (sptr kptr : Ptr) (size : Nat) : Eng Int := do
  let cnt := size / 8 * 8
  let sum ← foldN (cnt / 8) 0 fun i sum =>
    foldN 8 sum fun j => macStep e sptr kptr (8 * i + j)
  foldN (size - cnt) sum fun i => macStep e sptr kptr (cnt + i)

/-- `sum0 += sptr[i]*kptr0[i]; sum1 += sptr[i]*kptr1[i]`. -/
def macStep2 (e : Env) (sptr kptr0 kptr1 : Ptr) (i : Nat) (sums : Int × Int) :
    Eng (Int × Int) := do
  let sum0 ← macStep e sptr kptr0 i sums.1
  let sum1 ← macStep e sptr kptr1 i sums.2
  return (sum0, sum1)

/-- `tm_dot_prod_pack2`: two adjacent kernels at once. -/
def tmDotProdPack2 (e : Env) (sptr kptr : Ptr) (size : Nat) : Eng (Int × Int) := do
  let kptr1 := kptr.add size
  let cnt := size / 8 * 8
  let sums ← foldN (cnt / 8) (0, 0) fun i sums =>
    foldN 8 sums fun j => macStep2 e sptr kptr kptr1 (8 * i + j)
  foldN (size - cnt) sums fun i => macStep2 e sptr kptr kptr1 (cnt + i)

/-- `tm_dot_prod_3x3x1`: a sum of nine products, written out in the source. -/
def tmDotProd3x3x1 (e : Env) (sptr kptr : Ptr) : Eng Int := foldN 9 0 (macStep e sptr kptr)

/-! ### Requantisation -/

/-- The activation functions `tm_postprocess_sum` knows; every other code is the identity. -/
def applyAct (act : Nat) (sumf : Int) : Int :=
  if act = tmActRelu then
    if 0 < sumf then sumf else 0
  else if act = tmActRelu6 then
    let sumf := if 0 < sumf then sumf else 0
    if 6 * 2 ^ tmFastscaleShift < sumf then 6 * 2 ^ tmFastscaleShift else sumf
  else sumf

/-- `(sum << TM_FASTSCALE_SHIFT) / scale`; a C division truncates. -/
def scaleSum (sum scale : Int) : Int := Int.tdiv (sum * 2 ^ tmFastscaleShift) scale

/-- `((sumf*out_s) >> (TM_FASTSCALE_SHIFT+TM_FASTSCALE_SHIFT)) + out_zp`. -/
def requant (sumf outS outZp : Int) : Int :=
  (sumf * outS) >>> (tmFastscaleShift + tmFastscaleShift) + outZp

/-- `tm_postprocess_sum`; `scales` is an index into `sumscale`. -/
def tmPostprocessSum (e : Env) (n : Nat) (sums : Nat → Int) (bs : Ptr) (act : Nat) (outp : Ptr)
    (scales outS outZp : Int) : Eng Unit :=
  forN n fun i => do
    let b ← loadI32 e (bs.add (4 * i : Nat))
    let scale ← loadSumscale (scales + i)
    storeI8 (outp.add i) (requant (applyAct act (scaleSum (sums i + b) scale)) outS outZp)

/-! ### The unrolled loops -/

section Unrolled

variable {α : Type}

/-- Rounds of eight followed by the rest are all the rounds. -/
theorem foldN_unrolled (n : Nat) (a : α) (f : Nat → α → Eng α) :
    (do
      let b ← foldN (n / 8 * 8 / 8) a fun i b => foldN 8 b fun j => f (8 * i + j)
      foldN (n - n / 8 * 8) b fun i => f (n / 8 * 8 + i)) = foldN n a f := by
  have hdiv : n / 8 * 8 / 8 = n / 8 := Nat.mul_div_cancel _ (by decide)
  have hsum : 8 * (n / 8) + (n - 8 * (n / 8)) = n := Nat.add_sub_cancel' (Nat.mul_div_le n 8)
  rw [hdiv, ← foldN_mul, Nat.mul_comm (n / 8) 8, ← foldN_add, hsum]

theorem tmDotProd_eq (e : Env) (sptr kptr : Ptr) (size : Nat) :
    tmDotProd e sptr kptr size = foldN size 0 (macStep e sptr kptr) :=
  foldN_unrolled size 0 (macStep e sptr kptr)

theorem tmDotProdPack2_eq (e : Env) (sptr kptr : Ptr) (size : Nat) :
    tmDotProdPack2 e sptr kptr size =
      foldN size (0, 0) (macStep2 e sptr kptr (kptr.add size)) :=
  foldN_unrolled size (0, 0) (macStep2 e sptr kptr (kptr.add size))

end Unrolled

/-! ### What they compute and access -/

/-- The dot product of the `n` bytes at `s` and at `k`. -/
def Env.dotAt (e : Env) (m : Mem) (s k : Ptr) : Nat → Int
  | 0 => 0
  | n + 1 => e.dotAt m s k n + e.i8At m (s.add n) * e.i8At m (k.add n)

section Specs

variable (e : Env)

theorem macStep_reads (s k : Ptr) (i : Nat) (sum : Int) :
    Reads Mem.val (macStep e s k i sum)
      (span s.region (s.off + i) 1 false ∪ span k.region (k.off + i) 1 false)
      fun m => sum + e.i8At m (s.add i) * e.i8At m (k.add i) :=
  (loadI8_reads e (s.add i)).bind fun a => (loadI8_reads e (k.add i)).map fun b => sum + a * b

theorem foldN_macStep_reads (s k : Ptr) (n : Nat) :
    Reads Mem.val (foldN n 0 (macStep e s k))
      (span s.region s.off n false ∪ span k.region k.off n false)
      fun m => e.dotAt m s k n := by
  refine (Reads.foldN (fun i m => e.dotAt m s k i) (fun _ => rfl)
    (fun i _ sum => macStep_reads e s k i sum) fun _ _ _ => rfl).conseq ?_ fun _ => rfl
  rw [upTo_union, upTo_span_one, upTo_span_one]

theorem tmDotProd_reads (s k : Ptr) (n : Nat) :
    Reads Mem.val (tmDotProd e s k n)
      (span s.region s.off n false ∪ span k.region k.off n false)
      fun m => e.dotAt m s k n := tmDotProd_eq e s k n ▸ foldN_macStep_reads e s k n

theorem tmDotProd3x3x1_reads (s k : Ptr) :
    Reads Mem.val (tmDotProd3x3x1 e s k)
      (span s.region s.off 9 false ∪ span k.region k.off 9 false)
      fun m => e.dotAt m s k 9 := foldN_macStep_reads e s k 9

theorem macStep2_reads (s k k' : Ptr) (i : Nat) (sums : Int × Int) :
    Reads Mem.val (macStep2 e s k k' i sums)
      ((span s.region (s.off + i) 1 false ∪ span k.region (k.off + i) 1 false) ∪
        (span s.region (s.off + i) 1 false ∪ span k'.region (k'.off + i) 1 false))
      fun m => (sums.1 + e.i8At m (s.add i) * e.i8At m (k.add i),
        sums.2 + e.i8At m (s.add i) * e.i8At m (k'.add i)) :=
  (macStep_reads e s k i sums.1).bind fun a => (macStep_reads e s k' i sums.2).map fun b => (a, b)

/-- The two sums of a pack, and its accesses: the source once and the two kernels, which are
adjacent. -/
theorem tmDotProdPack2_reads (s k : Ptr) (n : Nat) :
    Reads Mem.val (tmDotProdPack2 e s k n)
      (span s.region s.off n false ∪ span k.region k.off (n + n) false)
      fun m => (e.dotAt m s k n, e.dotAt m s (k.add n) n) := by
  rw [tmDotProdPack2_eq]
  refine (Reads.foldN (fun i m => (e.dotAt m s k i, e.dotAt m s (k.add n) i)) (fun _ => rfl)
    (fun i _ sums => macStep2_reads e s k (k.add n) i sums) fun _ _ _ => rfl).conseq ?_
    fun _ => rfl
  rw [upTo_union, upTo_union, upTo_union, upTo_span_one, upTo_span_one, upTo_span_one,
    ← span_add k.region k.off n n]
  exact Set.union_union_union_comm .. ▸ by rw [Set.union_self]; rfl

/-- What `tm_postprocess_sum` stores in round `i`. -/
def Env.outAt (e : Env) (m : Mem) (sums : Nat → Int) (bs : Ptr) (act : Nat)
    (scales outS outZp : Int) (i : Nat) : Int :=
  requant (applyAct act (scaleSum (sums i + toI32 (e.leAt m 4 (bs.add (4 * i : Nat))))
    (m.sumscale (scales + i)))) outS outZp

/-- **The requantisation loop.**  An invariant that every store keeps holds after the loop; the
loop reads `n` biases and scales and writes `n` bytes. -/
theorem tmPostprocessSum_runs {J : Nat → Mem → Prop} {n : Nat} {sums : Nat → Int} {bs : Ptr}
    {act : Nat} {outp : Ptr} {scales outS outZp : Int}
    (h : ∀ i < n, ∀ m, J i m → J (i + 1) (m.setByte (outp.add i)
      (BitVec.ofInt 8 (e.outAt m sums bs act scales outS outZp i)))) :
    Runs Mem.val (J 0) (tmPostprocessSum e n sums bs act outp scales outS outZp)
      (span bs.region bs.off (4 * n) false ∪ (span .sumscale scales n false ∪
        span outp.region outp.off n true)) fun _ => J n := by
  refine (Runs.forN (T := fun i => span bs.region (bs.off + (4 * i : Nat)) 4 false ∪
    (span .sumscale (scales + i) 1 false ∪ span outp.region (outp.off + i) 1 true))
    fun i hi => ?_).of_eq ?_
  · refine ((loadI32_reads e _) (J i)).bind fun b => ((loadSumscale_reads _) _).bind fun c =>
      storeI8_runs fun m hm => ?_
    obtain ⟨rfl, rfl, hm⟩ := hm
    exact h i hi m hm
  · rw [upTo_union, upTo_union, upTo_span, upTo_span_one, upTo_span_one]

end Specs

end TinyMaix
