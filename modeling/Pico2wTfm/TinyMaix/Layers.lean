import Pico2wTfm.TinyMaix.Conv

/-!
# TinyMaix — Layers

The other layers of `tm_layers.c`: global average pooling, the fully connected layer, softmax,
reshape and addition.  Each comes with the list of what it touches (`gapStretches`, …), and with
the theorem that the list is exact and the result `TM_OK` (`tmlGap_runs`, …); none of these
layers checks anything.

A `float` is stored into an `int8_t` through `int32_t`: the conversion saturates there and the
narrowing keeps the low eight bits.
-/

namespace TinyMaix
open Bytes Footprint

/-! ### The layers -/

/-- `tml_gap`. -/
def tmlGap (e : Env) (input out : TmMat) (q : Quant) : Eng TmErr := do
  forN out.c fun c => do
    let st ← foldN input.h ((0 : Int), input.data.add c) fun _ st =>
      foldN input.w st fun _ st => do
        let v ← loadI8 e st.2
        return (st.1 + v, st.2.add out.c)
    -- `(sum/((in->h)*(in->w))-in_zp)*in_s/out_s + out_zp`
    let avg := Int.tdiv st.1 (input.h * input.w : Nat) - q.inZp
    storeI8 (out.data.add c) (e.fl.toI32 (e.fl.add
      (e.fl.div (e.fl.mul (e.fl.ofInt avg) q.inS) q.outS) (e.fl.ofInt q.outZp)))
  return .ok

/-- `tml_fc`. -/
def tmlFc (e : Env) (input out : TmMat) (w b ws : Ptr) (q : Quant) : Eng TmErr := do
  forN out.c fun c => do
    let dot ← tmDotProd e input.data (w.add (c * input.c : Nat)) input.c
    let bias ← loadI32 e (b.add (4 * c : Nat))
    let s ← loadF32 e ws
    -- `sum*in_s*ws[0]/out_s + out_zp`
    storeI8 (out.data.add c) (e.fl.toI32 (e.fl.add (e.fl.div
      (e.fl.mul (e.fl.mul (e.fl.ofInt (dot + bias)) q.inS) s) q.outS) (e.fl.ofInt q.outZp)))
  return .ok

/-- `-FLT_MAX`. -/
def negFltMax : F32 := 0xFF7FFFFF

/-- `tm_exp`, the local `_exp`.  Its `sign` is the sign of the integer `0`. -/
def tmExp (fl : FloatOps) (x : F32) : F32 :=
  let p := fl.mul 0x3FB8AA3B x -- 1.442695040f
  let sign : Int := 0
  let z := fl.add (fl.sub p (fl.ofInt (fl.toI32 p))) (fl.ofInt sign)
  -- (1 << 23) * (p + 121.2740838f + 27.7280233f / (4.84252568f - z) - 1.49012907f * z)
  let v := fl.mul (fl.ofInt (2 ^ 23)) (fl.sub
    (fl.add (fl.add p 0x42F28C55) (fl.div 0x41DDD2FE (fl.sub 0x409AF5F8 z)))
    (fl.mul 0x3FBEBC8D z))
  BitVec.ofInt 32 (fl.toU32 v)

/-- `dout[c] = f(dout[c])`. -/
def updF32 (e : Env) (p : Ptr) (f : F32 → F32) : Eng Unit := do
  let d ← loadF32 e p
  storeF32 p (f d)

/-- The first loop of `tml_softmax`: the dequantised inputs and their maximum. -/
def softmaxMax (e : Env) (din dout : Ptr) (n : Nat) (q : Quant) : Eng F32 :=
  foldN n negFltMax fun c dmax => do
    let v ← loadI8 e (din.add c)
    storeF32 (dout.add (4 * c : Nat)) (e.fl.mul (e.fl.ofInt (v - q.inZp)) q.inS)
    let d ← loadF32 e (dout.add (4 * c : Nat))
    return if e.fl.lt dmax d then d else dmax

/-- The second loop: the exponentials and their sum, then less `0.000001f` each. -/
def softmaxExp (e : Env) (dout : Ptr) (n : Nat) (dmax : F32) : Eng F32 :=
  foldN n (0 : F32) fun c sum => do
    updF32 e (dout.add (4 * c : Nat)) fun d => e.fl.sub d dmax
    updF32 e (dout.add (4 * c : Nat)) (tmExp e.fl)
    let d ← loadF32 e (dout.add (4 * c : Nat))
    updF32 e (dout.add (4 * c : Nat)) fun d => e.fl.sub d 0x358637BD
    return e.fl.add sum d

/-- The third loop: the quantised outputs, over the exponentials they are computed from. -/
def softmaxQuant (e : Env) (dout : Ptr) (n : Nat) (sum : F32) (q : Quant) : Eng Unit :=
  forN n fun c => do
    let d ← loadF32 e (dout.add (4 * c : Nat))
    storeI8 (dout.add c) (e.fl.toI32 (e.fl.add (e.fl.div (e.fl.div d sum) q.outS)
      (e.fl.ofInt q.outZp)))

/-- `tml_softmax`. -/
def tmlSoftmax (e : Env) (input out : TmMat) (q : Quant) : Eng TmErr := do
  let dmax ← softmaxMax e input.data out.data input.c q
  let sum ← softmaxExp e out.data input.c dmax
  softmaxQuant e out.data input.c sum q
  return .ok

/-- `tml_reshape` does nothing. -/
def tmlReshape (_input _out : TmMat) (_q : Quant) : Eng TmErr := return .ok

/-- `TM_DEQUANT`. -/
def tmDequant (fl : FloatOps) (i8 : Int) (s : F32) (zp : Int) : F32 :=
  fl.mul (fl.ofInt (i8 - zp)) s

/-- `TM_QUANT`. -/
def tmQuant (fl : FloatOps) (x s : F32) (zp : Int) : Int :=
  fl.toI32 (fl.add (fl.div x s) (fl.ofInt zp))

/-- One element of `tml_add`. -/
def addElem (e : Env) (d0 d1 res : Ptr) (q : Quant) (inS1 : F32) (inZp1 : Int) (i : Nat) :
    Eng Unit := do
  let a ← loadI8 e (d0.add i)
  let b ← loadI8 e (d1.add i)
  storeI8 (res.add i) (tmQuant e.fl
    (e.fl.add (tmDequant e.fl a q.inS q.inZp) (tmDequant e.fl b inS1 inZp1)) q.outS q.outZp)

/-- `tml_add`: rounds of four, then the rest. -/
def tmlAdd (e : Env) (in0 in1 out : TmMat) (q : Quant) (inS1 : F32) (inZp1 : Int) :
    Eng TmErr := do
  let size := in0.h * in0.w * in0.c
  let elem := addElem e in0.data in1.data out.data q inS1 inZp1
  forN (size / 4) fun j => forN 4 fun k => elem (4 * j + k)
  forN (size - 4 * (size / 4)) fun i => elem (4 * (size / 4) + i)
  return .ok

/-! ### What they touch -/

/-- Channel `c` of every pixel is read, `out->c` bytes apart, and output `c` written. -/
def gapStretches (input out : TmMat) : List (Stretch Region) :=
  rounds out.c fun c =>
    (rounds input.h fun y => rounds input.w fun x =>
      [.rd input.data.region (input.data.off + c + ((y * input.w + x) * out.c : Nat)) 1]) ++
    [.wr out.data.region (out.data.off + c) 1]

def fcStretches (input out : TmMat) (w b ws : Ptr) : List (Stretch Region) :=
  rounds out.c fun c =>
    [.rd input.data.region input.data.off input.c,
      .rd w.region (w.off + (c * input.c : Nat)) input.c, .rd b.region (b.off + (4 * c : Nat)) 4,
      .rd ws.region ws.off 4, .wr out.data.region (out.data.off + c) 1]

/-- The output area holds a `float` for each input. -/
def softmaxStretches (input out : TmMat) : List (Stretch Region) :=
  [.rd input.data.region input.data.off input.c,
    .wr out.data.region out.data.off (4 * input.c),
    .rd out.data.region out.data.off (4 * input.c), .wr out.data.region out.data.off input.c]

def addStretches (in0 in1 out : TmMat) : List (Stretch Region) :=
  let size := in0.h * in0.w * in0.c
  [.rd in0.data.region in0.data.off size, .rd in1.data.region in1.data.off size,
    .wr out.data.region out.data.off size]

/-! ### They touch no more and no less -/

section Runs

variable (e : Env) {input out : TmMat} {q : Quant}

/-- A store, when nothing is asked of the memory. -/
theorem storeI8_free {p : Ptr} {v : Int} :
    Runs Mem.val (fun _ => True) (storeI8 p v) (span p.region p.off 1 true) fun _ _ => True :=
  storeI8_runs fun _ _ => trivial

theorem storeF32_free {p : Ptr} {x : F32} :
    Runs Mem.val (fun _ => True) (storeF32 p x) (span p.region p.off 4 true) fun _ _ => True :=
  storeF32_runs fun _ _ => trivial

/-- A read, when nothing is asked of the memory. -/
theorem free {α : Type} {c : Eng α} {T : Set (Access Cell)} {g : Mem → α}
    (h : Reads Mem.val c T g) : Runs Mem.val (fun _ => True) c T fun _ _ => True :=
  (h _).weaken fun _ _ _ => trivial

theorem tmlReshape_runs :
    Runs Mem.val (fun _ => True) (tmlReshape input out q) (cover []) fun r _ => r = .ok := by
  rw [cover_nil]
  exact Runs.pure fun _ _ => rfl

theorem tmlFc_runs {w b ws : Ptr} :
    Runs Mem.val (fun _ => True) (tmlFc e input out w b ws q)
      (cover (fcStretches input out w b ws)) fun r _ => r = .ok := by
  unfold tmlFc
  refine Runs.of_eq (Runs.bind (Runs.forN (J := fun _ _ => True) fun c _ =>
    Runs.bind (free (tmDotProd_reads e _ _ _)) fun dot =>
      Runs.bind (free (loadI32_reads e _)) fun bias =>
        Runs.bind (free (loadF32_reads e _)) fun s => storeI8_free)
    fun _ => Runs.pure fun _ _ => rfl) ?_
  simp [fcStretches, Stretch.rd, Stretch.wr, Set.union_assoc]

/-- Pixel `(y, x)` of channel `c`, when the channels are `oc` bytes apart. -/
def gapPos (input : TmMat) (oc c y x : Nat) : Ptr :=
  input.data.add ((c : Int) + ((y * input.w + x) * oc : Nat))

/-- The sum of a channel: the pointer advances by `out->c` over all pixels. -/
theorem gapSum_runs {oc c : Nat} :
    Runs Mem.val (fun _ => True)
      (foldN input.h ((0 : Int), input.data.add c) fun _ st =>
        foldN input.w st fun _ st => do
          let v ← loadI8 e st.2
          return (st.1 + v, st.2.add oc))
      (upTo input.h fun y => upTo input.w fun x =>
        span input.data.region (gapPos input oc c y x).off 1 false) fun _ _ => True := by
  have row : ∀ y st, Runs Mem.val (fun _ => st.2 = gapPos input oc c y 0 ∧ True)
      (foldN input.w st fun _ st => do
        let v ← loadI8 e st.2
        return (st.1 + v, st.2.add oc))
      (upTo input.w fun x => span input.data.region (gapPos input oc c y x).off 1 false)
      fun (st : Int × Ptr) _ => st.2 = gapPos input oc c (y + 1) 0 ∧ True := fun y st => by
    refine (Runs.foldN (J := fun x (st : Int × Ptr) _ => st.2 = gapPos input oc c y x ∧ True)
      fun x _ st => Runs.assuming fun hst => ?_).weaken fun st _ hst => ⟨?_, trivial⟩
    · rw [hst]
      exact Runs.of_eq (Runs.bind (free (loadI8_reads e _)) fun v => Runs.pure fun _ _ =>
        ⟨by simp only [gapPos, Ptr.add_add]; push_cast; ring_nf, trivial⟩) (Set.union_empty _)
    · rw [hst.1]
      simp only [gapPos]
      push_cast
      ring_nf
  exact (Runs.foldN (J := fun y (st : Int × Ptr) _ => st.2 = gapPos input oc c y 0 ∧ True)
    fun y _ st => row y st).conseq (fun _ _ => ⟨by simp [gapPos], trivial⟩) rfl
      fun _ _ _ => trivial

theorem tmlGap_runs :
    Runs Mem.val (fun _ => True) (tmlGap e input out q) (cover (gapStretches input out))
      fun r _ => r = .ok := by
  unfold tmlGap
  refine Runs.of_eq (Runs.bind (Runs.forN (J := fun _ _ => True) fun c _ =>
    Runs.bind (gapSum_runs e) fun st => storeI8_free) fun _ => Runs.pure fun _ _ => rfl) ?_
  simp only [gapStretches, gapPos, Stretch.rd, Stretch.wr, Set.union_empty, cover_rounds,
    cover_append, cover_cons, cover_nil, Ptr.add_region, Ptr.add_off, Int.add_assoc]

theorem updF32_runs {p : Ptr} {f : F32 → F32} :
    Runs Mem.val (fun _ => True) (updF32 e p f)
      (span p.region p.off 4 false ∪ span p.region p.off 4 true) fun _ _ => True :=
  Runs.bind (free (loadF32_reads e p)) fun _ => storeF32_free

theorem softmaxMax_runs {din dout : Ptr} {n : Nat} :
    Runs Mem.val (fun _ => True) (softmaxMax e din dout n q)
      (span din.region din.off n false ∪ (span dout.region dout.off (4 * n) true ∪
        span dout.region dout.off (4 * n) false)) fun _ _ => True := by
  unfold softmaxMax
  refine Runs.of_eq (Runs.foldN (J := fun _ _ _ => True) fun c _ _ =>
    Runs.bind (free (loadI8_reads e _)) fun v => Runs.bind storeF32_free fun _ =>
      Runs.bind (free (loadF32_reads e _)) fun d => Runs.pure fun _ _ => trivial) ?_
  simp only [Set.union_empty, upTo_union, Ptr.add_region, Ptr.add_off, upTo_span_one, upTo_span]

theorem softmaxExp_runs {dout : Ptr} {n : Nat} {dmax : F32} :
    Runs Mem.val (fun _ => True) (softmaxExp e dout n dmax)
      (span dout.region dout.off (4 * n) true ∪ span dout.region dout.off (4 * n) false)
      fun _ _ => True := by
  unfold softmaxExp
  refine Runs.of_eq (Runs.foldN (J := fun _ _ _ => True) fun c _ _ =>
    Runs.bind (updF32_runs e) fun _ => Runs.bind (updF32_runs e) fun _ =>
      Runs.bind (free (loadF32_reads e _)) fun d => Runs.bind (updF32_runs e) fun _ =>
        Runs.pure fun _ _ => trivial) ?_
  simp only [Set.union_empty, upTo_union, Ptr.add_region, Ptr.add_off, upTo_span]
  ext a
  simp only [Set.mem_union]
  tauto

theorem softmaxQuant_runs {dout : Ptr} {n : Nat} {sum : F32} :
    Runs Mem.val (fun _ => True) (softmaxQuant e dout n sum q)
      (span dout.region dout.off (4 * n) false ∪ span dout.region dout.off n true)
      fun _ _ => True := by
  unfold softmaxQuant
  refine Runs.of_eq (Runs.forN (J := fun _ _ => True) fun c _ =>
    Runs.bind (free (loadF32_reads e _)) fun d => storeI8_free) ?_
  simp only [upTo_union, Ptr.add_region, Ptr.add_off, upTo_span, upTo_span_one]

theorem tmlSoftmax_runs :
    Runs Mem.val (fun _ => True) (tmlSoftmax e input out q) (cover (softmaxStretches input out))
      fun r _ => r = .ok := by
  unfold tmlSoftmax
  refine Runs.of_eq (Runs.bind (softmaxMax_runs e) fun _ => Runs.bind (softmaxExp_runs e) fun _ =>
    Runs.bind (softmaxQuant_runs e) fun _ => Runs.pure fun _ _ => rfl) ?_
  ext a
  simp only [Set.mem_union, softmaxStretches, cover_cons, cover_nil, Set.union_empty, Stretch.rd,
    Stretch.wr]
  tauto

theorem addElem_runs {d0 d1 res : Ptr} {inS1 : F32} {inZp1 : Int} {i : Nat} :
    Runs Mem.val (fun _ => True) (addElem e d0 d1 res q inS1 inZp1 i)
      (span d0.region (d0.off + i) 1 false ∪ (span d1.region (d1.off + i) 1 false ∪
        span res.region (res.off + i) 1 true)) fun _ _ => True :=
  Runs.bind (free (loadI8_reads e _)) fun _ => Runs.bind (free (loadI8_reads e _)) fun _ =>
    storeI8_free

/-- Rounds of four followed by the rest are all the rounds. -/
theorem forN_unrolled (n : Nat) (f : Nat → Eng Unit) :
    (do
      forN (n / 4) fun j => forN 4 fun k => f (4 * j + k)
      forN (n - 4 * (n / 4)) fun i => f (4 * (n / 4) + i)) = forN n f := by
  have hsum : 4 * (n / 4) + (n - 4 * (n / 4)) = n := Nat.add_sub_cancel' (Nat.mul_div_le n 4)
  conv_rhs => rw [← hsum, forN, foldN_add, foldN_mul]
  rfl

theorem tmlAdd_runs {in1 : TmMat} {inS1 : F32} {inZp1 : Int} :
    Runs Mem.val (fun _ => True) (tmlAdd e input in1 out q inS1 inZp1)
      (cover (addStretches input in1 out)) fun r _ => r = .ok := by
  have loop := forN_unrolled (input.h * input.w * input.c)
    (addElem e input.data in1.data out.data q inS1 inZp1)
  simp only [tmlAdd, ← bind_assoc, loop]
  refine Runs.of_eq (Runs.bind (Runs.forN (J := fun _ _ => True) fun i _ => addElem_runs e)
    fun _ => Runs.pure fun _ _ => rfl) ?_
  simp only [Set.union_empty, upTo_union, upTo_span_one, addStretches, cover_cons, cover_nil,
    Stretch.rd, Stretch.wr]

end Runs

end TinyMaix
