import Pico2wTfm.TinyMaix.Arch

/-!
# TinyMaix — Conv

`tml_conv2d_dwconv2d` of `tm_layers.c`: the pointwise branch, the `k_oft` table, the two ways to
fill `sbuf` (the valid part and the padded part) and the sums over `sbuf`.  The pointers and
indices the loops of the source advance are carried through the loops here.

`convStretches` lists what the layer touches, from its shape and parameters alone;
`tmlConv2dDwconv2d_runs` is that the list is exact.  It holds for every shape, stride, padding
and overlap of input and output: an address depends on memory only through `k_oft`, and the
layer fills that table itself (`genKOft_runs`).
-/

namespace TinyMaix
open Bytes Footprint

/-- The convolution parameters of a layer, as `int`s of the call. -/
structure ConvParams where
  kw : Nat
  kh : Nat
  sx : Nat
  sy : Nat
  dx : Nat
  dy : Nat
  act : Nat
  padTop : Nat
  padBottom : Nat
  padLeft : Nat
  padRight : Nat
  dmul : Int
deriving DecidableEq, Repr

/-- The scales and zero points of a layer. -/
structure Quant where
  inS : F32
  inZp : Int
  outS : F32
  outZp : Int
deriving DecidableEq, Repr

namespace ConvParams

def maxk (p : ConvParams) : Nat := p.kw * p.kh

def padFlag (p : ConvParams) : Bool :=
  p.padTop != 0 || p.padBottom != 0 || p.padLeft != 0 || p.padRight != 0

/-- The four checks before the first access. -/
def err (p : ConvParams) : TmErr :=
  if p.dx ≠ 1 ∨ p.dy ≠ 1 then .todo
  else if tmActMaxcnt ≤ p.act then .unsupport
  else if tmMaxKsize < p.maxk then .ksize
  else if p.maxk = 1 ∧ (p.padFlag = true ∨ p.dmul ≠ 0) then .unsupport
  else .ok

/-- `chi` after `chi = dmul ? 1 : in->c`. -/
def chi (p : ConvParams) (input : TmMat) : Nat := if p.dmul ≠ 0 then 1 else input.c

/-- `dmul?cho:chi`, the channels `sbuf` is filled for. -/
def chans (p : ConvParams) (input out : TmMat) : Nat := if p.dmul ≠ 0 then out.c else input.c

/-- `dmul?cc/dmul:cc`, the input channel of `cc`. -/
def chOft (p : ConvParams) (cc : Nat) : Int := if p.dmul ≠ 0 then Int.tdiv cc p.dmul else cc

/-- `slow_flag`: the window leaves the input. -/
def slow (p : ConvParams) (input : TmMat) (srcY0 srcX0 : Int) : Bool :=
  srcY0 < 0 || srcX0 < 0 || input.h < srcY0 + p.kh || input.w < srcX0 + p.kw

end ConvParams

/-! ### The layer -/

/-- `1.0`, a `double`. -/
def oneF64 : F64 := 0x3FF0000000000000

/-- `1.0/ws[c]/in_s`, evaluated in `double`. -/
def sumscaleOf (fl : FloatOps) (ws inS : F32) : Int :=
  fl.toI32D (fl.divD (fl.divD oneF64 (fl.widen ws)) (fl.widen inS))

/-- `(1<<TM_FASTSCALE_SHIFT)/out_s`. -/
def outscaleOf (fl : FloatOps) (outS : F32) : Int :=
  fl.toI32 (fl.div (fl.ofInt (2 ^ tmFastscaleShift)) outS)

/-- `for(int c=0; c<out->c;c++) sumscale[c]=1.0/ws[c]/in_s`. -/
def fillSumscale (e : Env) (cho : Nat) (ws : Ptr) (inS : F32) : Eng Unit :=
  forN cho fun c => do
    let s ← loadF32 e (ws.add (4 * c : Nat))
    storeSumscale c (sumscaleOf e.fl s inS)

/-- One pixel of the pointwise branch: two channels at a time, then the odd one. -/
def pwPixel (e : Env) (sptr w b : Ptr) (chi cho act : Nat) (outscale outZp : Int) (outp : Ptr) :
    Eng Ptr := do
  let st ← foldN (cho / 2) (outp, w) fun i st => do
    let sums ← tmDotProdPack2 e sptr st.2 chi
    tmPostprocessSum e 2 (fun j => if j = 0 then sums.1 else sums.2) (b.add (8 * i : Nat)) act
      st.1 (2 * i : Nat) outscale outZp
    return (st.1.add 2, st.2.add (chi * 2 : Nat))
  let st ← foldN (cho % 2) st fun i st => do
    let c := 2 * (cho / 2) + i
    let sum ← tmDotProd e sptr st.2 chi
    tmPostprocessSum e 1 (fun _ => sum) (b.add (4 * c : Nat)) act st.1 c outscale outZp
    return (st.1.add 1, st.2.add chi)
  return st.1

/-- `gen k_oft table`.  The table holds `uint32_t`s that are added to a pointer; on the 32-bit
target a wrapped negative offset is the negative offset. -/
def genKOft (input : TmMat) (p : ConvParams) : Eng Unit := do
  let _ ← foldN p.kh ((0 : Int), (0 : Int)) fun _ st => do
    let st ← foldN p.kw st fun _ st => do
      storeKOft st.1 st.2
      return (st.1 + 1, st.2 + input.c)
    return (st.1, st.2 + ((input.w : Int) - p.kw) * input.c)

/-- `sbuf[sidx+k] = sptr[k_oft[k]]`. -/
def copyTap (e : Env) (sptr : Ptr) (sidx : Int) (k : Nat) : Eng Unit := do
  let oft ← loadKOft k
  let v ← loadByte e (sptr.add oft)
  storeByte ⟨.sbuf, sidx + k⟩ v

/-- `sbuf` for a window inside the input. -/
def fillValid (e : Env) (base : Ptr) (n : Nat) (p : ConvParams) : Eng Unit := do
  let _ ← foldN n (base, (0 : Int)) fun cc st => do
    forN p.maxk fun k => copyTap e st.1 st.2 k
    return (base.add (p.chOft (cc + 1)), st.2 + p.maxk)

/-- The first kernel row or column inside the input. -/
def tapLo (src : Int) : Nat := (if src < 0 then -src else 0).toNat

/-- The bound of the kernel rows or columns inside the input. -/
def tapHi (src : Int) (size k : Nat) : Int := if size - src > k then k else size - src

/-- `memset(sbuf, in_zp, n)`. -/
def memsetSbuf (inZp : Int) (n : Nat) : Eng Unit :=
  forN n fun i => storeByte ⟨.sbuf, i⟩ (BitVec.ofInt 8 inZp)

/-- `sbuf` for a window that leaves the input. -/
def fillPad (e : Env) (input : TmMat) (base : Ptr) (n : Nat) (p : ConvParams) (inZp : Int)
    (srcY0 srcX0 : Int) : Eng Unit := do
  let ky0 := tapLo srcY0
  let kx0 := tapLo srcX0
  let ky1 := tapHi srcY0 input.h p.kh
  let kx1 := tapHi srcX0 input.w p.kw
  memsetSbuf inZp (n * p.maxk)
  let _ ← foldN n (base, (0 : Int)) fun cc st => do
    forN (ky1 - ky0).toNat fun j => forN (kx1 - kx0).toNat fun i =>
      copyTap e st.1 st.2 ((ky0 + j) * p.kw + (kx0 + i))
    return (base.add (p.chOft (cc + 1)), st.2 + p.maxk)

/-- `sbuf` for the window at `(srcY0, srcX0)`. -/
def fillSbuf (e : Env) (input out : TmMat) (p : ConvParams) (inZp srcY0 srcX0 : Int) : Eng Unit :=
  let base := tmMatp input srcY0 srcX0 0
  if p.slow input srcY0 srcX0 then
    fillPad e input base (p.chans input out) p inZp srcY0 srcX0
  else
    fillValid e base (p.chans input out) p

/-- The sums over `sbuf`, with the special case of a 3x3 depthwise kernel. -/
def sumChannels (e : Env) (input : TmMat) (w b : Ptr) (cho : Nat) (p : ConvParams)
    (outscale outZp : Int) (outp : Ptr) : Eng (Ptr × Ptr) :=
  let chi := p.chi input
  if p.maxk * chi = 9 ∧ p.dmul ≠ 0 then
    foldN cho ((⟨.sbuf, 0⟩ : Ptr), outp) fun c st => do
      let sum ← tmDotProd3x3x1 e st.1 (w.add (c * chi * p.maxk : Nat))
      tmPostprocessSum e 1 (fun _ => sum) (b.add (4 * c : Nat)) p.act st.2 c outscale outZp
      return (st.1.add p.maxk, st.2.add 1)
  else
    foldN cho ((⟨.sbuf, 0⟩ : Ptr), outp) fun c st => do
      let sum ← tmDotProd e st.1 (w.add (c * chi * p.maxk : Nat)) (p.maxk * chi)
      tmPostprocessSum e 1 (fun _ => sum) (b.add (4 * c : Nat)) p.act st.2 c outscale outZp
      return (if p.dmul ≠ 0 then st.1.add p.maxk else st.1, st.2.add 1)

/-- One pixel of the general branch. -/
def convPixel (e : Env) (input out : TmMat) (w b : Ptr) (p : ConvParams) (outscale : Int)
    (q : Quant) (y x : Nat) (outp : Ptr) : Eng Ptr := do
  fillSbuf e input out p q.inZp (p.sy * y - p.padTop) (p.sx * x - p.padLeft)
  let st ← sumChannels e input w b out.c p outscale q.outZp outp
  return st.2

/-- `tml_conv2d_dwconv2d`. -/
def tmlConv2dDwconv2d (e : Env) (input out : TmMat) (w b : Ptr) (p : ConvParams) (ws : Ptr)
    (q : Quant) : Eng TmErr :=
  if p.err ≠ .ok then pure p.err
  else if p.maxk = 1 then do
    fillSumscale e out.c ws q.inS
    let _ ← foldN out.h out.data fun y outp => foldN out.w outp fun x outp =>
      pwPixel e (tmMatp input (p.sy * y) (p.sx * x) 0) w b input.c out.c p.act
        (outscaleOf e.fl q.outS) q.outZp outp
    return .ok
  else do
    fillSumscale e out.c ws q.inS
    genKOft input p
    let _ ← foldN out.h out.data fun y outp => foldN out.w outp fun x outp =>
      convPixel e input out w b p (outscaleOf e.fl q.outS) q y x outp
    return .ok

/-! ### The `k_oft` table -/

/-- The offset of tap `k` from the first tap. -/
def kOftAt (input : TmMat) (p : ConvParams) (k : Nat) : Int :=
  ((k / p.kw * input.w + k % p.kw : Nat) : Int) * input.c

/-- The table is filled. -/
def KOftTable (input : TmMat) (p : ConvParams) (m : Mem) : Prop :=
  ∀ k < p.maxk, m.kOft k = kOftAt input p k

section KOft

variable {input : TmMat} {p : ConvParams} {I : Mem → Prop}

/-- The first `n` taps are in the table. -/
def KOftPrefix (input : TmMat) (p : ConvParams) (n : Nat) (m : Mem) : Prop :=
  ∀ k < n, m.kOft (k : Nat) = kOftAt input p k

/-- The row of taps `y`: the index and the offset advance by one tap each. -/
theorem genKOft_row (hI : ∀ m i v, I m → I (m.setKOft i v)) (y : Nat) :
    Runs Mem.val (fun m => KOftPrefix input p (y * p.kw) m ∧ I m)
      (foldN p.kw (((y * p.kw : Nat) : Int), ((y * input.w : Nat) : Int) * input.c) fun _ st => do
        storeKOft st.1 st.2
        return (st.1 + 1, st.2 + input.c))
      (span .kOft (p.kw * y : Nat) p.kw true)
      fun st m => st = (((y * p.kw + p.kw : Nat) : Int),
        ((y * input.w + p.kw : Nat) : Int) * input.c) ∧
        KOftPrefix input p (y * p.kw + p.kw) m ∧ I m := by
  refine (Runs.foldN_val (ν := Mem.val)
    (fun x => (((y * p.kw + x : Nat) : Int), ((y * input.w + x : Nat) : Int) * input.c))
    (J := fun x m => KOftPrefix input p (y * p.kw + x) m ∧ I m)
    (T := fun x => span .kOft ((p.kw * y : Nat) + (x : Int)) 1 true) fun x hx => ?_).of_eq
    (upTo_span_one ..)
  refine Runs.of_eq (T := span .kOft ((y * p.kw + x : Nat) : Int) 1 true ∪ ∅)
    ((storeKOft_runs (Q := fun _ m => KOftPrefix input p (y * p.kw + (x + 1)) m ∧ I m)
      fun m hm => ⟨fun k hk => ?_, hI m _ _ hm.2⟩).bind fun _ =>
        Runs.pure fun m hm => ⟨?_, hm⟩) (by rw [Set.union_empty]; push_cast; ring_nf)
  · -- tap `y * kw + x` is in row `y` and column `x`
    simp only [Mem.setKOft]
    split
    · rename_i hkx
      have hk' : k = y * p.kw + x := by exact_mod_cast hkx
      have hkw : 0 < p.kw := Nat.lt_of_le_of_lt (Nat.zero_le x) hx
      have hdiv : (y * p.kw + x) / p.kw = y := by
        rw [Nat.mul_comm, Nat.mul_add_div hkw, Nat.div_eq_of_lt hx, Nat.add_zero]
      have hmod : (y * p.kw + x) % p.kw = x := by
        rw [Nat.mul_comm, Nat.mul_add_mod, Nat.mod_eq_of_lt hx]
      rw [hk', kOftAt, hdiv, hmod]
    · rename_i hkx
      have hk' : k ≠ y * p.kw + x := fun h => hkx (by rw [h])
      exact hm.1 k (by omega)
  · simp only [Prod.mk.injEq]
    constructor
    · push_cast; ring
    · push_cast; ring

/-- **The table.**  `genKOft` writes the `maxk` entries it is read at, whatever they were. -/
theorem genKOft_runs (hI : ∀ m i v, I m → I (m.setKOft i v)) :
    Runs Mem.val I (genKOft input p) (span .kOft 0 p.maxk true)
      fun _ m => KOftTable input p m ∧ I m := by
  have h0 : ((((0 * p.kw : Nat) : Int), ((0 * input.w : Nat) : Int) * input.c) : Int × Int) =
      (0, 0) := by simp
  have rows := Runs.foldN_val (ν := Mem.val) (n := p.kh)
    (f := fun _ st => do
      let st ← foldN p.kw st fun _ st => do
        storeKOft st.1 st.2
        return (st.1 + 1, st.2 + input.c)
      return (st.1, st.2 + ((input.w : Int) - p.kw) * input.c))
    (fun y => (((y * p.kw : Nat) : Int), ((y * input.w : Nat) : Int) * input.c))
    (J := fun y m => KOftPrefix input p (y * p.kw) m ∧ I m)
    (T := fun y => span .kOft (0 + (p.kw * y : Nat)) p.kw true ∪ ∅) fun y _ => by
      rw [zero_add]
      refine (genKOft_row hI y).bind_eq (Runs.pure fun m hm => ⟨?_, Nat.succ_mul y _ ▸ hm⟩)
      -- a row ends `kw` taps on, and the next one starts `w - kw` pixels after it
      simp only [Prod.mk.injEq]
      constructor
      · push_cast; ring
      · push_cast; ring
  simp only [h0, Set.union_empty, upTo_span] at rows
  refine (Runs.conseq rows (fun m hm => ⟨fun k hk => by omega, hm⟩) rfl ?_).bind
    (U := ∅) (fun _ => Runs.pure (Q := fun _ m => KOftTable input p m ∧ I m) fun m hm => hm)
    |>.of_eq (Set.union_empty _)
  rintro - m ⟨-, hk, hm⟩
  exact ⟨fun k hk' => hk k (Nat.mul_comm p.kw p.kh ▸ hk'), hm⟩

end KOft

/-! ### What the layer touches -/

/-- One copy of a tap. -/
def tapStretches (input : TmMat) (base : Ptr) (p : ConvParams) (cc k : Nat) :
    List (Stretch Region) :=
  [.rd .kOft k 1, .rd base.region (base.off + (p.chOft cc + kOftAt input p k)) 1,
    .wr .sbuf ((cc * p.maxk : Nat) + (k : Int)) 1]

def validStretches (input : TmMat) (base : Ptr) (n : Nat) (p : ConvParams) :
    List (Stretch Region) :=
  rounds n fun cc => rounds p.maxk fun k => tapStretches input base p cc k

def padStretches (input : TmMat) (base : Ptr) (n : Nat) (p : ConvParams) (srcY0 srcX0 : Int) :
    List (Stretch Region) :=
  .wr .sbuf 0 (n * p.maxk) :: rounds n fun cc =>
    rounds (tapHi srcY0 input.h p.kh - tapLo srcY0).toNat fun j =>
      rounds (tapHi srcX0 input.w p.kw - tapLo srcX0).toNat fun i =>
        tapStretches input base p cc ((tapLo srcY0 + j) * p.kw + (tapLo srcX0 + i))

/-- The sum of one channel: its window of `sbuf`, its kernel, its bias, its scale, its output. -/
def chanStretches (input : TmMat) (w b outp : Ptr) (p : ConvParams) (c : Nat) :
    List (Stretch Region) :=
  [.rd .sbuf (if p.dmul ≠ 0 then (c * p.maxk : Nat) else 0) (p.maxk * p.chi input),
    .rd w.region (w.off + (c * p.chi input * p.maxk : Nat)) (p.maxk * p.chi input),
    .rd b.region (b.off + (4 * c : Nat)) 4, .rd .sumscale c 1, .wr outp.region (outp.off + c) 1]

def pixelStretches (input out : TmMat) (w b outp : Ptr) (p : ConvParams) (y x : Nat) :
    List (Stretch Region) :=
  let srcY0 : Int := p.sy * y - p.padTop
  let srcX0 : Int := p.sx * x - p.padLeft
  let base := tmMatp input srcY0 srcX0 0
  (if p.slow input srcY0 srcX0 then padStretches input base (p.chans input out) p srcY0 srcX0
    else validStretches input base (p.chans input out) p) ++
  rounds out.c fun c => chanStretches input w b outp p c

/-- One pixel of the pointwise branch; without output channels its input is not read. -/
def pwStretches (sptr w b outp : Ptr) (chi cho : Nat) : List (Stretch Region) :=
  [.rd sptr.region sptr.off (if cho = 0 then 0 else chi), .rd w.region w.off (chi * cho),
    .rd b.region b.off (4 * cho), .rd .sumscale 0 cho, .wr outp.region outp.off cho]

/-- The output position of pixel `(y, x)`. -/
def outPos (out : TmMat) (y x : Nat) : Ptr := out.data.add ((y * out.w + x) * out.c : Nat)

/-- **What a convolution touches.** -/
def convStretches (input out : TmMat) (w b : Ptr) (p : ConvParams) (ws : Ptr) :
    List (Stretch Region) :=
  if p.err ≠ .ok then []
  else [.rd ws.region ws.off (4 * out.c), .wr .sumscale 0 out.c] ++
    if p.maxk = 1 then
      rounds out.h fun y => rounds out.w fun x =>
        pwStretches (tmMatp input (p.sy * y) (p.sx * x) 0) w b (outPos out y x) input.c out.c
    else
      .wr .kOft 0 p.maxk :: rounds out.h fun y => rounds out.w fun x =>
        pixelStretches input out w b (outPos out y x) p y x

/-! ### The layer touches no more and no less -/

section Runs

variable (e : Env) {input out : TmMat} {p : ConvParams}

/-- The rule of the scale loop. -/
theorem fillSumscale_runs {J : Nat → Mem → Prop} {cho : Nat} {ws : Ptr} {inS : F32}
    (h : ∀ c < cho, ∀ m, J c m → J (c + 1) (m.setSumscale c
      (sumscaleOf e.fl (BitVec.ofNat 32 (e.leAt m 4 (ws.add (4 * c : Nat)))) inS))) :
    Runs Mem.val (J 0) (fillSumscale e cho ws inS)
      (cover [.rd ws.region ws.off (4 * cho), .wr .sumscale 0 cho]) fun _ => J cho := by
  refine (Runs.forN (T := fun c => span ws.region (ws.off + (4 * c : Nat)) 4 false ∪
    span .sumscale (0 + (c : Int)) 1 true) fun c hc => ?_).of_eq ?_
  · rw [zero_add]
    refine (loadF32_reads e _ (J c)).bind fun s => storeSumscale_runs fun m hm => ?_
    obtain ⟨rfl, hm⟩ := hm
    exact h c hc m hm
  · rw [upTo_union, upTo_span, upTo_span_one]
    simp [Stretch.rd, Stretch.wr]

/-- A tap goes to its place in `sbuf`. -/
theorem copyTap_runs {P : Mem → Prop} {Q : Unit → Mem → Prop} {base : Ptr} {cc k : Nat}
    (hk : ∀ m, P m → m.kOft k = kOftAt input p k)
    (h : ∀ m, P m → Q () (m.setByte ⟨.sbuf, (cc * p.maxk : Nat) + (k : Int)⟩
      (e.byteAt m (base.add (p.chOft cc + kOftAt input p k))))) :
    Runs Mem.val P (copyTap e (base.add (p.chOft cc)) (cc * p.maxk : Nat) k)
      (cover (tapStretches input base p cc k)) Q := by
  have ho : Runs Mem.val P (loadKOft k) (span .kOft k 1 false) fun o m =>
      o = kOftAt input p k ∧ P m :=
    (loadKOft_reads k P).weaken fun o m ho => ⟨ho.1.trans (hk m ho.2), ho.2⟩
  refine (ho.bind_eq (((loadByte_reads e _) P).bind fun v => storeByte_runs (Q := Q)
    fun m hm => ?_)).of_eq ?_
  · obtain ⟨rfl, hm⟩ := hm
    rw [Ptr.add_add]
    exact h m hm
  · simp only [tapStretches, cover_cons, cover_nil, Set.union_empty, Stretch.rd, Stretch.wr,
      Ptr.add_region, Ptr.add_off, Int.add_assoc]

/-- **The rule of the valid part.**  An invariant on `sbuf` that every copied tap extends. -/
theorem fillValid_runs {J : Nat → Mem → Prop} {base : Ptr} {n : Nat}
    (h : ∀ cc < n, ∀ k < p.maxk, ∀ m, J (cc * p.maxk + k) m →
      J (cc * p.maxk + k + 1) (m.setByte ⟨.sbuf, (cc * p.maxk : Nat) + (k : Int)⟩
        (e.byteAt m (base.add (p.chOft cc + kOftAt input p k))))) :
    Runs Mem.val (fun m => KOftTable input p m ∧ J 0 m) (fillValid e base n p)
      (cover (validStretches input base n p))
      fun _ m => KOftTable input p m ∧ J (n * p.maxk) m := by
  have chan : ∀ cc < n, Runs Mem.val (fun m => KOftTable input p m ∧ J (cc * p.maxk) m)
      (forN p.maxk fun k => copyTap e (base.add (p.chOft cc)) (cc * p.maxk : Nat) k)
      (cover (rounds p.maxk fun k => tapStretches input base p cc k))
      fun _ m => KOftTable input p m ∧ J (cc * p.maxk + p.maxk) m := fun cc hcc => by
    rw [cover_rounds]
    exact Runs.forN (J := fun k m => KOftTable input p m ∧ J (cc * p.maxk + k) m) fun k hk =>
      copyTap_runs e (fun m hm => hm.1 k hk) fun m hm => ⟨hm.1, h cc hcc k hk m hm.2⟩
  have h0 : ((base.add (p.chOft 0), ((0 * p.maxk : Nat) : Int)) : Ptr × Int) = (base, 0) := by
    simp [ConvParams.chOft]
  have chans := Runs.foldN_val (ν := Mem.val) (n := n)
    (f := fun cc st => do
      forN p.maxk fun k => copyTap e st.1 st.2 k
      return (base.add (p.chOft (cc + 1)), st.2 + p.maxk))
    (fun cc => (base.add (p.chOft cc), ((cc * p.maxk : Nat) : Int)))
    (J := fun cc m => KOftTable input p m ∧ J (cc * p.maxk) m)
    (T := fun cc => cover (rounds p.maxk fun k => tapStretches input base p cc k) ∪ ∅)
    fun cc hcc => (chan cc hcc).bind fun _ => Runs.pure fun m hm =>
      ⟨by push_cast; ring_nf, hm.1, Nat.succ_mul cc _ ▸ hm.2⟩
  simp only [h0, Set.union_empty, ← cover_rounds] at chans
  exact ((chans.conseq (fun m hm => ⟨hm.1, by simpa using hm.2⟩) rfl fun _ _ hm => hm).bind
    fun _ => Runs.pure fun m hm => hm.2).of_eq (Set.union_empty _)

/-- A kernel row or column inside the input is one of the kernel's. -/
theorem tap_lt {src : Int} {size k j : Nat} (h : j < (tapHi src size k - tapLo src).toNat) :
    tapLo src + j < k := by
  unfold tapHi at h
  split at h <;> omega

theorem memsetSbuf_runs {I : Mem → Prop} {v : Int} {n : Nat}
    (hI : ∀ m p b, I m → I (m.setByte p b)) :
    Runs Mem.val I (memsetSbuf v n) (span .sbuf 0 n true) fun _ => I := by
  refine (Runs.forN (J := fun _ => I) (T := fun i => span .sbuf (0 + (i : Int)) 1 true)
    fun i _ => ?_).of_eq (upTo_span_one ..)
  rw [zero_add]
  exact storeByte_runs fun m hm => hI m _ _ hm

theorem fillPad_runs {base : Ptr} {n : Nat} {inZp srcY0 srcX0 : Int} :
    Runs Mem.val (KOftTable input p) (fillPad e input base n p inZp srcY0 srcX0)
      (cover (padStretches input base n p srcY0 srcX0)) fun _ => KOftTable input p := by
  have hI : ∀ m q b, KOftTable input p m → KOftTable input p (m.setByte q b) := fun _ _ _ h => h
  have chan : ∀ cc < n, Runs Mem.val (KOftTable input p)
      (forN (tapHi srcY0 input.h p.kh - tapLo srcY0).toNat fun j =>
        forN (tapHi srcX0 input.w p.kw - tapLo srcX0).toNat fun i =>
          copyTap e (base.add (p.chOft cc)) (cc * p.maxk : Nat)
            ((tapLo srcY0 + j) * p.kw + (tapLo srcX0 + i)))
      (cover (rounds (tapHi srcY0 input.h p.kh - tapLo srcY0).toNat fun j =>
        rounds (tapHi srcX0 input.w p.kw - tapLo srcX0).toNat fun i =>
          tapStretches input base p cc ((tapLo srcY0 + j) * p.kw + (tapLo srcX0 + i))))
      fun _ => KOftTable input p := fun cc _ => by
    simp only [cover_rounds]
    refine Runs.forN (J := fun _ => KOftTable input p) fun j hj =>
      Runs.forN (J := fun _ => KOftTable input p) fun i hi =>
        copyTap_runs e (fun m hm => hm _ ?_) fun m hm => hm
    -- the tap is in row `tapLo srcY0 + j` and column `tapLo srcX0 + i` of the kernel
    have hy := tap_lt hj
    have hx := tap_lt hi
    calc (tapLo srcY0 + j) * p.kw + (tapLo srcX0 + i)
        < (tapLo srcY0 + j) * p.kw + p.kw := by omega
      _ = (tapLo srcY0 + j + 1) * p.kw := (Nat.succ_mul _ _).symm
      _ ≤ p.kh * p.kw := Nat.mul_le_mul_right _ hy
      _ = p.maxk := Nat.mul_comm _ _
  have h0 : ((base.add (p.chOft 0), ((0 * p.maxk : Nat) : Int)) : Ptr × Int) = (base, 0) := by
    simp [ConvParams.chOft]
  have chans := Runs.foldN_val (ν := Mem.val) (n := n)
    (f := fun cc st => do
      forN (tapHi srcY0 input.h p.kh - tapLo srcY0).toNat fun j =>
        forN (tapHi srcX0 input.w p.kw - tapLo srcX0).toNat fun i =>
          copyTap e st.1 st.2 ((tapLo srcY0 + j) * p.kw + (tapLo srcX0 + i))
      return (base.add (p.chOft (cc + 1)), st.2 + p.maxk))
    (fun cc => (base.add (p.chOft cc), ((cc * p.maxk : Nat) : Int)))
    (J := fun _ => KOftTable input p) (T := _)
    fun cc hcc => (chan cc hcc).bind fun _ => Runs.pure fun m hm =>
      ⟨by push_cast; ring_nf, hm⟩
  simp only [h0, Set.union_empty] at chans
  refine ((memsetSbuf_runs hI).bind fun _ => chans.bind fun _ =>
    Runs.pure fun m hm => hm.2).of_eq ?_
  rw [Set.union_empty, padStretches, cover_cons, cover_rounds]
  rfl

/-! ### The sums -/

section Sums

variable {w b outp : Ptr} {cho : Nat} {outscale outZp : Int} {J : Nat → Mem → Prop}

/-- The window of channel `c` in `sbuf`. -/
def sbufAt (p : ConvParams) (c : Nat) : Ptr :=
  ⟨.sbuf, if p.dmul ≠ 0 then (c * p.maxk : Nat) else 0⟩

/-- The value stored for channel `c`. -/
def Env.chanOut (e : Env) (m : Mem) (input : TmMat) (w b : Ptr) (p : ConvParams)
    (outscale outZp : Int) (c : Nat) : Int :=
  e.outAt m (fun _ => e.dotAt m (sbufAt p c) (w.add (c * p.chi input * p.maxk : Nat))
    (p.maxk * p.chi input)) (b.add (4 * c : Nat)) p.act c outscale outZp 0

section Loop

variable (dot : Ptr → Ptr → Eng Int) (next : Ptr → Ptr)
  (hdot : ∀ s k, Reads Mem.val (dot s k)
    (span s.region s.off (p.maxk * p.chi input) false ∪
      span k.region k.off (p.maxk * p.chi input) false)
    fun m => e.dotAt m s k (p.maxk * p.chi input))
  (hnext : ∀ c, next (sbufAt p c) = sbufAt p (c + 1))
include hdot

/-- One channel, with either dot product. -/
theorem chan_runs {c : Nat}
    (h : ∀ m, J c m → J (c + 1) (m.setByte (outp.add c) (BitVec.ofInt 8
      (e.chanOut m input w b p outscale outZp c)))) :
    Runs Mem.val (J c)
      (dot (sbufAt p c) (w.add (c * p.chi input * p.maxk : Nat)) >>= fun sum =>
        tmPostprocessSum e 1 (fun _ => sum) (b.add (4 * c : Nat)) p.act (outp.add c) c outscale
          outZp)
      (cover (chanStretches input w b outp p c)) fun _ => J (c + 1) := by
  refine ((hdot _ _ (J c)).bind fun sum => tmPostprocessSum_runs e (J := fun i m =>
    Nat.casesOn i (sum = e.dotAt m (sbufAt p c) (w.add (c * p.chi input * p.maxk : Nat))
      (p.maxk * p.chi input) ∧ J c m) fun _ => J (c + 1) m) fun i hi m hm => ?_).of_eq ?_
  · obtain rfl : i = 0 := by omega
    obtain ⟨rfl, hm⟩ := hm
    simpa [Env.chanOut, Env.outAt] using h m hm
  · simp [chanStretches, sbufAt, Stretch.rd, Stretch.wr, Set.union_assoc]

include hnext

/-- The loop over the channels, with either dot product. -/
theorem chans_runs
    (h : ∀ c < cho, ∀ m, J c m → J (c + 1) (m.setByte (outp.add c) (BitVec.ofInt 8
      (e.chanOut m input w b p outscale outZp c)))) :
    Runs Mem.val (J 0)
      (foldN cho ((⟨.sbuf, 0⟩ : Ptr), outp) fun c st => do
        let sum ← dot st.1 (w.add (c * p.chi input * p.maxk : Nat))
        tmPostprocessSum e 1 (fun _ => sum) (b.add (4 * c : Nat)) p.act st.2 c outscale outZp
        return (next st.1, st.2.add 1))
      (cover (rounds cho fun c => chanStretches input w b outp p c))
      fun st m => st.2 = outp.add cho ∧ J cho m := by
  have h0 : ((sbufAt p 0, outp.add ((0 : Nat) : Int)) : Ptr × Ptr) = (⟨.sbuf, 0⟩, outp) := by
    simp [sbufAt]
  have loop := Runs.foldN_val (ν := Mem.val) (n := cho)
    (f := fun c (st : Ptr × Ptr) => do
      let sum ← dot st.1 (w.add (c * p.chi input * p.maxk : Nat))
      tmPostprocessSum e 1 (fun _ => sum) (b.add (4 * c : Nat)) p.act st.2 c outscale outZp
      return (next st.1, st.2.add 1))
    (fun c => (sbufAt p c, outp.add c)) (J := J)
    (T := fun c => cover (chanStretches input w b outp p c) ∪ ∅) fun c hc => by
      rw [← bind_assoc]
      refine (chan_runs e dot hdot (h c hc)).bind fun _ => Runs.pure fun m hm => ⟨?_, hm⟩
      rw [hnext, Ptr.add_add]
      rfl
  simp only [h0, Set.union_empty, ← cover_rounds] at loop
  exact loop.weaken fun st m hm => ⟨by rw [hm.1], hm.2⟩

end Loop

/-- **The rule of the sums of a pixel.**  Both loops of the source compute the same sums. -/
theorem sumChannels_runs
    (h : ∀ c < cho, ∀ m, J c m → J (c + 1) (m.setByte (outp.add c) (BitVec.ofInt 8
      (e.chanOut m input w b p outscale outZp c)))) :
    Runs Mem.val (J 0) (sumChannels e input w b cho p outscale outZp outp)
      (cover (rounds cho fun c => chanStretches input w b outp p c))
      fun st m => st.2 = outp.add cho ∧ J cho m := by
  have step : p.dmul ≠ 0 → ∀ c, (sbufAt p c).add p.maxk = sbufAt p (c + 1) := fun hd c => by
    simp only [sbufAt, Ptr.add, hd, ne_eq, not_false_eq_true, if_true]
    congr 1
    push_cast; ring
  by_cases h9 : p.maxk * p.chi input = 9 ∧ p.dmul ≠ 0
  · rw [show sumChannels e input w b cho p outscale outZp outp = _ from if_pos h9]
    refine chans_runs e (tmDotProd3x3x1 e) (fun s => s.add p.maxk) ?_ (step h9.2) h
    rw [h9.1]
    exact tmDotProd3x3x1_reads e
  · rw [show sumChannels e input w b cho p outscale outZp outp = _ from if_neg h9]
    refine chans_runs e (fun s k => tmDotProd e s k (p.maxk * p.chi input))
      (fun s => if p.dmul ≠ 0 then s.add p.maxk else s)
      (fun s k => tmDotProd_reads e s k _) (fun c => ?_) h
    by_cases hd : p.dmul = 0
    · simp [sbufAt, hd]
    · rw [if_pos hd]
      exact step hd c

end Sums

/-! ### The whole layer -/

section Whole

variable {w b outp : Ptr} {outscale : Int} {q : Quant}

theorem pwPixel_runs {sptr : Ptr} {chi cho act : Nat} {outZp : Int} :
    Runs Mem.val (fun _ => True) (pwPixel e sptr w b chi cho act outscale outZp outp)
      (cover (pwStretches sptr w b outp chi cho)) fun o _ => o = outp.add cho := by
  have free : ∀ {n sums bs act outp scales outS outZp},
      Runs Mem.val (fun _ => True) (tmPostprocessSum e n sums bs act outp scales outS outZp)
        (span bs.region bs.off (4 * n) false ∪ (span .sumscale scales n false ∪
          span outp.region outp.off n true)) fun _ _ => True :=
    tmPostprocessSum_runs e (J := fun _ _ => True) fun _ _ _ _ => trivial
  have pairs := Runs.foldN_val (ν := Mem.val) (n := cho / 2)
    (f := fun i (st : Ptr × Ptr) => do
      let sums ← tmDotProdPack2 e sptr st.2 chi
      tmPostprocessSum e 2 (fun j => if j = 0 then sums.1 else sums.2) (b.add (8 * i : Nat)) act
        st.1 (2 * i : Nat) outscale outZp
      return (st.1.add 2, st.2.add (chi * 2 : Nat)))
    (fun i => (outp.add (2 * i : Nat), w.add (chi * 2 * i : Nat))) (J := fun _ _ => True)
    (T := _) fun i _ =>
      ((tmDotProdPack2_reads e sptr _ chi) _).bind fun sums => (free.conseq
        (fun _ _ => trivial) rfl fun _ _ h => h).bind fun _ => Runs.pure fun m hm => ⟨by
          rw [Ptr.add_add, Ptr.add_add]
          push_cast
          ring_nf, trivial⟩
  have rest := Runs.foldN_val (ν := Mem.val) (n := cho % 2)
    (f := fun i (st : Ptr × Ptr) => do
      let c := 2 * (cho / 2) + i
      let sum ← tmDotProd e sptr st.2 chi
      tmPostprocessSum e 1 (fun _ => sum) (b.add (4 * c : Nat)) act st.1 c outscale outZp
      return (st.1.add 1, st.2.add chi))
    (fun i => (outp.add (2 * (cho / 2) + i : Nat), w.add (chi * (2 * (cho / 2) + i) : Nat)))
    (J := fun _ _ => True)
    (T := _) fun i _ =>
      ((tmDotProd_reads e sptr _ chi) _).bind fun sum => (free.conseq
        (fun _ _ => trivial) rfl fun _ _ h => h).bind fun _ => Runs.pure fun m hm => ⟨by
          rw [Ptr.add_add, Ptr.add_add]
          push_cast
          ring_nf, trivial⟩
  have h0 : ((outp.add (2 * 0 : Nat), w.add (chi * 2 * 0 : Nat)) : Ptr × Ptr) = (outp, w) := by
    simp
  have h1 : ((outp.add (2 * (cho / 2) + 0 : Nat), w.add (chi * (2 * (cho / 2) + 0) : Nat)) :
      Ptr × Ptr) = (outp.add (2 * (cho / 2) : Nat), w.add (chi * 2 * (cho / 2) : Nat)) := by
    simp [Nat.mul_assoc]
  simp only [h0] at pairs
  simp only [h1] at rest
  refine ((pairs.conseq (fun _ _ => trivial) rfl fun _ _ h => h).bind_eq
    (rest.bind_eq (U := ∅) ?_)).of_eq ?_
  · exact Runs.pure fun m hm => by rw [Nat.div_add_mod]
  · have source : (upTo (cho / 2) fun _ => span sptr.region sptr.off chi false) ∪
        (upTo (cho % 2) fun _ => span sptr.region sptr.off chi false) =
          span sptr.region sptr.off (if cho = 0 then 0 else chi) false := by
      simp only [upTo_const]
      split_ifs <;> first | omega | simp
    have kernel := upTo_span_pairs w.region w.off cho chi false
    have bias := upTo_span_pairs b.region b.off cho 4 false
    have scale := upTo_span_pairs Region.sumscale 0 cho 1 false
    have output := upTo_span_pairs outp.region outp.off cho 1 true
    simp only [zero_add, Nat.one_mul, Nat.reduceMul] at bias scale output
    simp only [Ptr.add_region, Ptr.add_off, Set.union_empty, upTo_union, pwStretches, cover_cons,
      cover_nil, Stretch.rd, Stretch.wr, ← Nat.mul_two, Nat.reduceMul]
    rw [← source, ← kernel, ← bias, ← scale, ← output]
    ac_rfl

theorem fillSbuf_runs {inZp srcY0 srcX0 : Int} :
    Runs Mem.val (KOftTable input p) (fillSbuf e input out p inZp srcY0 srcX0)
      (cover (if p.slow input srcY0 srcX0
        then padStretches input (tmMatp input srcY0 srcX0 0) (p.chans input out) p srcY0 srcX0
        else validStretches input (tmMatp input srcY0 srcX0 0) (p.chans input out) p))
      fun _ => KOftTable input p := by
  by_cases hs : p.slow input srcY0 srcX0 = true
  · rw [show fillSbuf e input out p inZp srcY0 srcX0 = _ from if_pos hs, if_pos hs]
    exact fillPad_runs e
  · rw [show fillSbuf e input out p inZp srcY0 srcX0 = _ from if_neg hs, if_neg hs]
    exact (fillValid_runs e (J := fun _ _ => True) fun _ _ _ _ _ _ => trivial).conseq
      (fun m hm => ⟨hm, trivial⟩) rfl fun _ m hm => hm.1

theorem convPixel_runs {y x : Nat} :
    Runs Mem.val (KOftTable input p) (convPixel e input out w b p outscale q y x outp)
      (cover (pixelStretches input out w b outp p y x))
      fun o m => o = outp.add out.c ∧ KOftTable input p m := by
  have sums : Runs Mem.val (KOftTable input p)
      (sumChannels e input w b out.c p outscale q.outZp outp)
      (cover (rounds out.c fun c => chanStretches input w b outp p c))
      fun st m => st.2 = outp.add out.c ∧ KOftTable input p m :=
    sumChannels_runs e (J := fun _ => KOftTable input p) fun _ _ _ hm => hm
  refine ((fillSbuf_runs e).bind fun _ => sums.bind fun st => Runs.pure (Q := fun o m =>
    o = outp.add out.c ∧ KOftTable input p m) fun m hm => hm).of_eq ?_
  simp only [pixelStretches, cover_append, Set.union_empty]

/-- The loop over the pixels, for either way to do a pixel. -/
theorem pixels_runs {P : Mem → Prop} {pixel : Nat → Nat → Ptr → Eng Ptr}
    {T : Nat → Nat → Set (Access Cell)}
    (h : ∀ y x, Runs Mem.val P (pixel y x (outPos out y x)) (T y x)
      fun o m => o = (outPos out y x).add out.c ∧ P m) :
    Runs Mem.val P
      (foldN out.h out.data fun y outp => foldN out.w outp fun x outp => pixel y x outp)
      (upTo out.h fun y => upTo out.w fun x => T y x) fun _ => P := by
  have row : ∀ y, Runs Mem.val P (foldN out.w (outPos out y 0) fun x outp => pixel y x outp)
      (upTo out.w fun x => T y x) fun o m => o = outPos out (y + 1) 0 ∧ P m := fun y =>
    (Runs.foldN_val (outPos out y) (J := fun _ => P) fun x _ => (h y x).weaken fun o m ho =>
      ⟨ho.1.trans (by simp only [outPos, Ptr.add_add]; push_cast; ring_nf), ho.2⟩).weaken
        fun o m ho => ⟨ho.1.trans (by simp only [outPos]; push_cast; ring_nf), ho.2⟩
  have h0 : outPos out 0 0 = out.data := by simp [outPos]
  have rows := Runs.foldN_val (ν := Mem.val) (fun y => outPos out y 0) (J := fun _ => P)
    (n := out.h) (f := fun y outp => foldN out.w outp fun x outp => pixel y x outp)
    fun y _ => row y
  rw [h0] at rows
  exact rows.weaken fun _ _ hm => hm.2

/-- **The stretches of a convolution are exact**, and its result is that of its checks. -/
theorem tmlConv2dDwconv2d_runs {ws : Ptr} :
    Runs Mem.val (fun _ => True) (tmlConv2dDwconv2d e input out w b p ws q)
      (cover (convStretches input out w b p ws)) fun r _ => r = p.err := by
  have scales : Runs Mem.val (fun _ => True) (fillSumscale e out.c ws q.inS)
      (cover [.rd ws.region ws.off (4 * out.c), .wr .sumscale 0 out.c]) fun _ _ => True :=
    fillSumscale_runs e (J := fun _ _ => True) fun _ _ _ _ => trivial
  unfold tmlConv2dDwconv2d convStretches
  by_cases herr : p.err = .ok
  · rw [if_neg (not_not.mpr herr), if_neg (not_not.mpr herr), herr, cover_append]
    split
    · refine scales.bind fun _ => ((@pixels_runs out _ _ _ fun y x => (pwPixel_runs e).weaken
        fun o _ ho => ⟨ho, trivial⟩).bind fun _ => Runs.pure fun _ _ => rfl).of_eq ?_
      simp only [Set.union_empty, cover_rounds]
    · have table : Runs Mem.val (fun _ => True) (genKOft input p) (span .kOft 0 p.maxk true)
          fun _ m => KOftTable input p m ∧ True := genKOft_runs fun _ _ _ h => h
      refine scales.bind fun _ => (table.bind fun _ =>
        ((@pixels_runs out _ _ _ fun y x => convPixel_runs e).conseq (fun m hm => hm.1) rfl
          fun _ _ h => h).bind fun _ => Runs.pure fun _ _ => rfl).of_eq ?_
      simp only [Set.union_empty, cover_cons, cover_rounds, Stretch.wr]
  · rw [if_pos herr, if_pos herr, cover_nil]
    exact Runs.pure fun _ _ => rfl

end Whole

end Runs

end TinyMaix
