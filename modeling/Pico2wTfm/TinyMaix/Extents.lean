import Pico2wTfm.TinyMaix.Engine

/-!
# TinyMaix — Extents

What a run of a model touches, read off the model bytes.  The records of `tm_model.c` are decoded
by pure readers (`Env.word` and the readers over it); `runStretches` walks the layers as `tm_run`
does and lists the cells each of them reads and writes; `runResult` is the walk for the result.

* `tmRun_runs`: the list is exactly what `tm_run` accesses, and the result is the walk's;
* `tmPreprocess_runs`, `tmLoad_reads`: the same of preprocessing and of loading.

So a bound on every access of every run of a model is a decidable condition on its bytes.
-/

namespace TinyMaix
open Bytes Footprint

/-! ### Reading the model -/

/-- The little-endian word at `p` of the model. -/
def Env.word (e : Env) (w : Nat) (p : Ptr) : Nat := leValue (window e.model p.off w)

def Env.i32 (e : Env) (p : Ptr) : Int := toI32 (e.word 4 p)
def Env.f32 (e : Env) (p : Ptr) : F32 := BitVec.ofNat 32 (e.word 4 p)

/-- The dimensions at `p`. -/
def Env.matAt (e : Env) (p data : Ptr) : TmMat :=
  ⟨e.word 2 p, e.word 2 (p.add 2), e.word 2 (p.add 4), e.word 2 (p.add 6), data⟩

/-- The scales and zero points of the layer at `h`. -/
def Env.quantAt (e : Env) (h : Ptr) : Quant :=
  ⟨e.f32 (h.add 32), e.i32 (h.add 36), e.f32 (h.add 40), e.i32 (h.add 44)⟩

/-- The parameters of the convolution at `l`. -/
def Env.convAt (e : Env) (l : Ptr) : ConvParams :=
  ⟨e.word 1 (l.add 48), e.word 1 (l.add 49), e.word 1 (l.add 50), e.word 1 (l.add 51),
    e.word 1 (l.add 52), e.word 1 (l.add 53), e.word 2 (l.add 54), e.word 1 (l.add 56),
    e.word 1 (l.add 57), e.word 1 (l.add 58), e.word 1 (l.add 59), e.i32 (l.add 60)⟩

section Readers

variable {e : Env} {p : Ptr}

theorem leAt_model (hp : p.region = .model) (m : Mem) (w : Nat) :
    e.leAt m w p = e.word w p := by
  induction w generalizing p with
  | zero => rfl
  | succ w ih =>
      have hw : e.word (w + 1) p = (e.model p.off).toNat + 256 * e.word w (p.add 1) := by
        rw [Env.word, window_succ, leValue]
        rfl
      rw [Env.leAt, ih (p := p.add 1) hp, hw, Env.byteAt, hp]

theorem loadLe_model (hp : p.region = .model) (w : Nat) :
    Reads Mem.val (loadLe e w p) (span p.region p.off w false) fun _ => e.word w p :=
  (loadLe_reads e w p).conseq rfl fun m => leAt_model hp m w

theorem loadI32_model (hp : p.region = .model) :
    Reads Mem.val (loadI32 e p) (span p.region p.off 4 false) fun _ => e.i32 p :=
  (loadLe_model hp 4).map toI32

theorem loadF32_model (hp : p.region = .model) :
    Reads Mem.val (loadF32 e p) (span p.region p.off 4 false) fun _ => e.f32 p :=
  (loadLe_model hp 4).map (BitVec.ofNat 32)

theorem loadDims_reads (hp : p.region = .model) (data : Ptr) :
    Reads Mem.val (loadDims e p data) (span p.region p.off 8 false) fun _ => e.matAt p data := by
  refine Reads.conseq (Reads.bind_eq (loadLe_model hp 2) (Reads.bind_eq
    (loadLe_model (p := p.add 2) hp 2) (Reads.bind_eq (loadLe_model (p := p.add 4) hp 2)
      (Reads.bind_eq (loadLe_model (p := p.add 6) hp 2) (Reads.pure _))))) ?_ fun _ => rfl
  ext ⟨⟨r, i⟩, w⟩
  simp only [Set.mem_union, Set.mem_empty_iff_false, or_false, mem_span, ← and_or_left,
    Ptr.add_region, Ptr.add_off]
  refine and_congr_right fun _ => and_congr_right fun _ => ?_
  omega

theorem loadQuant_reads (hp : p.region = .model) :
    Reads Mem.val (loadQuant e p) (span p.region (p.off + 32) 16 false)
      fun _ => e.quantAt p := by
  refine Reads.conseq (Reads.bind_eq (loadF32_model (p := p.add 32) hp) (Reads.bind_eq
    (loadI32_model (p := p.add 36) hp) (Reads.bind_eq (loadF32_model (p := p.add 40) hp)
      (Reads.bind_eq (loadI32_model (p := p.add 44) hp) (Reads.pure _))))) ?_ fun _ => rfl
  ext ⟨⟨r, i⟩, w⟩
  simp only [Set.mem_union, Set.mem_empty_iff_false, or_false, mem_span, ← and_or_left,
    Ptr.add_region, Ptr.add_off]
  refine and_congr_right fun _ => and_congr_right fun _ => ?_
  omega

theorem loadConvParams_reads (hp : p.region = .model) :
    Reads Mem.val (loadConvParams e p) (span p.region (p.off + 48) 16 false)
      fun _ => e.convAt p := by
  have byte : ∀ n, Reads Mem.val (loadU8 e (p.add n)) (span p.region (p.off + n) 1 false)
      fun _ => e.word 1 (p.add n) := fun n => loadLe_model (p := p.add n) hp 1
  refine Reads.conseq (Reads.bind_eq (byte 48) (Reads.bind_eq (byte 49) (Reads.bind_eq (byte 50)
    (Reads.bind_eq (byte 51) (Reads.bind_eq (byte 52) (Reads.bind_eq (byte 53) (Reads.bind_eq
      (loadLe_model (p := p.add 54) hp 2) (Reads.bind_eq (byte 56) (Reads.bind_eq (byte 57)
        (Reads.bind_eq (byte 58) (Reads.bind_eq (byte 59) (Reads.bind_eq
          (loadLe_model (p := p.add 60) hp 4) (Reads.pure _))))))))))))) ?_ fun _ => rfl
  ext ⟨⟨r, i⟩, w⟩
  simp only [Set.mem_union, Set.mem_empty_iff_false, or_false, mem_span, ← and_or_left,
    Ptr.add_region, Ptr.add_off]
  refine and_congr_right fun _ => and_congr_right fun _ => ?_
  omega

end Readers

/-! ### The walk -/

/-- The result of the layer at `l`: only a convolution and an unknown type can fail. -/
def layerErr (e : Env) (l : Ptr) : TmErr :=
  match TmLayerType.ofCode (e.word 2 l) with
  | some .conv2d | some .dwconv2d => (e.convAt l).err
  | none => .layertype
  | _ => .ok

/-- A stretch of the record at `l`. -/
def field (l : Ptr) (off : Int) (len : Nat) : Stretch Region := .rd l.region (l.off + off) len

/-- What the `switch` of `tm_run` touches at a layer: fields of its record, and the layer. -/
def layerStretches (e : Env) (mdl : TmMdl) (input out : TmMat) : List (Stretch Region) :=
  let l := mdl.layerBody
  match TmLayerType.ofCode (e.word 2 l) with
  | some .conv2d | some .dwconv2d =>
      [field l 72 4, field l 76 4, field l 48 16, field l 68 4, field l 32 16] ++
        convStretches input out (l.add (e.word 4 (l.add 72))) (l.add (e.word 4 (l.add 76)))
          (e.convAt l) (l.add (e.word 4 (l.add 68)))
  | some .gap => field l 32 16 :: gapStretches input out
  | some .fc =>
      [field l 52 4, field l 56 4, field l 48 4, field l 32 16] ++
        fcStretches input out (l.add (e.word 4 (l.add 52))) (l.add (e.word 4 (l.add 56)))
          (l.add (e.word 4 (l.add 48)))
  | some .softmax => field l 32 16 :: softmaxStretches input out
  | some .reshape => [field l 32 16]
  | some .add =>
      [field l 48 4, field l 16 8, field l 32 16, field l 52 4, field l 56 4] ++
        addStretches input (e.matAt (l.add 16) (mdl.buf.add (e.word 4 (l.add 48)))) out
  | none => []

/-- The input of the current layer. -/
def inputAt (e : Env) (mdl : TmMdl) (input : TmMat) : TmMat :=
  if 0 < mdl.layerI then
    e.matAt (mdl.layerBody.add 16) (mdl.buf.add (e.word 4 (mdl.layerBody.add 8)))
  else input

def inputStretches (mdl : TmMdl) : List (Stretch Region) :=
  if 0 < mdl.layerI then [field mdl.layerBody 8 4, field mdl.layerBody 16 8] else []

/-- The output of the current layer. -/
def outputAt (e : Env) (mdl : TmMdl) : TmMat :=
  e.matAt (mdl.layerBody.add 24) (mdl.buf.add (e.word 4 (mdl.layerBody.add 12)))

/-- Is the current layer marked as an output? -/
def isOut (e : Env) (mdl : TmMdl) : Prop := e.word 2 (mdl.layerBody.add 2) ≠ 0

instance (e : Env) (mdl : TmMdl) : Decidable (isOut e mdl) := inferInstanceAs (Decidable (_ ≠ _))

/-- The number of scores of an output, and where they are. -/
def outSize (out : TmMat) : Nat := out.h * out.w * out.c
def outf (e : Env) (out : TmMat) : Ptr := tmAlign e (out.data.add (outSize out))

/-- What an output layer touches: its scores are dequantised behind its output. -/
def scoreStretches (e : Env) (mdl : TmMdl) : List (Stretch Region) :=
  let l := mdl.layerBody
  let out := outputAt e mdl
  if e.word 1 (mdl.b.add 5) = 0 then []
  else rounds (outSize out) fun i =>
    [.rd out.data.region (out.data.off + i) 1, field l 44 4, field l 40 4,
      .wr (outf e out).region ((outf e out).off + (4 * i : Nat)) 4]

def outputStretches (e : Env) (mdl : TmMdl) (outIdx : Nat) : List (Stretch Region) :=
  if isOut e mdl then
    [field mdl.layerBody 12 4, field mdl.layerBody 24 8, field mdl.b 5 1] ++
      scoreStretches e mdl ++ [.wr .outs outIdx 1]
  else []

/-- The next layer. -/
def nextLayer (e : Env) (mdl : TmMdl) : TmMdl :=
  { mdl with
    layerI := mdl.layerI + 1
    layerBody := mdl.layerBody.add (e.word 4 (mdl.layerBody.add 4)) }

/-- The next free output. -/
def nextOut (e : Env) (mdl : TmMdl) (outIdx : Nat) : Nat :=
  if isOut e mdl then outIdx + 1 else outIdx

/-- **What `n` layers touch.** -/
def runStretches (e : Env) : Nat → TmMdl → TmMat → Nat → List (Stretch Region)
  | 0, _, _, _ => []
  | n + 1, mdl, input, outIdx =>
      inputStretches mdl ++ [field mdl.layerBody 12 4, field mdl.layerBody 24 8] ++
        field mdl.layerBody 0 2 :: layerStretches e mdl (inputAt e mdl input) (outputAt e mdl) ++
        if layerErr e mdl.layerBody ≠ .ok then []
        else field mdl.layerBody 2 2 :: outputStretches e mdl outIdx ++ field mdl.layerBody 4 4 ::
          runStretches e n (nextLayer e mdl) (inputAt e mdl input) (nextOut e mdl outIdx)

/-- **What `n` layers return.** -/
def runResult (e : Env) : Nat → TmMdl → TmErr × TmMdl
  | 0, mdl => (.ok, mdl)
  | n + 1, mdl =>
      if layerErr e mdl.layerBody ≠ .ok then (layerErr e mdl.layerBody, mdl)
      else runResult e n (nextLayer e mdl)

/-! ### The walk is exact -/

section Runs

variable {e : Env} {mdl : TmMdl} {input out : TmMat} {outIdx : Nat}

theorem field_reads {l : Ptr} (hl : l.region = .model) (off : Int) (w : Nat) :
    Reads Mem.val (loadLe e w (l.add off)) (cover [field l off w])
      fun _ => e.word w (l.add off) :=
  (loadLe_model (p := l.add off) hl w).conseq (by simp [field, Stretch.rd]) fun _ => rfl

theorem quant_reads {l : Ptr} (hl : l.region = .model) :
    Reads Mem.val (loadQuant e l) (cover [field l 32 16]) fun _ => e.quantAt l :=
  (loadQuant_reads hl).conseq (by simp [field, Stretch.rd]) fun _ => rfl

theorem dims_reads {l : Ptr} (hl : l.region = .model) (off : Int) (data : Ptr) :
    Reads Mem.val (loadDims e (l.add off) data) (cover [field l off 8])
      fun _ => e.matAt (l.add off) data :=
  (loadDims_reads (p := l.add off) hl data).conseq (by simp [field, Stretch.rd]) fun _ => rfl

section Layer

variable (hl : mdl.layerBody.region = .model)
include hl

theorem runConv_runs (ht : TmLayerType.ofCode (e.word 2 mdl.layerBody) = some .conv2d ∨
    TmLayerType.ofCode (e.word 2 mdl.layerBody) = some .dwconv2d) :
    Runs Mem.val (fun _ => True) (runConv e mdl input out)
      (cover (layerStretches e mdl input out)) fun r _ => r = layerErr e mdl.layerBody := by
  have params : Reads Mem.val (loadConvParams e mdl.layerBody)
      (cover [field mdl.layerBody 48 16]) fun _ => e.convAt mdl.layerBody :=
    (loadConvParams_reads hl).conseq (by simp [field, Stretch.rd]) fun _ => rfl
  refine Runs.conseq (Runs.bind_eq (field_reads hl 72 4 _) (Runs.bind_eq (field_reads hl 76 4 _)
    (Runs.bind_eq (params _) (Runs.bind_eq (field_reads hl 68 4 _) (Runs.bind_eq (quant_reads hl _)
      (tmlConv2dDwconv2d_runs e)))))) (fun _ h => h) ?_ fun r _ hr => ?_
  · rcases ht with ht | ht <;>
      simp only [layerStretches, ht, ← cover_append, List.cons_append, List.nil_append]
  · rcases ht with ht | ht <;> simp only [layerErr, ht, hr]

theorem runFc_runs (ht : TmLayerType.ofCode (e.word 2 mdl.layerBody) = some .fc) :
    Runs Mem.val (fun _ => True) (runFc e mdl input out)
      (cover (layerStretches e mdl input out)) fun r _ => r = layerErr e mdl.layerBody := by
  refine Runs.conseq (Runs.bind_eq (field_reads hl 52 4 _) (Runs.bind_eq (field_reads hl 56 4 _)
    (Runs.bind_eq (field_reads hl 48 4 _) (Runs.bind_eq (quant_reads hl _) (tmlFc_runs e)))))
    (fun _ h => h) ?_ fun r _ hr => ?_
  · simp only [layerStretches, ht, ← cover_append, List.cons_append, List.nil_append]
  · simp only [layerErr, ht, hr]

theorem runAdd_runs (ht : TmLayerType.ofCode (e.word 2 mdl.layerBody) = some .add) :
    Runs Mem.val (fun _ => True) (runAdd e mdl input out)
      (cover (layerStretches e mdl input out)) fun r _ => r = layerErr e mdl.layerBody := by
  have scale : Reads Mem.val (loadF32 e (mdl.layerBody.add 52)) (cover [field mdl.layerBody 52 4])
      fun _ => e.f32 (mdl.layerBody.add 52) :=
    (field_reads hl 52 4).map (BitVec.ofNat 32)
  have zero : Reads Mem.val (loadI32 e (mdl.layerBody.add 56)) (cover [field mdl.layerBody 56 4])
      fun _ => e.i32 (mdl.layerBody.add 56) :=
    (field_reads hl 56 4).map toI32
  refine Runs.conseq (Runs.bind_eq (field_reads hl 48 4 _) (Runs.bind_eq (dims_reads hl 16 _ _)
    (Runs.bind_eq (quant_reads hl _) (Runs.bind_eq (scale _) (Runs.bind_eq (zero _)
      (tmlAdd_runs e)))))) (fun _ h => h) ?_ fun r _ hr => ?_
  · simp only [layerStretches, ht, ← cover_append, List.cons_append, List.nil_append]
  · simp only [layerErr, ht, hr]

/-- The layers whose record has no parameters of its own. -/
theorem runPlain_runs {layer : Quant → Eng TmErr} {l : List (Stretch Region)}
    (hlayer : ∀ q, Runs Mem.val (fun _ => True) (layer q) (cover l) fun r _ => r = .ok)
    (hs : layerStretches e mdl input out = field mdl.layerBody 32 16 :: l)
    (hr : layerErr e mdl.layerBody = .ok) :
    Runs Mem.val (fun _ => True) (loadQuant e mdl.layerBody >>= layer)
      (cover (layerStretches e mdl input out)) fun r _ => r = layerErr e mdl.layerBody := by
  rw [hs, hr]
  exact Runs.of_eq (Runs.bind_eq (quant_reads hl _) (hlayer _)) (cover_append ..).symm

theorem runLayer_runs :
    Runs Mem.val (fun _ => True) (runLayer e mdl input out)
      (cover (field mdl.layerBody 0 2 :: layerStretches e mdl input out))
      fun r _ => r = layerErr e mdl.layerBody := by
  refine Runs.of_eq (Runs.bind_eq (loadLe_model hl 2 _)
    (U := cover (layerStretches e mdl input out)) ?_) ?_
  · cases ht : TmLayerType.ofCode (e.word 2 mdl.layerBody) with
    | none =>
        simp only [layerStretches, layerErr, ht, cover_nil]
        exact Runs.pure fun _ _ => rfl
    | some t =>
        cases t with
        | conv2d => exact runConv_runs hl (Or.inl ht)
        | dwconv2d => exact runConv_runs hl (Or.inr ht)
        | fc => exact runFc_runs hl ht
        | add => exact runAdd_runs hl ht
        | gap =>
            refine runPlain_runs hl (fun _ => tmlGap_runs e) ?_ ?_
            · simp only [layerStretches, ht]
            · simp only [layerErr, ht]
        | softmax =>
            refine runPlain_runs hl (fun _ => tmlSoftmax_runs e) ?_ ?_
            · simp only [layerStretches, ht]
            · simp only [layerErr, ht]
        | reshape =>
            refine runPlain_runs hl (fun _ => tmlReshape_runs) ?_ ?_
            · simp only [layerStretches, ht]
            · simp only [layerErr, ht]
  · rw [cover_cons]
    simp only [field, Stretch.rd, Int.add_zero]

end Layer

theorem layerInput_reads (hl : mdl.layerBody.region = .model) :
    Reads Mem.val (layerInput e mdl input) (cover (inputStretches mdl))
      fun _ => inputAt e mdl input := by
  unfold layerInput inputAt inputStretches
  split
  · exact (Reads.bind_eq (loadLe_model (p := mdl.layerBody.add 8) hl 4)
      (loadDims_reads (p := mdl.layerBody.add 16) hl _)).conseq (by simp [field, Stretch.rd])
      fun _ => rfl
  · rw [cover_nil]
    exact Reads.pure input

theorem tmAlign_le (e : Env) (p : Ptr) : p.off ≤ (tmAlign e p).off := by
  simp only [tmAlign, tmAlignSize]
  omega

/-- The tensor that an output layer leaves in `g_outs`. -/
def outMat (e : Env) (mdl : TmMdl) : TmMat :=
  if e.word 1 (mdl.b.add 5) = 0 then outputAt e mdl
  else { outputAt e mdl with data := outf e (outputAt e mdl) }

/-- Score `i` of an output layer, from the byte that is in its output. -/
def scoreAt (e : Env) (mdl : TmMdl) (m : Mem) (i : Nat) : F32 :=
  tmDequant e.fl (e.i8At m ((outputAt e mdl).data.add i)) (e.f32 (mdl.layerBody.add 40))
    (e.i32 (mdl.layerBody.add 44))

/-- The output of the layer is in `g_outs`, and behind it in the main buffer the scores. -/
structure Stored (e : Env) (mdl : TmMdl) (outIdx : Nat) (m : Mem) : Prop where
  mat : m.outs outIdx = outMat e mdl
  scores : mdl.buf.region = .main → e.word 1 (mdl.b.add 5) ≠ 0 →
    ∀ i < outSize (outputAt e mdl),
      e.f32At m ((outf e (outputAt e mdl)).add (4 * i : Nat)) = scoreAt e mdl m i

/-- The first `i` floats at `outf` are those of the bytes at `src`, if they lie behind all of
these. -/
def Dequantised (e : Env) (h src outf : Ptr) (n i : Nat) (m : Mem) : Prop :=
  src.region = .main → outf.region = .main → src.off + n ≤ outf.off → ∀ k < i,
    e.f32At m (outf.add (4 * k : Nat)) = tmDequant e.fl (e.i8At m (src.add k))
      (e.f32 (h.add 40)) (e.i32 (h.add 44))

theorem dequant_round {h src outf : Ptr} {n i : Nat} (hi : i < n) {v : Int} {m : Mem}
    (hv : v = e.i8At m (src.add i)) (hm : Dequantised e h src outf n i m) :
    Dequantised e h src outf n (i + 1) (m.setLe 4 (outf.add (4 * i : Nat))
      (tmDequant e.fl v (e.f32 (h.add 40)) (e.i32 (h.add 44))).toNat) := by
  intro hs ho hlt k hk
  -- the floats lie behind the bytes, so the bytes are still there
  have byte : ∀ x, e.i8At (m.setLe 4 (outf.add (4 * i : Nat)) x) (src.add k) =
      e.i8At m (src.add k) := fun x =>
    e.i8At_congr (Mem.setLe_outside (Or.inr (Or.inl (by simp only [Ptr.add_off]; omega))))
  rw [byte]
  rcases Nat.lt_succ_iff_lt_or_eq.mp hk with hk | rfl
  · rw [← hm hs ho hlt k hk]
    refine e.f32At_congr fun j h₁ h₂ => Mem.setLe_outside (Or.inr (Or.inl ?_))
    simp only [Ptr.add_off] at h₁ h₂ ⊢
    push_cast at h₁ h₂ ⊢
    omega
  · rw [hv]
    exact e.f32At_setLe ho

theorem dequant_runs {h src outf : Ptr} (hh : h.region = .model) {n : Nat} :
    Runs Mem.val (fun _ => True) (dequant e h src outf n)
      (upTo n fun i => cover [.rd src.region (src.off + i) 1, field h 44 4, field h 40 4,
        .wr outf.region (outf.off + (4 * i : Nat)) 4])
      fun _ m => Dequantised e h src outf n n m := by
  have zero : Reads Mem.val (loadI32 e (h.add 44)) (cover [field h 44 4])
      fun _ => e.i32 (h.add 44) := (field_reads hh 44 4).map toI32
  have scale : Reads Mem.val (loadF32 e (h.add 40)) (cover [field h 40 4])
      fun _ => e.f32 (h.add 40) := (field_reads hh 40 4).map (BitVec.ofNat 32)
  have none : ∀ m : Mem, True → Dequantised e h src outf n 0 m := fun m _ _ _ _ k hk =>
    absurd hk (Nat.not_lt_zero k)
  refine Runs.conseq (Runs.forN (J := Dequantised e h src outf n) fun i hi => Runs.of_eq
    (Runs.bind (loadI8_reads e _ _) fun v => Runs.bind_eq (zero _) (Runs.bind_eq (scale _)
      (storeF32_runs (Q := fun _ m => Dequantised e h src outf n (i + 1) m) fun m hm =>
        dequant_round hi hm.1 hm.2))) ?_) none rfl fun _ _ h => h
  simp [Stretch.rd, Stretch.wr]

theorem layerOutput_runs (hl : mdl.layerBody.region = .model) (hb : mdl.b.region = .model) :
    Runs Mem.val (fun _ => True) (layerOutput e mdl outIdx)
      (cover (field mdl.layerBody 2 2 :: outputStretches e mdl outIdx))
      fun r m => r = nextOut e mdl outIdx ∧ (isOut e mdl → Stored e mdl outIdx m) := by
  have mat : ∀ (m : Mem) (o : TmMat), (m.setOut outIdx o).outs outIdx = o := fun m o => if_pos rfl
  rw [cover_cons_append]
  refine Runs.bind_eq (field_reads hl 2 2 _) ?_
  by_cases ho : isOut e mdl
  swap
  · have hw : ¬e.word 2 (mdl.layerBody.add 2) ≠ 0 := ho
    rw [if_neg hw, outputStretches, nextOut, if_neg ho, if_neg ho, cover_nil]
    exact Runs.pure fun _ _ => ⟨rfl, fun h => absurd h ho⟩
  · have hw : e.word 2 (mdl.layerBody.add 2) ≠ 0 := ho
    rw [if_pos hw, outputStretches, nextOut, if_pos ho, if_pos ho]
    refine Runs.of_eq (Runs.bind_eq (field_reads hl 12 4 _) (Runs.bind_eq (dims_reads hl 24 _ _)
      (Runs.bind_eq (field_reads hb 5 1 _)
        (U := cover (scoreStretches e mdl) ∪ cover [Stretch.wr .outs outIdx 1]) ?_))) ?_
    · by_cases hd : e.word 1 (mdl.b.add 5) = 0
      · rw [if_pos hd, scoreStretches, if_pos hd, cover_nil, Set.empty_union]
        refine Runs.of_eq (Runs.bind (storeOut_runs (Q := fun _ m => Stored e mdl outIdx m)
          fun m _ => ⟨?_, fun _ h => absurd hd h⟩) fun _ => Runs.pure fun _ h =>
            ⟨rfl, fun _ => h⟩) (by simp [Stretch.wr])
        rw [mat, outMat, if_pos hd]
        rfl
      · rw [if_neg hd, scoreStretches, if_neg hd, cover_rounds]
        refine Runs.of_eq (Runs.bind (dequant_runs hl) fun _ => Runs.bind
          (storeOut_runs (Q := fun _ m => Stored e mdl outIdx m) fun m hm => ⟨?_, fun hr _ => ?_⟩)
            fun _ => Runs.pure fun _ h => ⟨rfl, fun _ => h⟩) (by simp [Stretch.wr]; rfl)
        · rw [mat, outMat, if_neg hd]
          rfl
        · exact hm hr hr (tmAlign_le e _)
    · simp only [cover_append, cover_cons, cover_nil, Set.union_empty, Set.union_assoc]

/-- One round of the loop of `tm_run`. -/
def oneLayer (e : Env) (mdl : TmMdl) (input : TmMat) (outIdx : Nat) :
    Eng (TmErr × TmMdl × TmMat × Nat) := do
  let input ← layerInput e mdl input
  let outOft ← loadU32 e (mdl.layerBody.add 12)
  let out ← loadDims e (mdl.layerBody.add 24) (mdl.buf.add outOft)
  let res ← runLayer e mdl input out
  if res ≠ .ok then return (res, mdl, input, outIdx)
  else do
    let outIdx ← layerOutput e mdl outIdx
    let size ← loadU32 e (mdl.layerBody.add 4)
    return (res, { mdl with layerI := mdl.layerI + 1, layerBody := mdl.layerBody.add size }, input,
      outIdx)

/-- The loop is its rounds. -/
theorem tmRunLayers_succ (e : Env) (n : Nat) (mdl : TmMdl) (input : TmMat) (outIdx : Nat) :
    tmRunLayers e (n + 1) mdl input outIdx = oneLayer e mdl input outIdx >>= fun r =>
      if r.1 ≠ .ok then pure (r.1, r.2.1) else tmRunLayers e n r.2.1 r.2.2.1 r.2.2.2 := by
  rw [tmRunLayers, oneLayer]
  simp only [bind_assoc]
  refine congrArg _ (funext fun input' => congrArg _ (funext fun outOft => congrArg _
    (funext fun out => congrArg _ (funext fun res => ?_))))
  split
  · rename_i h
    rw [pure_bind, if_pos h]
  · rename_i h
    simp only [bind_assoc, pure_bind, if_neg h]

/-- What one round touches. -/
def oneStretches (e : Env) (mdl : TmMdl) (input : TmMat) (outIdx : Nat) : List (Stretch Region) :=
  inputStretches mdl ++ [field mdl.layerBody 12 4, field mdl.layerBody 24 8] ++
    field mdl.layerBody 0 2 :: layerStretches e mdl (inputAt e mdl input) (outputAt e mdl) ++
    if layerErr e mdl.layerBody ≠ .ok then []
    else field mdl.layerBody 2 2 :: outputStretches e mdl outIdx ++ [field mdl.layerBody 4 4]

theorem runStretches_succ (n : Nat) : runStretches e (n + 1) mdl input outIdx =
    oneStretches e mdl input outIdx ++ if layerErr e mdl.layerBody ≠ .ok then []
      else runStretches e n (nextLayer e mdl) (inputAt e mdl input) (nextOut e mdl outIdx) := by
  rw [runStretches, oneStretches]
  split
  · simp only [List.append_nil]
  · simp only [List.append_assoc, List.cons_append, List.nil_append]

/-- What one round returns. -/
def oneResult (e : Env) (mdl : TmMdl) (input : TmMat) (outIdx : Nat) : TmErr × TmMdl × TmMat × Nat :=
  if layerErr e mdl.layerBody ≠ .ok then
    (layerErr e mdl.layerBody, mdl, inputAt e mdl input, outIdx)
  else (.ok, nextLayer e mdl, inputAt e mdl input, nextOut e mdl outIdx)

theorem oneLayer_runs (hl : mdl.layerBody.region = .model) (hb : mdl.b.region = .model) :
    Runs Mem.val (fun _ => True) (oneLayer e mdl input outIdx)
      (cover (oneStretches e mdl input outIdx)) fun r m => r = oneResult e mdl input outIdx ∧
        (layerErr e mdl.layerBody = .ok → isOut e mdl → Stored e mdl outIdx m) := by
  have size : Reads Mem.val (loadU32 e (mdl.layerBody.add 4)) (cover [field mdl.layerBody 4 4])
      fun _ => e.word 4 (mdl.layerBody.add 4) := field_reads hl 4 4
  refine Runs.of_eq (Runs.bind_eq (layerInput_reads hl _) (Runs.bind_eq (field_reads hl 12 4 _)
    (Runs.bind_eq (dims_reads hl 24 _ _) (Runs.bind_eq ((runLayer_runs hl).weaken fun r _ hr =>
      ⟨hr, trivial⟩) (U := cover (if layerErr e mdl.layerBody ≠ .ok then []
        else field mdl.layerBody 2 2 :: outputStretches e mdl outIdx ++
          [field mdl.layerBody 4 4])) ?_)))) ?_
  · by_cases hr : layerErr e mdl.layerBody = .ok
    · rw [oneResult, if_neg (not_not.mpr hr), if_neg (not_not.mpr hr), if_neg (not_not.mpr hr),
        cover_append]
      refine Runs.bind_eq (layerOutput_runs hl hb)
        (Runs.of_eq (Runs.bind_eq (size _) (Runs.pure fun _ h => ⟨?_, fun _ => h⟩))
          (Set.union_empty _))
      rw [hr]
      rfl
    · rw [oneResult, if_pos hr, if_pos hr, if_pos hr, cover_nil]
      exact Runs.pure fun _ _ => ⟨rfl, fun h => absurd h hr⟩
  · rw [oneStretches]
    simp only [cover_append, cover_cons, cover_nil, Set.union_empty, Set.union_assoc, outputAt]

/-- **The walk is exact** for `n` layers. -/
theorem tmRunLayers_runs (n : Nat) (hl : mdl.layerBody.region = .model)
    (hb : mdl.b.region = .model) :
    Runs Mem.val (fun _ => True) (tmRunLayers e n mdl input outIdx)
      (cover (runStretches e n mdl input outIdx)) fun r _ => r = runResult e n mdl := by
  induction n generalizing mdl input outIdx with
  | zero =>
      rw [runStretches, cover_nil]
      exact Runs.pure fun _ _ => rfl
  | succ n ih =>
      rw [tmRunLayers_succ, runStretches_succ, cover_append, runResult]
      refine Runs.bind_eq ((oneLayer_runs hl hb).weaken fun r _ hr => ⟨hr.1, trivial⟩) ?_
      by_cases hr : layerErr e mdl.layerBody = .ok
      · rw [oneResult, if_neg (not_not.mpr hr), if_neg (not_not.mpr rfl),
          if_neg (not_not.mpr hr), if_neg (not_not.mpr hr)]
        exact ih hl hb
      · rw [oneResult, if_pos hr, if_pos hr, if_pos hr, if_pos hr, cover_nil]
        exact Runs.pure fun _ _ => rfl

end Runs

/-! ### Loading, preprocessing, running -/

/-- What `tm_load` reads: the fields it checks, as far as they are right, and the dimensions. -/
def loadStretches (e : Env) (bin buf : Ptr) : List (Stretch Region) :=
  field bin 0 4 ::
    if e.word 4 bin ≠ tmMdlMagic then []
    else field bin 4 1 ::
      if e.word 1 (bin.add 4) ≠ tmMdlType then []
      else if buf = .null then []
      else field bin 16 4 ::
        if 0 < e.word 4 (bin.add 16) then [] else [field bin 20 8, field bin 28 4]

/-- What `tm_load` returns. -/
def loadResult (e : Env) (mdl : TmMdl) (bin buf : Ptr) (cb : Bool) (input : TmMat) :
    TmErr × TmMdl × TmMat :=
  if e.word 4 bin ≠ tmMdlMagic then (.magic, mdl, input)
  else if e.word 1 (bin.add 4) ≠ tmMdlType then (.mdltype, mdl, input)
  else if buf = .null then (.oom, { mdl with b := bin, cb := cb, buf := .null }, input)
  else if 0 < e.word 4 (bin.add 16) then
    (.oom, { mdl with b := bin, cb := cb, buf := buf, mainAlloc := 0, subbuf := .null }, input)
  else (.ok, ⟨bin, cb, buf, .null, 0, 0, bin.add 64⟩, e.matAt (bin.add 20) buf)

theorem tmLoad_reads {e : Env} {mdl : TmMdl} {bin buf : Ptr} {cb : Bool} {input : TmMat}
    (hb : bin.region = .model) :
    Reads Mem.val (tmLoad e mdl bin buf cb input) (cover (loadStretches e bin buf))
      fun _ => loadResult e mdl bin buf cb input := by
  have magic : Reads Mem.val (loadU32 e bin) (cover [field bin 0 4]) fun _ => e.word 4 bin :=
    (loadLe_model hb 4).conseq (by simp [field, Stretch.rd]) fun _ => rfl
  rw [loadStretches, cover_cons_append]
  refine Reads.bind_eq magic ?_
  by_cases hm : e.word 4 bin ≠ tmMdlMagic
  · rw [if_pos hm, if_pos hm, loadResult, if_pos hm, cover_nil]
    exact Reads.pure _
  rw [if_neg hm, if_neg hm, loadResult, if_neg hm, cover_cons_append]
  refine Reads.bind_eq (field_reads hb 4 1) ?_
  by_cases ht : e.word 1 (bin.add 4) ≠ tmMdlType
  · rw [if_pos ht, if_pos ht, if_pos ht, cover_nil]
    exact Reads.pure _
  rw [if_neg ht, if_neg ht, if_neg ht]
  by_cases hbuf : buf = .null
  · rw [if_pos hbuf, if_pos hbuf, if_pos hbuf, cover_nil]
    exact Reads.pure _
  rw [if_neg hbuf, if_neg hbuf, if_neg hbuf, cover_cons_append]
  refine Reads.bind_eq (field_reads hb 16 4) ?_
  by_cases hs : 0 < e.word 4 (bin.add 16)
  · rw [if_pos hs, if_pos hs, if_pos hs, cover_nil]
    exact Reads.pure _
  rw [if_neg hs, if_neg hs, if_neg hs, cover_cons_append]
  refine Reads.bind_eq (dims_reads hb 20 buf) (Reads.conseq
    (Reads.bind_eq (field_reads hb 28 4) (Reads.pure _)) (Set.union_empty _) fun _ => rfl)

/-- The header of a model that `tm_load` accepts: its magic, its type, no second buffer. -/
structure Env.Loads (e : Env) (bin : Ptr) : Prop where
  magic : e.word 4 bin = tmMdlMagic
  mdlType : e.word 1 (bin.add 4) = tmMdlType
  subSize : e.word 4 (bin.add 16) = 0

theorem loadResult_ok {e : Env} {mdl : TmMdl} {bin buf : Ptr} {cb : Bool} {input : TmMat}
    (hbuf : buf ≠ .null) : (loadResult e mdl bin buf cb input).1 = .ok ↔ e.Loads bin := by
  unfold loadResult
  split_ifs with h₁ h₂ h₃
  · exact ⟨fun h => (by cases h), fun h => absurd h.magic h₁⟩
  · exact ⟨fun h => (by cases h), fun h => absurd h.mdlType h₂⟩
  · exact ⟨fun h => (by cases h), fun h => absurd h.subSize (Nat.pos_iff_ne_zero.mp h₃)⟩
  · exact ⟨fun _ => ⟨not_not.mp h₁, not_not.mp h₂, Nat.eq_zero_of_not_pos h₃⟩, fun _ => rfl⟩

theorem loadResult_eq {e : Env} {mdl : TmMdl} {bin buf : Ptr} {cb : Bool} {input : TmMat}
    (hbuf : buf ≠ .null) (h : e.Loads bin) : loadResult e mdl bin buf cb input =
      (.ok, ⟨bin, cb, buf, .null, 0, 0, bin.add 64⟩, e.matAt (bin.add 20) buf) := by
  rw [loadResult, if_neg (not_not.mpr h.magic), if_neg (not_not.mpr h.mdlType), if_neg hbuf,
    if_neg (by rw [h.subSize]; exact Nat.lt_irrefl 0)]

/-- What `tm_preprocess` touches for an image of bytes. -/
def preprocessStretches (mdl : TmMdl) (input out : TmMat) : List (Stretch Region) :=
  [field mdl.b 96 4, field mdl.b 100 4, .rd input.data.region input.data.off (outSize input),
    .wr out.data.region out.data.off (outSize input)]

/-- The invariant rule of the conversion of an image. -/
theorem tmPreprocess_runs {e : Env} {mdl : TmMdl} {input out : TmMat} {J : Nat → Mem → Prop}
    (hb : mdl.b.region = .model)
    (h : ∀ i < outSize input, ∀ m, J i m → J (i + 1) (m.setByte (out.data.add i)
      (BitVec.ofInt 8 ((e.leAt m 1 (input.data.add i) : Int) - 128)))) :
    Runs Mem.val (J 0) (tmPreprocess e mdl .uint2int input out)
      (cover (preprocessStretches mdl input out)) fun r m => r = (.ok, out) ∧ J (outSize input) m := by
  have scale : Reads Mem.val (loadF32 e (mdl.b.add 96)) (cover [field mdl.b 96 4])
      fun _ => e.f32 (mdl.b.add 96) := (field_reads hb 96 4).map (BitVec.ofNat 32)
  have zero : Reads Mem.val (loadI32 e (mdl.b.add 100)) (cover [field mdl.b 100 4])
      fun _ => e.i32 (mdl.b.add 100) := (field_reads hb 100 4).map toI32
  refine Runs.of_eq (Runs.bind_eq (scale _) (Runs.bind_eq (zero _) (Runs.bind
    (Runs.forN (J := J) fun i hi => Runs.bind (loadLe_reads e 1 _ (J i)) fun x =>
      storeI8_runs fun m hm => ?_) fun _ => Runs.pure fun m hm => ⟨rfl, hm⟩))) ?_
  · obtain ⟨rfl, hm⟩ := hm
    exact h i hi m hm
  · simp only [preprocessStretches, cover_cons, cover_nil, Set.union_empty, Stretch.rd, Stretch.wr,
      upTo_union, Ptr.add_region, Ptr.add_off, upTo_span_one, outSize]

/-- The model as `tm_run` starts on it. -/
def firstLayer (mdl : TmMdl) : TmMdl := { mdl with layerI := 0, layerBody := mdl.b.add 64 }

/-- A walk moves on in the model, and changes nothing else of it. -/
theorem firstLayer_runResult (e : Env) (n : Nat) (mdl : TmMdl) :
    firstLayer (runResult e n mdl).2 = firstLayer mdl := by
  induction n generalizing mdl with
  | zero => rfl
  | succ n ih =>
      rw [runResult]
      split
      · rfl
      · exact ih (nextLayer e mdl)

/-- The walk reads the model, not the image. -/
theorem runStretches_pic {e e' : Env} (hm : e.model = e'.model) (ha : e.mainAddr = e'.mainAddr)
    (n : Nat) (mdl : TmMdl) (input : TmMat) (outIdx : Nat) :
    runStretches e n mdl input outIdx = runStretches e' n mdl input outIdx := by
  obtain ⟨m, p, a, fl⟩ := e
  obtain ⟨m', p', a', fl'⟩ := e'
  obtain rfl : m = m' := hm
  obtain rfl : a = a' := ha
  induction n generalizing mdl input outIdx with
  | zero => rfl
  | succ n ih =>
      rw [runStretches, runStretches, ih]
      rfl

theorem runResult_pic {e e' : Env} (hm : e.model = e'.model) (n : Nat) (mdl : TmMdl) :
    runResult e n mdl = runResult e' n mdl := by
  obtain ⟨m, p, a, fl⟩ := e
  obtain rfl : m = e'.model := hm
  induction n generalizing mdl with
  | zero => rfl
  | succ n ih =>
      rw [runResult, runResult, ih]
      rfl

theorem loadStretches_pic {e e' : Env} (hm : e.model = e'.model) (bin buf : Ptr) :
    loadStretches e bin buf = loadStretches e' bin buf := by
  obtain ⟨m, p, a, fl⟩ := e
  obtain rfl : m = e'.model := hm
  rfl

theorem matAt_pic {e e' : Env} (hm : e.model = e'.model) (p data : Ptr) :
    e.matAt p data = e'.matAt p data := by
  simp only [Env.matAt, Env.word, hm]

def layerCnt (e : Env) (mdl : TmMdl) : Nat := e.word 2 (mdl.b.add 10)

/-- **The walk is exact.**  A run of a model accesses exactly the stretches its bytes describe,
and returns what its bytes determine. -/
theorem tmRun_runs {e : Env} {mdl : TmMdl} {input : TmMat} (hb : mdl.b.region = .model) :
    Runs Mem.val (fun _ => True) (tmRun e mdl input)
      (cover (field mdl.b 10 2 :: runStretches e (layerCnt e mdl) (firstLayer mdl) input 0))
      fun r _ => r = runResult e (layerCnt e mdl) (firstLayer mdl) := by
  rw [cover_cons_append]
  have walk := @tmRunLayers_runs e (firstLayer mdl) input 0 (layerCnt e mdl) hb hb
  exact Runs.bind_eq (field_reads hb 10 2 _) walk

end TinyMaix
