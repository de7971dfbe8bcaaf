import Pico2wTfm.TinyMaix.Layers

/-!
# TinyMaix — Engine

`tm_model.c`: loading a model, preprocessing an image, and running the layers.  The model is a
byte string in `g_decrypted_model`; the engine reads its header, its layer records and their
weights in place, at the offsets the records themselves give.

The branches for model types other than `INT8` are not compiled into this port and are left out, as
is `layer_cb`, which does nothing.
-/

namespace TinyMaix
open Bytes Footprint

/-- `tm_mdl_t`. -/
structure TmMdl where
  b : Ptr
  /-- Is a layer callback set?  The only one there is, `layer_cb`, does nothing. -/
  cb : Bool
  buf : Ptr
  subbuf : Ptr
  mainAlloc : Nat
  layerI : Nat
  layerBody : Ptr
deriving DecidableEq, Repr

/-- A zeroed `tm_mdl_t`. -/
def TmMdl.zero : TmMdl := ⟨.null, false, .null, .null, 0, 0, .null⟩

/-! ### Loading -/

/-- The dimensions at `p`, with a data pointer: `memcpy` of four `uint16_t`s. -/
def loadDims (e : Env) (p data : Ptr) : Eng TmMat := do
  let dims ← loadU16 e p
  let h ← loadU16 e (p.add 2)
  let w ← loadU16 e (p.add 4)
  let c ← loadU16 e (p.add 6)
  return ⟨dims, h, w, c, data⟩

/-- The part of `tm_load` after the buffers are set.  The source copies a whole `tm_mat_t`, 12
bytes, before it sets the data pointer. -/
def tmLoadInput (e : Env) (mdl : TmMdl) : Eng (TmErr × TmMdl × TmMat) := do
  let input ← loadDims e (mdl.b.add 20) mdl.buf
  let _ ← loadU32 e (mdl.b.add 28)
  return (.ok, { mdl with layerI := 0, layerBody := mdl.b.add 64 }, input)

/-- `tm_load`.  `tm_malloc(x)` is `NULL` in this port. -/
def tmLoad (e : Env) (mdl : TmMdl) (bin buf : Ptr) (cb : Bool) (input : TmMat) :
    Eng (TmErr × TmMdl × TmMat) := do
  let magic ← loadU32 e bin
  if magic ≠ tmMdlMagic then return (.magic, mdl, input)
  else do
    let mdlType ← loadU8 e (bin.add 4)
    if mdlType ≠ tmMdlType then return (.mdltype, mdl, input)
    else if buf = .null then return (.oom, { mdl with b := bin, cb := cb, buf := .null }, input)
    else do
      let subSize ← loadU32 e (bin.add 16)
      let mdl := { mdl with b := bin, cb := cb, buf := buf, mainAlloc := 0, subbuf := .null }
      if 0 < subSize then return (.oom, mdl, input)
      else tmLoadInput e mdl

/-! ### Preprocessing -/

/-- `tm_preprocess`.  The cases of the port's model type; the others only move the pointer. -/
def tmPreprocess (e : Env) (mdl : TmMdl) (ppType : TmPp) (input out : TmMat) :
    Eng (TmErr × TmMat) := do
  let inS ← loadF32 e (mdl.b.add 96)
  let inZp ← loadI32 e (mdl.b.add 100)
  let inSize := input.h * input.w * input.c
  match ppType with
  | .fp2int => do
      forN inSize fun i => do
        let x ← loadF32 e (input.data.add (4 * i : Nat))
        storeI8 (out.data.add i) (tmQuant e.fl x inS inZp)
      return (.ok, out)
  | .uint2int => do
      forN inSize fun i => do
        let x ← loadU8 e (input.data.add i)
        storeI8 (out.data.add i) ((x : Int) - 128)
      return (.ok, out)
  | _ => return (.ok, { out with data := input.data })

/-! ### Running -/

/-- The scales and zero points of the layer at `h`. -/
def loadQuant (e : Env) (h : Ptr) : Eng Quant := do
  let inS ← loadF32 e (h.add 32)
  let inZp ← loadI32 e (h.add 36)
  let outS ← loadF32 e (h.add 40)
  let outZp ← loadI32 e (h.add 44)
  return ⟨inS, inZp, outS, outZp⟩

/-- The parameters of the convolution layer at `l`; `depth_mul` is passed as an `int`. -/
def loadConvParams (e : Env) (l : Ptr) : Eng ConvParams := do
  let kw ← loadU8 e (l.add 48)
  let kh ← loadU8 e (l.add 49)
  let sx ← loadU8 e (l.add 50)
  let sy ← loadU8 e (l.add 51)
  let dx ← loadU8 e (l.add 52)
  let dy ← loadU8 e (l.add 53)
  let act ← loadU16 e (l.add 54)
  let padTop ← loadU8 e (l.add 56)
  let padBottom ← loadU8 e (l.add 57)
  let padLeft ← loadU8 e (l.add 58)
  let padRight ← loadU8 e (l.add 59)
  let dmul ← loadU32 e (l.add 60)
  return ⟨kw, kh, sx, sy, dx, dy, act, padTop, padBottom, padLeft, padRight, toI32 dmul⟩

def runConv (e : Env) (mdl : TmMdl) (input out : TmMat) : Eng TmErr := do
  let l := mdl.layerBody
  let wOft ← loadU32 e (l.add 72)
  let bOft ← loadU32 e (l.add 76)
  let p ← loadConvParams e l
  let wsOft ← loadU32 e (l.add 68)
  let q ← loadQuant e l
  tmlConv2dDwconv2d e input out (l.add wOft) (l.add bOft) p (l.add wsOft) q

def runFc (e : Env) (mdl : TmMdl) (input out : TmMat) : Eng TmErr := do
  let l := mdl.layerBody
  let wOft ← loadU32 e (l.add 52)
  let bOft ← loadU32 e (l.add 56)
  let wsOft ← loadU32 e (l.add 48)
  let q ← loadQuant e l
  tmlFc e input out (l.add wOft) (l.add bOft) (l.add wsOft) q

def runAdd (e : Env) (mdl : TmMdl) (input out : TmMat) : Eng TmErr := do
  let l := mdl.layerBody
  let inOft1 ← loadU32 e (l.add 48)
  let in1 ← loadDims e (l.add 16) (mdl.buf.add inOft1)
  let q ← loadQuant e l
  let inS1 ← loadF32 e (l.add 52)
  let inZp1 ← loadI32 e (l.add 56)
  tmlAdd e input in1 out q inS1 inZp1

/-- The `switch` of `tm_run`. -/
def runLayer (e : Env) (mdl : TmMdl) (input out : TmMat) : Eng TmErr := do
  let type ← loadU16 e mdl.layerBody
  match TmLayerType.ofCode type with
  | some .conv2d | some .dwconv2d => runConv e mdl input out
  | some .gap => loadQuant e mdl.layerBody >>= tmlGap e input out
  | some .fc => runFc e mdl input out
  | some .softmax => loadQuant e mdl.layerBody >>= tmlSoftmax e input out
  | some .reshape => loadQuant e mdl.layerBody >>= tmlReshape input out
  | some .add => runAdd e mdl input out
  | none => return .layertype

/-- `TM_ALIGN`; the address of `static_main_buf` counts. -/
def tmAlign (e : Env) (p : Ptr) : Ptr :=
  ⟨p.region, (e.mainAddr + p.off + (tmAlignSize - 1)) / tmAlignSize * tmAlignSize - e.mainAddr⟩

/-- The input of the current layer; the first layer has the input of the call. -/
def layerInput (e : Env) (mdl : TmMdl) (input : TmMat) : Eng TmMat :=
  if 0 < mdl.layerI then do
    let inOft ← loadU32 e (mdl.layerBody.add 8)
    loadDims e (mdl.layerBody.add 16) (mdl.buf.add inOft)
  else pure input

/-- `outf[i] = TML_DEQUANT(h, (TML_GET_OUTPUT(mdl, h))[i])`. -/
def dequant (e : Env) (h src outf : Ptr) (n : Nat) : Eng Unit :=
  forN n fun i => do
    let v ← loadI8 e (src.add i)
    let outZp ← loadI32 e (h.add 44)
    let outS ← loadF32 e (h.add 40)
    storeF32 (outf.add (4 * i : Nat)) (tmDequant e.fl v outS outZp)

/-- The output of a layer marked `is_out`; the result is the next `out_idx`. -/
def layerOutput (e : Env) (mdl : TmMdl) (outIdx : Nat) : Eng Nat := do
  let h := mdl.layerBody
  let isOut ← loadU16 e (h.add 2)
  if isOut ≠ 0 then do
    let outOft ← loadU32 e (h.add 12)
    let src := mdl.buf.add outOft
    let out ← loadDims e (h.add 24) src
    let outDeq ← loadU8 e (mdl.b.add 5)
    if outDeq = 0 then do
      storeOut outIdx out
      return outIdx + 1
    else do
      let outSize := out.h * out.w * out.c
      let outf := tmAlign e (src.add outSize)
      dequant e h src outf outSize
      storeOut outIdx { out with data := outf }
      return outIdx + 1
  else return outIdx

/-- The loop of `tm_run`, with `n` layers to go. -/
def tmRunLayers (e : Env) : Nat → TmMdl → TmMat → Nat → Eng (TmErr × TmMdl)
  | 0, mdl, _, _ => return (.ok, mdl)
  | n + 1, mdl, input, outIdx => do
      let h := mdl.layerBody
      let input ← layerInput e mdl input
      let outOft ← loadU32 e (h.add 12)
      let out ← loadDims e (h.add 24) (mdl.buf.add outOft)
      let res ← runLayer e mdl input out
      if res ≠ .ok then return (res, mdl)
      else do
        let outIdx ← layerOutput e mdl outIdx
        let size ← loadU32 e (h.add 4)
        tmRunLayers e n { mdl with layerI := mdl.layerI + 1, layerBody := h.add size } input outIdx

/-- `tm_run`.  `layer_cnt` is a word of the model, which does not change during a call; it is
read once here. -/
def tmRun (e : Env) (mdl : TmMdl) (input : TmMat) : Eng (TmErr × TmMdl) := do
  let layerCnt ← loadU16 e (mdl.b.add 10)
  tmRunLayers e layerCnt { mdl with layerI := 0, layerBody := mdl.b.add 64 } input 0

end TinyMaix
