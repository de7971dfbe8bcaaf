import Pico2wTfm.TinyMaix.OutputValues
import Pico2wTfm.TinyMaix.Walk

/-!
# TinyMaix — Calls

From a layer to a round of the loop of `tm_run`.  A round reads the record of its layer, which is in
the model and does not change; what is left of it is the call of the layer (`conv_ends`, `fc_ends`,
`gap_ends`, `softmax_ends`, `addition_ends`) and what is done for an output (`round_ends`).
-/

namespace TinyMaix
open Bytes Footprint

/-- The operands with which a layer is called, if it is a convolution. -/
def convOf (e : Env) (mdl : TmMdl) (input : TmMat) : Conv :=
  let l := mdl.layerBody
  ⟨inputAt e mdl input, outputAt e mdl, l.add (e.word 4 (l.add 72)), l.add (e.word 4 (l.add 76)),
    e.convAt l, l.add (e.word 4 (l.add 68)), e.quantAt l⟩

/-- The operands, if it is fully connected. -/
def fcOf (e : Env) (mdl : TmMdl) (input : TmMat) : Fc :=
  let l := mdl.layerBody
  ⟨inputAt e mdl input, outputAt e mdl, l.add (e.word 4 (l.add 52)), l.add (e.word 4 (l.add 56)),
    l.add (e.word 4 (l.add 48)), e.quantAt l⟩

/-- The operands of an average, and of a softmax. -/
def gapOf (e : Env) (mdl : TmMdl) (input : TmMat) : Gap :=
  ⟨inputAt e mdl input, outputAt e mdl, e.quantAt mdl.layerBody⟩

def softmaxOf (e : Env) (mdl : TmMdl) (input : TmMat) : Softmax :=
  ⟨inputAt e mdl input, outputAt e mdl, e.quantAt mdl.layerBody⟩

/-- The operands, if it is a sum. -/
def additionOf (e : Env) (mdl : TmMdl) (input : TmMat) : Addition :=
  let l := mdl.layerBody
  ⟨inputAt e mdl input, e.matAt (l.add 16) (mdl.buf.add (e.word 4 (l.add 48))), outputAt e mdl,
    e.quantAt l, e.f32 (l.add 52), e.i32 (l.add 56)⟩

def Walk.conv (e : Env) (p : Walk) : Conv := convOf e p.mdl p.input
def Walk.fc (e : Env) (p : Walk) : Fc := fcOf e p.mdl p.input
def Walk.gap (e : Env) (p : Walk) : Gap := gapOf e p.mdl p.input
def Walk.softmax (e : Env) (p : Walk) : Softmax := softmaxOf e p.mdl p.input
def Walk.addition (e : Env) (p : Walk) : Addition := additionOf e p.mdl p.input

/-- The type of the current layer. -/
def Walk.type (e : Env) (p : Walk) : Option TmLayerType :=
  TmLayerType.ofCode (e.word 2 p.mdl.layerBody)

/-- The call of the current layer. -/
def Walk.call (e : Env) (p : Walk) : Eng TmErr :=
  runLayer e p.mdl (inputAt e p.mdl p.input) (outputAt e p.mdl)

section Calls

variable {e : Env} {p : Walk} {P Q : Mem → Prop} {R : TmErr → Mem → Prop} (hp : p.InModel)
include hp

theorem call_ends {t : TmLayerType} (ht : p.type e = some t)
    (h : Ends P (match t with
      | .conv2d | .dwconv2d => runConv e p.mdl (inputAt e p.mdl p.input) (outputAt e p.mdl)
      | .gap => loadQuant e p.mdl.layerBody >>=
          tmlGap e (inputAt e p.mdl p.input) (outputAt e p.mdl)
      | .fc => runFc e p.mdl (inputAt e p.mdl p.input) (outputAt e p.mdl)
      | .softmax => loadQuant e p.mdl.layerBody >>=
          tmlSoftmax e (inputAt e p.mdl p.input) (outputAt e p.mdl)
      | .reshape => loadQuant e p.mdl.layerBody >>=
          tmlReshape (inputAt e p.mdl p.input) (outputAt e p.mdl)
      | .add => runAdd e p.mdl (inputAt e p.mdl p.input) (outputAt e p.mdl)) R) :
    Ends P (p.call e) R := by
  refine ((loadLe_model (p := p.mdl.layerBody) hp.layerBody 2).ends P).bind_eq ?_
  rw [show TmLayerType.ofCode (e.word 2 p.mdl.layerBody) = some t from ht]
  cases t <;> exact h

/-- **A convolution is called**, over all channels or for each of them. -/
theorem conv_ends (ht : p.type e = some .conv2d ∨ p.type e = some .dwconv2d)
    (h : Ends P ((p.conv e).layer e) R) : Ends P (p.call e) R := by
  have params := ((loadConvParams_reads (e := e) hp.layerBody).ends P)
  have run : Ends P (runConv e p.mdl (inputAt e p.mdl p.input) (outputAt e p.mdl)) R :=
    ((field_reads hp.layerBody 72 4).ends P).bind_eq
      (((field_reads hp.layerBody 76 4).ends P).bind_eq (params.bind_eq
        (((field_reads hp.layerBody 68 4).ends P).bind_eq
          (((quant_reads hp.layerBody).ends P).bind_eq h))))
  rcases ht with ht | ht
  · exact call_ends hp ht run
  · exact call_ends hp ht run

/-- A fully connected layer is called. -/
theorem fc_ends (ht : p.type e = some .fc) (h : Ends P ((p.fc e).layer e) R) :
    Ends P (p.call e) R :=
  call_ends hp ht
    (((field_reads hp.layerBody 52 4).ends P).bind_eq
      (((field_reads hp.layerBody 56 4).ends P).bind_eq
        (((field_reads hp.layerBody 48 4).ends P).bind_eq
          (((quant_reads hp.layerBody).ends P).bind_eq h))))

/-- A layer without parameters of its own. -/
theorem gap_ends (ht : p.type e = some .gap) (h : Ends P ((p.gap e).layer e) R) :
    Ends P (p.call e) R :=
  call_ends hp ht (((quant_reads hp.layerBody).ends P).bind_eq h)

theorem softmax_ends (ht : p.type e = some .softmax) (h : Ends P ((p.softmax e).layer e) R) :
    Ends P (p.call e) R :=
  call_ends hp ht (((quant_reads hp.layerBody).ends P).bind_eq h)

/-- A sum is called. -/
theorem addition_ends (ht : p.type e = some .add) (h : Ends P ((p.addition e).layer e) R) :
    Ends P (p.call e) R := by
  have scale : Ends P (loadF32 e (p.mdl.layerBody.add 52))
      fun a m => a = e.f32 (p.mdl.layerBody.add 52) ∧ P m :=
    ((field_reads hp.layerBody 52 4).map (BitVec.ofNat 32)).ends P
  have zero : Ends P (loadI32 e (p.mdl.layerBody.add 56))
      fun a m => a = e.i32 (p.mdl.layerBody.add 56) ∧ P m :=
    ((field_reads hp.layerBody 56 4).map toI32).ends P
  exact call_ends hp ht
    (((field_reads hp.layerBody 48 4).ends P).bind_eq
      (((dims_reads hp.layerBody 16 _).ends P).bind_eq
        (((quant_reads hp.layerBody).ends P).bind_eq (scale.bind_eq (zero.bind_eq h)))))

/-- **A round** is the call, and what is done for an output. -/
theorem round_ends {Q' : Mem → Prop} (h : Ends P (p.call e) fun r m => r = .ok ∧ Q m)
    (ho : Ends Q (layerOutput e p.mdl p.outIdx) fun _ => Q') :
    Ends P (oneLayer e p.mdl p.input p.outIdx) fun _ => Q' := by
  refine ((layerInput_reads hp.layerBody).ends P).bind_eq
    (((field_reads hp.layerBody 12 4).ends P).bind_eq
      (((dims_reads hp.layerBody 24 _).ends P).bind_eq (h.bind_eq ?_)))
  rw [if_neg (not_not.mpr rfl)]
  exact ho.bind fun _ => ((field_reads hp.layerBody 4 4).ends Q').bind_eq
    (Ends.pure fun _ hm => hm)

/-- Nothing is done for a layer that is no output. -/
theorem noOutput_ends (ho : ¬isOut e p.mdl) :
    Ends Q (layerOutput e p.mdl p.outIdx) fun _ => Q := by
  have hno : ¬e.word 2 (p.mdl.layerBody.add 2) ≠ 0 := ho
  refine ((field_reads hp.layerBody 2 2).ends Q).bind_eq ?_
  rw [if_neg hno]
  exact Ends.pure fun _ hm => hm

/-- One layer more. -/
theorem layers_ends {k : Nat} (hok : p.Ok e (k + 1)) (h : Ends P (p.layers e k) fun _ => Q)
    {Q' : Mem → Prop} (hone : Ends Q (oneLayer e (p.after e k).mdl (p.after e k).input
      (p.after e k).outIdx) fun _ => Q') : Ends P (p.layers e (k + 1)) fun _ => Q' := by
  intro σ hσ
  have key := hone _ (h σ hσ)
  rw [Walk.layers_last hp hok σ, Walk.one]
  exact key

end Calls

end TinyMaix
