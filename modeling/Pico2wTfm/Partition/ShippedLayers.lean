import Pico2wTfm.Partition.Shipped
import Pico2wTfm.TinyMaix.Calls

/-!
# Partition — ShippedLayers

The walk of a request along the layers of the shipped model: where it is after `k` layers
(`layerAt_mdl`), and with which operands the layer there is called.
-/

namespace Partition
open Bytes Footprint TinyMaix

/-- The model as it is before layer `k`. -/
def mnistMdl (k : Nat) : TmMdl := { loadedMdl with layerI := k, layerBody := modelPtr (mnistOffset k) }

/-! ### The records of the shipped model -/

/-- A tensor of the record at `o`. -/
def mdlMat (o j off : Nat) : TmMat :=
  ⟨mdlField o 2 j, mdlField o 2 (j + 2), mdlField o 2 (j + 4), mdlField o 2 (j + 6),
    ⟨.main, mdlField o 4 off⟩⟩

def mdlQuant (o : Nat) : Quant :=
  ⟨BitVec.ofNat 32 (mdlField o 4 32), toI32 (mdlField o 4 36), BitVec.ofNat 32 (mdlField o 4 40),
    toI32 (mdlField o 4 44)⟩

def mdlParams (o : Nat) : ConvParams :=
  ⟨mdlField o 1 48, mdlField o 1 49, mdlField o 1 50, mdlField o 1 51, mdlField o 1 52,
    mdlField o 1 53, mdlField o 2 54, mdlField o 1 56, mdlField o 1 57, mdlField o 1 58,
    mdlField o 1 59, toI32 (mdlField o 4 60)⟩

/-- What the field `j` of the record at `o` points to. -/
def mdlPtr (o j : Nat) : Ptr := modelPtr (o + mdlField o 4 j : Nat)

/-- The layers: three convolutions, an average, a fully connected layer and the output. -/
def mnistType : Nat → TmLayerType
  | 0 | 1 | 2 => .conv2d
  | 3 => .gap
  | 4 => .fc
  | _ => .softmax

/-- The header, the place and the type of every record, and the operands in them. -/
theorem mdl_records :
    (∀ k < 5, mnistOffset k + mdlField (mnistOffset k) 4 4 = mnistOffset (k + 1)) ∧
    (∀ k ≤ 5, TmLayerType.ofCode (mdlField (mnistOffset k) 2 0) = some (mnistType k)) ∧
    (∀ k ≤ 5, mdlField (mnistOffset k) 2 2 ≠ 0 ↔ k = 5) ∧
    (⟨mdlWord 2 20, mdlWord 2 22, mdlWord 2 24, mdlWord 2 26, staticMainBuf⟩ : TmMat) =
      mainMat 28 28 1 0 ∧
    (∀ k < 3, (⟨if 0 < k then mdlMat (mnistOffset k) 16 8 else mainMat 28 28 1 0,
      mdlMat (mnistOffset k) 24 12, mdlPtr (mnistOffset k) 72, mdlPtr (mnistOffset k) 76,
      mdlParams (mnistOffset k), mdlPtr (mnistOffset k) 68, mdlQuant (mnistOffset k)⟩ : Conv) =
      mnistConv k) ∧
    (⟨mdlMat (mnistOffset 3) 16 8, mdlMat (mnistOffset 3) 24 12, mdlQuant (mnistOffset 3)⟩ : Gap) =
      mnistGap ∧
    (⟨mdlMat (mnistOffset 4) 16 8, mdlMat (mnistOffset 4) 24 12, mdlPtr (mnistOffset 4) 52,
      mdlPtr (mnistOffset 4) 56, mdlPtr (mnistOffset 4) 48, mdlQuant (mnistOffset 4)⟩ : Fc) =
      mnistFc ∧
    (⟨mdlMat (mnistOffset 5) 16 8, mdlMat (mnistOffset 5) 24 12,
      mdlQuant (mnistOffset 5)⟩ : Softmax) = mnistSoftmax := by
  decide +kernel

section Layers

variable {e : Env} (he : e.Ships)
include he

theorem layerAt_mdl {k : Nat} (hk : k ≤ 5) : (layerAt e k).mdl = mnistMdl k := by
  induction k with
  | zero => rfl
  | succ k ih =>
      have hnext : (layerAt e (k + 1)).mdl = nextLayer e (mnistMdl k) := by
        rw [layerAt, Walk.after_succ, ← ih (Nat.le_of_succ_le hk)]
        rfl
      have hplace : mnistOffset k + 8 ≤ 2408 :=
        (by decide : ∀ k < 5, mnistOffset k + 8 ≤ 2408) k hk
      have hsize := mdl_records.1 k hk
      have hword : e.word 4 ((modelPtr (mnistOffset k)).add 4) = mdlField (mnistOffset k) 4 4 :=
        field_ships he 4 rfl (by omega)
      rw [hnext, nextLayer, mnistMdl, mnistMdl, hword, ← hsize, modelPtr, modelPtr, Ptr.add]
      push_cast
      rfl

/-- The input of the first layer is that of the model; the others have theirs in the record. -/
theorem inputAt_zero : inputAt e (mnistMdl 0) (inputMat e) = mainMat 28 28 1 0 := by
  obtain ⟨-, -, -, hinput, -⟩ := mdl_records
  rw [← hinput]
  simp (disch := decide) only [mnistMdl, inputAt, inputMat, Env.matAt, word_ships he]
  rfl

/-! ### Reading a record -/

section Record

variable {o : Nat} {mdl : TmMdl} (hl : mdl.layerBody = modelPtr o) (hbuf : mdl.buf = staticMainBuf)
include hl

theorem field_record {w : Nat} (j : Nat) (hj : o + j + w ≤ 2408) :
    e.word w (mdl.layerBody.add j) = mdlField o w j :=
  field_ships he j (by rw [hl]; rfl) hj

/-- A field of a field. -/
theorem field_part {w i : Nat} (j : Nat) (hj : o + (i + j) + w ≤ 2408) :
    e.word w ((mdl.layerBody.add i).add j) = mdlField o w (i + j) :=
  field_ships he (i + j) (by rw [hl, Ptr.add_add]; push_cast; rfl) hj

theorem ptr_record {i : Int} (j : Nat) (hi : i = j) (hj : o + j + 4 ≤ 2408) :
    mdl.layerBody.add (e.word 4 (mdl.layerBody.add i)) = mdlPtr o j := by
  rw [hi, field_record he hl j hj, hl, mdlPtr, modelPtr, modelPtr, Ptr.add]
  push_cast
  rfl

theorem quantAt_record (ho : o + 48 ≤ 2408) : e.quantAt mdl.layerBody = mdlQuant o := by
  have h₁ := field_record (w := 4) he hl 32 (by omega)
  have h₂ := field_record (w := 4) he hl 36 (by omega)
  have h₃ := field_record (w := 4) he hl 40 (by omega)
  have h₄ := field_record (w := 4) he hl 44 (by omega)
  rw [Env.quantAt, mdlQuant, ← h₁, ← h₂, ← h₃, ← h₄]
  rfl

include hbuf

theorem matAt_record (j off : Nat) (hj : o + j + 8 ≤ 2408) (hoff : o + off + 4 ≤ 2408) :
    e.matAt (mdl.layerBody.add j) (mdl.buf.add (e.word 4 (mdl.layerBody.add off))) =
      mdlMat o j off := by
  have h₀ := field_record (w := 2) he hl j (by omega)
  have h₂ := field_part (w := 2) (i := j) he hl 2 (by omega)
  have h₄ := field_part (w := 2) (i := j) he hl 4 (by omega)
  have h₆ := field_part (w := 2) (i := j) he hl 6 (by omega)
  have hdata : mdl.buf.add (e.word 4 (mdl.layerBody.add off)) = ⟨.main, mdlField o 4 off⟩ := by
    rw [field_record he hl off hoff, hbuf, Ptr.add]
    exact congrArg (Ptr.mk .main) (Int.zero_add _)
  rw [hdata, mdlMat, ← h₀, ← h₂, ← h₄, ← h₆]
  rfl

end Record

theorem convAt_record {o : Nat} {mdl : TmMdl} (hl : mdl.layerBody = modelPtr o)
    (ho : o + 64 ≤ 2408) : e.convAt mdl.layerBody = mdlParams o := by
  have h : ∀ (w j : Nat), j + w ≤ 64 → e.word w (mdl.layerBody.add j) = mdlField o w j :=
    fun w j hj => field_record he hl j (by omega)
  rw [mdlParams, ← h 1 48 (by decide), ← h 1 49 (by decide), ← h 1 50 (by decide),
    ← h 1 51 (by decide), ← h 1 52 (by decide), ← h 1 53 (by decide), ← h 2 54 (by decide),
    ← h 1 56 (by decide), ← h 1 57 (by decide), ← h 1 58 (by decide), ← h 1 59 (by decide),
    ← h 4 60 (by decide)]
  rfl

/-! ### The operands -/

section Walk

variable {k : Nat} (hk : k ≤ 5)
include hk

theorem layerBody_layerAt : (layerAt e k).mdl.layerBody = modelPtr (mnistOffset k) := by
  rw [layerAt_mdl he hk]
  rfl

theorem buf_layerAt : (layerAt e k).mdl.buf = staticMainBuf := by
  rw [layerAt_mdl he hk]
  rfl

omit he in
theorem room_layerAt : mnistOffset k + 48 ≤ 2408 := by
  decide +revert

theorem output_record : outputAt e (layerAt e k).mdl = mdlMat (mnistOffset k) 24 12 :=
  have room := room_layerAt hk
  matAt_record he (layerBody_layerAt he hk) (buf_layerAt he hk) 24 12 (by omega) (by omega)

theorem quant_record : e.quantAt (layerAt e k).mdl.layerBody = mdlQuant (mnistOffset k) :=
  quantAt_record he (layerBody_layerAt he hk) (room_layerAt hk)

/-- From the second layer on, the input is in the record. -/
theorem input_record (h₀ : 0 < k) (input : TmMat) :
    inputAt e (layerAt e k).mdl input = mdlMat (mnistOffset k) 16 8 := by
  have room := room_layerAt hk
  have hi : 0 < (layerAt e k).mdl.layerI := by rwa [layerAt_mdl he hk]
  rw [inputAt, if_pos hi]
  exact matAt_record he (layerBody_layerAt he hk) (buf_layerAt he hk) 16 8 (by omega) (by omega)

theorem conv_record (room : mnistOffset k + 80 ≤ 2408) : (layerAt e k).conv e =
    ⟨inputAt e (layerAt e k).mdl (layerAt e k).input, mdlMat (mnistOffset k) 24 12,
      mdlPtr (mnistOffset k) 72, mdlPtr (mnistOffset k) 76, mdlParams (mnistOffset k),
      mdlPtr (mnistOffset k) 68, mdlQuant (mnistOffset k)⟩ := by
  have hl := layerBody_layerAt he hk
  rw [Walk.conv, convOf, output_record he hk, quant_record he hk,
    ptr_record (i := 72) he hl 72 rfl (by omega), ptr_record (i := 76) he hl 76 rfl (by omega),
    ptr_record (i := 68) he hl 68 rfl (by omega), convAt_record he hl (by omega)]

end Walk

/-- The convolutions are the first three layers. -/
theorem conv_mnist {k : Nat} (hk : k < 3) : (layerAt e k).conv e = mnistConv k := by
  obtain ⟨-, -, -, -, hconv, -⟩ := mdl_records
  have hk' : k ≤ 5 := by omega
  have room : mnistOffset k + 80 ≤ 2408 := (by decide : ∀ k < 3, mnistOffset k + 80 ≤ 2408) k hk
  have hin : inputAt e (layerAt e k).mdl (layerAt e k).input =
      if 0 < k then mdlMat (mnistOffset k) 16 8 else mainMat 28 28 1 0 := by
    split_ifs with h₀
    · exact input_record he hk' h₀ _
    · obtain rfl : k = 0 := Nat.eq_zero_of_not_pos h₀
      exact inputAt_zero he
  rw [conv_record he hk' room, hin]
  exact hconv k hk

/-- The operands of the convolutions. -/
theorem conv_zero : (layerAt e 0).conv e = mnistConv 0 := conv_mnist he (by decide)
theorem conv_one : (layerAt e 1).conv e = mnistConv 1 := conv_mnist he (by decide)
theorem conv_two : (layerAt e 2).conv e = mnistConv 2 := conv_mnist he (by decide)

/-- The operands of the average, -/
theorem gap_three : (layerAt e 3).gap e = mnistGap := by
  obtain ⟨-, -, -, -, -, hgap, -⟩ := mdl_records
  rw [Walk.gap, gapOf, input_record he (by decide) (by decide), output_record he (by decide),
    quant_record he (by decide)]
  exact hgap

/-- of the fully connected layer, -/
theorem fc_four : (layerAt e 4).fc e = mnistFc := by
  obtain ⟨-, -, -, -, -, -, hfc, -⟩ := mdl_records
  have hl := layerBody_layerAt (k := 4) he (by decide)
  rw [Walk.fc, fcOf, input_record he (by decide) (by decide), output_record he (by decide),
    quant_record he (by decide), ptr_record (i := 52) he hl 52 rfl (by decide),
    ptr_record (i := 56) he hl 56 rfl (by decide), ptr_record (i := 48) he hl 48 rfl (by decide)]
  exact hfc

/-- and of the softmax. -/
theorem softmax_five : (layerAt e 5).softmax e = mnistSoftmax := by
  obtain ⟨-, -, -, -, -, -, -, hsoftmax⟩ := mdl_records
  rw [Walk.softmax, softmaxOf, input_record he (by decide) (by decide),
    output_record he (by decide), quant_record he (by decide)]
  exact hsoftmax

theorem layerAt_type {k : Nat} (hk : k ≤ 5) : (layerAt e k).type e = some (mnistType k) := by
  obtain ⟨-, htype, -⟩ := mdl_records
  have room := room_layerAt hk
  have hword : e.word 2 (layerAt e k).mdl.layerBody = mdlField (mnistOffset k) 2 0 :=
    field_ships he 0 (by rw [layerBody_layerAt he hk]; exact (Int.add_zero _).symm) (by omega)
  rw [Walk.type, hword]
  exact htype k hk

/-- Only the last layer is an output. -/
theorem isOut_layerAt {k : Nat} (hk : k ≤ 5) : isOut e (layerAt e k).mdl ↔ k = 5 := by
  obtain ⟨-, -, hout, -⟩ := mdl_records
  have room := room_layerAt hk
  have hword : e.word 2 ((layerAt e k).mdl.layerBody.add 2) = mdlField (mnistOffset k) 2 2 :=
    field_ships he 2 (by rw [layerBody_layerAt he hk]; rfl) (by omega)
  rw [isOut, hword]
  exact hout k hk

/-- No layer fails. -/
theorem ok_mnist : (atStart e).Ok e 6 := by
  refine Walk.ok_of fun k hk => ?_
  have hk : k ≤ 5 := Nat.lt_succ_iff.mp hk
  have ht := layerAt_type he hk
  rw [Walk.type] at ht
  show layerErr e (layerAt e k).mdl.layerBody = .ok
  rw [layerErr, ht]
  obtain rfl | rfl | rfl | rfl | rfl | rfl : k = 0 ∨ k = 1 ∨ k = 2 ∨ k = 3 ∨ k = 4 ∨ k = 5 := by
    omega
  · exact (congrArg (fun L : Conv => L.p.err) (conv_zero he)).trans (by decide)
  · exact (congrArg (fun L : Conv => L.p.err) (conv_one he)).trans (by decide)
  · exact (congrArg (fun L : Conv => L.p.err) (conv_two he)).trans (by decide)
  · rfl
  · rfl
  · rfl

end Layers

end Partition
