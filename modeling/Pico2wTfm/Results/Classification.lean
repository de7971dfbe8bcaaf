import Pico2wTfm.Partition.ShippedClass
import Pico2wTfm.Results.ClientImages
import Pico2wTfm.Results.Isolation

/-!
# Results — Classification

`parse_output` reads ten floats where `g_outs[0]` points, and finds the largest of those above 0.
That these are the scores of the picture is up to the model: `tm_load` looks at its magic, its type
and its second buffer, and nothing compares its input with the picture, its output with ten scores,
or the number of its outputs with one.

* `classified_iff`: the class in a reply is that of the picture exactly when the model has the shape
  of a classifier (`Scoring`), no layer behind its output leaves other scores there (`Left`), and a
  float that `parse_output` reads is above 0;
* `classifier_layer_iff`: layers that write elsewhere leave the scores.
-/

namespace Partition
open Bytes Footprint TinyMaix

/-- The service as `tm_run` finds it. -/
def atRun (dev : Device) (f : Outcome) (msg : Msg) (s : Service) : Service :=
  preprocessed dev (received f msg s.fresh)

/-- What `tm_run` reads. -/
def runEnv (dev : Device) (f : Outcome) (msg : Msg) (s : Service) : Env :=
  (atRun dev f msg s).env dev

/-- The engine after `k` layers of `tm_run`. -/
def afterLayers (dev : Device) (u : Service) (k : Nat) : Logged Mem Cell :=
  ((atStart (u.env dev)).layers (u.env dev) k
    (loadU16 (u.env dev) (gDecryptedModelPtr.add 10) u.eng).2).2

/-- The tensor of a picture. -/
def PictureMat (input : TmMat) : Prop := input.h = 28 ∧ input.w = 28 ∧ input.c = 1

/-- The output of layer `k`, and the place of its scores. -/
def layerOut (e : Env) (k : Nat) : TmMat := outputAt e (layerAt e k).mdl
def layerScores (e : Env) (k : Nat) : Ptr := outf e (layerOut e k)

/-- Score `i` of layer `k`: the dequantised byte of its output. -/
def layerScore (dev : Device) (u : Service) (k i : Nat) : F32 :=
  scoreAt (u.env dev) (layerAt (u.env dev) k).mdl (afterLayers dev u (k + 1)).mem i

/-- Float `i` at the place of the scores of layer `k`, after `n` layers. -/
def scoreAfter (dev : Device) (u : Service) (k n i : Nat) : F32 :=
  (u.env dev).f32At (afterLayers dev u n).mem ((layerScores (u.env dev) k).add (4 * i : Nat))

/-- The layers behind layer `k` leave its scores as they were, be it that they write them again. -/
def Left (dev : Device) (u : Service) (k : Nat) : Prop :=
  ∀ i < 10, scoreAfter dev u k (layerCnt (u.env dev) loadedMdl) i = scoreAfter dev u k (k + 1) i

instance (dev : Device) (u : Service) (k : Nat) : Decidable (Left dev u k) :=
  inferInstanceAs (Decidable (∀ i < 10, _))

/-- Float `i` of the ten that `parse_output` reads. -/
def scoreRead (dev : Device) (f : Outcome) (msg : Msg) (s : Service) (i : Nat) : F32 :=
  (runEnv dev f msg s).f32At (inferred dev f msg s).eng.mem
    (((inferred dev f msg s).eng.mem.outs 0).data.add (4 * i : Nat))

/-- **The reply is the classification.**  The output of layer `k` is the one tensor that is stored, its
ten scores are what `parse_output` reads, and the class is that of a largest one. -/
structure Classified (dev : Device) (f : Outcome) (msg : Msg) (s : Service) (k : Nat) : Prop where
  layer : k < layerCnt (runEnv dev f msg s) loadedMdl ∧
    isOut (runEnv dev f msg s) (layerAt (runEnv dev f msg s) k).mdl
  input : PictureMat (inputMat (runEnv dev f msg s))
  stored : ∀ i, ⟨(.outs, i), true⟩ ∈ (inferred dev f msg s).eng.log ↔ i = 0
  tensor : (inferred dev f msg s).eng.mem.outs 0 =
    { layerOut (runEnv dev f msg s) k with data := layerScores (runEnv dev f msg s) k }
  ten : outSize ((inferred dev f msg s).eng.mem.outs 0) = 10
  scores : ∀ i < 10, scoreRead dev f msg s i = layerScore dev (atRun dev f msg s) k i
  reply : 4 ≤ msg.outSize → ∃ c < 10, written (serve dev f msg s).trace = leBytes 4 c ∧
    ∀ i < 10, dev.fl.lt (scoreRead dev f msg s c) (scoreRead dev f msg s i) = false

/-- **The shape of a classifier** of pictures: it takes one, and layer `k` is its only output and
leaves ten dequantised scores. -/
structure Scoring (e : Env) (k : Nat) : Prop where
  lt : k < layerCnt e loadedMdl
  out : isOut e (layerAt e k).mdl
  only : ∀ j < layerCnt e loadedMdl, isOut e (layerAt e j).mdl → j = k
  input : PictureMat (inputMat e)
  deq : e.word 1 (gDecryptedModelPtr.add 5) ≠ 0
  ten : outSize (layerOut e k) = 10

/-- **A classifier** of pictures: no layer behind its output writes over the scores. -/
structure Classifier (e : Env) (k : Nat) : Prop extends Scoring e k where
  kept : ∀ st ∈ (layerAt e (k + 1)).stretches e (layerCnt e loadedMdl - (k + 1)),
    st.Avoids .main (layerScores e k).off ((layerScores e k).off + 40)

section Run

variable {dev : Device} {u : Service} {e : Env} {k : Nat}

/-- A run of the loaded model is a run of its layers. -/
theorem ran_eng (hmdl : firstLayer u.gMdl = loadedMdl) (hin : u.gIn = inputMat (u.env dev)) :
    (tmRunCall dev u).2.eng = afterLayers dev u (layerCnt (u.env dev) loadedMdl) := by
  have hb : u.gMdl.b = gDecryptedModelPtr := congrArg (fun m : TmMdl => m.b) hmdl
  have hcnt : (loadU16 (u.env dev) (u.gMdl.b.add 10) u.eng).1 =
      layerCnt (u.env dev) loadedMdl := by
    rw [hb]
    exact ((field_reads (e := u.env dev) (l := gDecryptedModelPtr) rfl 10 2).spec u.eng).1
  rw [tmRunCall, Service.run_eng, tmRun, bind_apply, hcnt, hin,
    show { u.gMdl with layerI := 0, layerBody := u.gMdl.b.add 64 } = loadedMdl from hmdl, hb]
  rfl

theorem layerAt_pic {e' : Env} (hm : e.model = e'.model) (k : Nat) :
    layerAt e k = layerAt e' k := by
  rw [layerAt, layerAt, atStart, atStart, show inputMat e = inputMat e' from matAt_pic hm _ _]
  exact Walk.after_pic hm k _

/-- No layer moves the model. -/
theorem b_layerAt : (layerAt e k).mdl.b = gDecryptedModelPtr := by
  have key : ∀ n (p : Walk), (p.after e n).mdl.b = p.mdl.b := by
    intro n
    induction n with
    | zero => exact fun p => rfl
    | succ n ih => exact fun p => ih (p.next e)
  exact key k _

/-- The tensor of an output layer points at its output or, if the model asks for that, at its scores. -/
theorem outMat_layer : outMat e (layerAt e k).mdl =
    if e.word 1 (gDecryptedModelPtr.add 5) = 0 then layerOut e k
    else { layerOut e k with data := layerScores e k } := by
  rw [outMat, b_layerAt]
  rfl

/-- A tensor that points at its scores comes from a model that asks for them. -/
theorem deq_of_outMat (hten : outSize (layerOut e k) = 10)
    (hmat : outMat e (layerAt e k).mdl = { layerOut e k with data := layerScores e k }) :
    e.word 1 (gDecryptedModelPtr.add 5) ≠ 0 := by
  intro hdeq
  rw [outMat_layer, if_pos hdeq] at hmat
  have hsame : (layerOut e k).data.off = (layerScores e k).off :=
    congrArg (fun mat : TmMat => mat.data.off) hmat
  -- the scores lie behind the ten bytes of the output
  have hle : (layerOut e k).data.off + outSize (layerOut e k) ≤ (layerScores e k).off :=
    tmAlign_le _ _
  omega

section Picture

variable {e' : Env} (hm : e.model = e'.model)
include hm

theorem word_pic (n : Nat) (q : Ptr) : e.word n q = e'.word n q := by
  rw [Env.word, Env.word, hm]

theorem layerCnt_pic : layerCnt e loadedMdl = layerCnt e' loadedMdl := word_pic hm _ _

theorem layerOut_pic (k : Nat) : layerOut e k = layerOut e' k := by
  rw [layerOut, layerOut, outputAt, outputAt, matAt_pic hm, word_pic hm, layerAt_pic hm]

/-- The shape of a model does not depend on the picture. -/
theorem Scoring.congr (h : Scoring e k) : Scoring e' k := by
  have hat := @layerAt_pic e e' hm
  have hin : inputMat e = inputMat e' := matAt_pic hm _ _
  have hcnt := layerCnt_pic hm
  have hisOut : ∀ mdl, isOut e mdl ↔ isOut e' mdl := fun mdl => by
    rw [isOut, isOut, word_pic hm]
  obtain ⟨lt, out, only, input, deq, ten⟩ := h
  refine ⟨hcnt ▸ lt, hat k ▸ (hisOut _).mp out, fun j hj hoj => only j (hcnt ▸ hj) ?_,
    hin ▸ input, word_pic hm _ _ ▸ deq, layerOut_pic hm k ▸ ten⟩
  rw [hat]
  exact (hisOut _).mpr hoj

theorem Classifier.congr (ha : e.mainAddr = e'.mainAddr) (h : Classifier e k) :
    Classifier e' k := by
  have hscores : layerScores e k = layerScores e' k := by
    rw [layerScores, layerScores, layerOut_pic hm, outf, outf, tmAlign, tmAlign, ha]
  refine ⟨h.toScoring.congr hm, ?_⟩
  rw [← layerAt_pic hm, ← layerCnt_pic hm, ← hscores, Walk.stretches, ← runStretches_pic hm ha]
  exact h.kept

end Picture

section Layers

variable {n : Nat} (hok : (atStart (u.env dev)).Ok (u.env dev) n) (hk : k < n)
include hok hk

/-- The layers behind layer `k` touch what they say, and leave the rest as it is. -/
theorem extends_afterLayers :
    Extends Mem.val (cover ((layerAt (u.env dev) (k + 1)).stretches (u.env dev) (n - (k + 1))))
      (afterLayers dev u (k + 1)) (afterLayers dev u n) := by
  obtain ⟨j, rfl⟩ : ∃ j, n = k + 1 + j := ⟨n - (k + 1), by omega⟩
  rw [Nat.add_sub_cancel_left]
  rw [afterLayers, afterLayers]
  exact Walk.layers_extends inModel_atStart (Walk.ok_add.mp hok).1 j _

/-- What an output layer leaves in the memory. -/
theorem stored_afterLayers (ho : isOut (u.env dev) (layerAt (u.env dev) k).mdl) :
    Stored (u.env dev) (layerAt (u.env dev) k).mdl (layerAt (u.env dev) k).outIdx
      (afterLayers dev u (k + 1)).mem := by
  obtain ⟨j, rfl⟩ : ∃ j, n = k + 1 + j := ⟨n - (k + 1), by omega⟩
  rw [afterLayers]
  exact Walk.layers_stored inModel_atStart (Walk.ok_add.mp hok).1 ho _

/-- Layers that write elsewhere leave the scores of layer `k`. -/
theorem left_afterLayers
    (havoid : ∀ st ∈ (layerAt (u.env dev) (k + 1)).stretches (u.env dev) (n - (k + 1)),
      st.Avoids .main (layerScores (u.env dev) k).off
        ((layerScores (u.env dev) k).off + 40)) {i : Nat} (hi : i < 10) :
    scoreAfter dev u k n i = scoreAfter dev u k (k + 1) i := by
  have hp : (layerAt (u.env dev) k).InModel := inModel_atStart.after
  have hreg : (layerScores (u.env dev) k).region = .main := hp.buf
  have hext := @extends_afterLayers dev u k n hok hk
  refine (u.env dev).f32At_congr fun j h₁ h₂ => ?_
  rw [Ptr.add_off] at h₁ h₂
  rw [Ptr.add_region, hreg]
  exact main_keep hext ((cover_avoids (by omega)).mpr havoid j (by omega) (by omega))

variable (ho : isOut (u.env dev) (layerAt (u.env dev) k).mdl)
  (honly : ∀ j < n, isOut (u.env dev) (layerAt (u.env dev) j).mdl → j = k)
include ho honly

/-- The tensor of the only output is in `g_outs[0]` when `tm_run` returns. -/
theorem outs_afterLayers :
    (afterLayers dev u n).mem.outs 0 = outMat (u.env dev) (layerAt (u.env dev) k).mdl := by
  have hidx : (layerAt (u.env dev) k).outIdx = 0 :=
    Walk.outIdx_eq fun j hj hoj => hj.ne (honly j (hj.trans hk) hoj)
  have hmat := (stored_afterLayers hok hk ho).mat
  rw [hidx, Int.natCast_zero] at hmat
  have hkeep : ⟨(.outs, 0), true⟩ ∉
      cover ((layerAt (u.env dev) (k + 1)).stretches (u.env dev) (n - (k + 1))) := by
    obtain ⟨j, rfl⟩ : ∃ j, n = k + 1 + j := ⟨n - (k + 1), by omega⟩
    rw [Nat.add_sub_cancel_left, layerAt, Walk.mem_outs_stretches inModel_atStart.after
      (Walk.ok_add.mp hok).2]
    rintro ⟨i, hi, hoi, -⟩
    rw [← Walk.after_add] at hoi
    exact absurd (honly (k + 1 + i) (Nat.add_lt_add_left hi _) hoi) (by omega)
  exact (outs_keep (extends_afterLayers hok hk) hkeep).trans hmat

omit honly in
/-- The scores, when layer `k` has run. -/
theorem scoreAfter_stored (hdeq : (u.env dev).word 1 (gDecryptedModelPtr.add 5) ≠ 0)
    (hten : outSize (layerOut (u.env dev) k) = 10) {i : Nat} (hi : i < 10) :
    scoreAfter dev u k (k + 1) i = layerScore dev u k i := by
  have hp : (layerAt (u.env dev) k).InModel := inModel_atStart.after
  have hb : (layerAt (u.env dev) k).mdl.b = gDecryptedModelPtr := b_layerAt
  exact (stored_afterLayers hok hk ho).scores hp.buf (by rwa [hb]) i (hten ▸ hi)

omit honly in
/-- The scores are still there when `tm_run` returns, if the later layers avoid them. -/
theorem floats_afterLayers (hdeq : (u.env dev).word 1 (gDecryptedModelPtr.add 5) ≠ 0)
    (hten : outSize (layerOut (u.env dev) k) = 10)
    (havoid : ∀ st ∈ (layerAt (u.env dev) (k + 1)).stretches (u.env dev) (n - (k + 1)),
      st.Avoids .main (layerScores (u.env dev) k).off
        ((layerScores (u.env dev) k).off + 40)) :
    (u.env dev).Floats (afterLayers dev u n).mem (layerScores (u.env dev) k) 0 10
      (layerScore dev u k) := fun _ _ hi =>
  (left_afterLayers hok hk havoid hi).trans (scoreAfter_stored hok hk ho hdeq hten hi)

end Layers

end Run

section Request

variable {dev : Device} {f : Outcome} {msg : Msg} {s : Service} {h : List (Input × Service)}
  {k : Nat}

/-- Only a delivered request on a loaded model succeeds. -/
theorem delivered_of_success (hget : f.get = psaSuccess)
    (ht : msg.type = tinymaixIpcRunInference)
    (hok : replyStatus (serve dev f msg s).trace = some psaSuccess) :
    s.gModelLoaded = true ∧ Delivered f msg := by
  have fails : ∀ {t : Service} {st : Int}, replyStatus t.trace = none → st ≠ psaSuccess →
      replyStatus (t.reply msg st).trace ≠ some psaSuccess := fun hn hst h =>
    hst (Option.some.inj ((replyStatus_reply hn).symm.trans h))
  by_cases hl : s.gModelLoaded = true
  swap
  · rw [serve_badState (Bool.eq_false_of_not_eq_true hl) hget ht] at hok
    exact absurd hok (fails rfl (by decide))
  refine ⟨hl, hget, ht, ?_⟩
  by_contra hno
  obtain ⟨hshort, hsize⟩ := not_or.mp hno
  have hl' : ¬s.fresh.gModelLoaded = false := ne_of_eq_of_ne hl (by decide)
  rw [serve, if_neg (not_not.mpr hget), handle, ht, if_neg (by decide), if_neg (by decide),
    if_pos rfl, handleRunInference, runInference, if_neg hl'] at hok
  by_cases hn : msg.inSize = 28 * 28
  · have hgot : min f.readLen msg.inSize ≠ msg.inSize := fun hgot => hshort ⟨hn, by omega⟩
    rw [if_pos hn] at hok
    dsimp only at hok
    rw [if_pos hgot] at hok
    have hnone : replyStatus (readImage msg (min f.readLen msg.inSize) s.fresh).trace = none :=
      replyStatus_emit fun _ _ => Event.noConfusion
    exact @fails _ psaErrorCommunicationFailure hnone (by decide) hok
  · rw [if_neg hn, if_neg hsize] at hok
    exact @fails _ psaErrorInvalidArgument rfl (by decide) hok

/-- What `parse_output` makes of ten scores: a largest one, if one is above 0. -/
theorem largest_iff {lt : F32 → F32 → Bool} (trans : ∀ a b c, lt a b = true → lt b c = true →
      lt a c = true) (irrefl : ∀ a, lt a a = false) {score : Nat → F32} :
    (∃ c < 10, leBytes 4 (BitVec.ofInt 32 (Argmax.argmax lt 0 score 10).2).toNat = leBytes 4 c ∧
      ∀ i < 10, lt (score c) (score i) = false) ↔ ∃ i < 10, lt 0 (score i) = true := by
  constructor
  · rintro ⟨c, hc, hbytes, -⟩
    by_contra hno
    have hnone : ∀ i < 10, lt 0 (score i) = false := fun i hi =>
      Bool.eq_false_of_not_eq_true fun hpos => hno ⟨i, hi, hpos⟩
    have hval := congrArg leValue hbytes
    rw [Argmax.argmax_none hnone, leValue_leBytes_of_lt (BitVec.isLt _),
      leValue_leBytes_of_lt (hc.trans (by decide))] at hval
    have hminus : (BitVec.ofInt 32 (-1)).toNat = c := hval
    exact absurd hc (by rw [← hminus]; decide)
  · intro hpos
    obtain ⟨c, hc, hclass, hmax⟩ := Argmax.argmax_found trans irrefl hpos
    have hnat : (BitVec.ofInt 32 (c : Int)).toNat = c := by
      rw [BitVec.ofInt_natCast, BitVec.toNat_ofNat]
      exact Nat.mod_eq_of_lt (hc.trans (by decide))
    exact ⟨c, hc, by rw [hclass, hnat], hmax⟩

section Success

variable (hmdl : firstLayer s.gMdl = loadedMdl) (hin : s.gIn = inputMat (s.env dev))
include hmdl hin

theorem atRun_ready : firstLayer (atRun dev f msg s).gMdl = loadedMdl ∧
    (atRun dev f msg s).gIn = inputMat (runEnv dev f msg s) := by
  have hgate : (atRun dev f msg s).gate = s.gate := preprocessed_gate.trans received_gate
  refine ⟨(congrArg Gate.mdl hgate).trans hmdl, ?_⟩
  rw [show (atRun dev f msg s).gIn = s.gIn from congrArg Gate.input hgate, hin]
  exact matAt_pic (congrArg Gate.model hgate).symm _ _

/-- The engine of a request, when `tm_run` returns. -/
theorem inferred_eng : (inferred dev f msg s).eng =
    afterLayers dev (atRun dev f msg s) (layerCnt (runEnv dev f msg s) loadedMdl) := by
  obtain ⟨hmdl', hin'⟩ := @atRun_ready dev f msg s hmdl hin
  exact ran_eng hmdl' hin'

/-- What `parse_output` reads when the tensor points at the scores of layer `k`. -/
theorem scoreRead_eq (htensor : (inferred dev f msg s).eng.mem.outs 0 =
      { layerOut (runEnv dev f msg s) k with data := layerScores (runEnv dev f msg s) k }) (i : Nat) :
    scoreRead dev f msg s i = scoreAfter dev (atRun dev f msg s) k
      (layerCnt (runEnv dev f msg s) loadedMdl) i := by
  rw [scoreRead, htensor, @inferred_eng dev f msg s hmdl hin]
  rfl

/-- The tensors that a request stores. -/
theorem outs_inferred (i : Int) : ⟨(.outs, i), true⟩ ∈ (inferred dev f msg s).eng.log ↔
    ⟨(.outs, i), true⟩ ∈ cover ((atStart (runEnv dev f msg s)).stretches (runEnv dev f msg s)
      (layerCnt (runEnv dev f msg s) loadedMdl)) := by
  have hm : (s.env dev).model = (runEnv dev f msg s).model := preprocessed_model.symm
  have hpre : Spares (preprocessStretches loadedMdl imageMat (inputMat (runEnv dev f msg s)))
      .outs := by
    simp only [preprocessStretches, field, spares_rd, spares_wr, spares_nil, and_true]
    exact Region.noConfusion
  rw [mem_inferred_log hmdl hin, requestStretches_pic hm rfl, requestStretches, cover_append,
    Set.mem_union, or_iff_right hpre.not_mem, cover_cons_append, Set.mem_union,
    or_iff_right (Spares.not_mem (by simp [field]))]
  rfl

end Success

section Reply

variable (r : Serves dev h s) (hget : f.get = psaSuccess) (ht : msg.type = tinymaixIpcRunInference)
  (hok : replyStatus (serve dev f msg s).trace = some psaSuccess)
include r hget ht hok

/-- The walk of a request that succeeds. -/
theorem walk_of_success :
    (atStart (runEnv dev f msg s)).Ok (runEnv dev f msg s)
        (layerCnt (runEnv dev f msg s) loadedMdl) ∧
      (tmRunCall dev (atRun dev f msg s)).1.1 = .ok := by
  obtain ⟨hl, hd⟩ := delivered_of_success hget ht hok
  obtain ⟨hmdl, hin⟩ := (r.inStep.2 hl).ready
  have hm : (s.env dev).model = (runEnv dev f msg s).model := preprocessed_model.symm
  have hmdl' := (@atRun_ready dev f msg s hmdl hin).1
  have hb' : (atRun dev f msg s).gMdl.b = gDecryptedModelPtr := congrArg TmMdl.b hmdl'
  have hall : (atStart (runEnv dev f msg s)).Ok (runEnv dev f msg s)
      (layerCnt (runEnv dev f msg s) loadedMdl) := by
    have hwalk := (replyStatus_delivered hl hd hmdl).mp hok
    have hcnt : layerCnt (s.env dev) loadedMdl = layerCnt (runEnv dev f msg s) loadedMdl := by
      rw [layerCnt, layerCnt, Env.word, Env.word, hm]
    rw [Walk.Ok, hcnt, runResult_pic hm] at hwalk
    exact hwalk
  have hcnt : layerCnt (runEnv dev f msg s) (atRun dev f msg s).gMdl =
      layerCnt (runEnv dev f msg s) loadedMdl := by
    rw [layerCnt, hb']
    rfl
  refine ⟨hall, ?_⟩
  rw [tmRunCall_spec (by rw [hb']; rfl), ← runEnv, hcnt, hmdl']
  exact hall

/-- What is written, from the scores that `parse_output` reads. -/
theorem written_class {score : Nat → F32} (hs : (runEnv dev f msg s).Floats
      (inferred dev f msg s).eng.mem ((inferred dev f msg s).eng.mem.outs 0).data 0 10 score) :
    written (serve dev f msg s).trace = if 4 ≤ msg.outSize then
      leBytes 4 (BitVec.ofInt 32 (Argmax.argmax dev.fl.lt 0 score 10).2).toNat else [] := by
  obtain ⟨hl, hd⟩ := delivered_of_success hget ht hok
  have hclass : (parseCall dev (ran dev (atRun dev f msg s))).1 =
      (Argmax.argmax dev.fl.lt 0 score 10).2 := by
    have henv : (ran dev (atRun dev f msg s)).env dev = runEnv dev f msg s := rfl
    have heng : (ran dev (atRun dev f msg s)).eng = (inferred dev f msg s).eng := rfl
    rw [parseCall, Service.run_fst, henv, heng]
    exact @parseOutput_ends (runEnv dev f msg s) _ score (inferred dev f msg s).eng ⟨rfl, hs⟩
  have hwritten := (delivered_ok hl hd (r.mdl hl) rfl (walk_of_success r hget ht hok).2).2
  rwa [← atRun, hclass] at hwritten

variable (trans : ∀ a b c, dev.fl.lt a b = true → dev.fl.lt b c = true → dev.fl.lt a c = true)
  (irrefl : ∀ a, dev.fl.lt a a = false)
include trans irrefl

/-- The class in the reply, from the scores that `parse_output` reads. -/
theorem reply_iff : (4 ≤ msg.outSize → ∃ c < 10, written (serve dev f msg s).trace = leBytes 4 c ∧
        ∀ i < 10, dev.fl.lt (scoreRead dev f msg s c) (scoreRead dev f msg s i) = false) ↔
      (4 ≤ msg.outSize → ∃ i < 10, dev.fl.lt 0 (scoreRead dev f msg s i) = true) := by
  have hread : (runEnv dev f msg s).Floats (inferred dev f msg s).eng.mem
      ((inferred dev f msg s).eng.mem.outs 0).data 0 10 (scoreRead dev f msg s) :=
    fun _ _ _ => rfl
  refine imp_congr_right fun hroom => ?_
  rw [written_class r hget ht hok hread, if_pos hroom]
  exact largest_iff trans irrefl

/-- **Layer `k`** classifies the picture. -/
theorem classified_layer_iff : Classified dev f msg s k ↔ Scoring (s.env dev) k ∧
      Left dev (atRun dev f msg s) k ∧
      (4 ≤ msg.outSize → ∃ i < 10, dev.fl.lt 0 (scoreRead dev f msg s i) = true) := by
  obtain ⟨hl, hd⟩ := delivered_of_success hget ht hok
  obtain ⟨hmdl, hin⟩ := (r.inStep.2 hl).ready
  obtain ⟨hall, -⟩ := walk_of_success r hget ht hok
  have hm : (s.env dev).model = (runEnv dev f msg s).model := preprocessed_model.symm
  have heng := @inferred_eng dev f msg s hmdl hin
  have houts := @outs_inferred dev f msg s hmdl hin
  constructor
  · intro hc
    obtain ⟨hk, ho⟩ := hc.layer
    have honly := (Walk.outs_zero_iff inModel_atStart hall rfl hk ho).mp fun i =>
      (houts i).symm.trans (hc.stored i)
    have hmat := (congrArg (fun σ => σ.mem.outs 0) heng).trans (outs_afterLayers hall hk ho honly)
    have hten : outSize (layerOut (runEnv dev f msg s) k) = 10 := by
      have hten := hc.ten
      rwa [hc.tensor] at hten
    have hdeq : (runEnv dev f msg s).word 1 (gDecryptedModelPtr.add 5) ≠ 0 :=
      deq_of_outMat hten (hmat.symm.trans hc.tensor)
    have hshape : Scoring (runEnv dev f msg s) k := ⟨hk, ho, honly, hc.input, hdeq, hten⟩
    have hleft : Left dev (atRun dev f msg s) k := fun i hi => calc
      scoreAfter dev (atRun dev f msg s) k (layerCnt (runEnv dev f msg s) loadedMdl) i
        = scoreRead dev f msg s i := (scoreRead_eq hmdl hin hc.tensor i).symm
      _ = layerScore dev (atRun dev f msg s) k i := hc.scores i hi
      _ = scoreAfter dev (atRun dev f msg s) k (k + 1) i :=
        (scoreAfter_stored hall hk ho hdeq hten hi).symm
    exact ⟨hshape.congr hm.symm, hleft, (reply_iff r hget ht hok trans irrefl).mp hc.reply⟩
  · rintro ⟨hshape, hleft, hpos⟩
    obtain ⟨hk, ho, honly, hinput, hdeq, hten⟩ :=
      @Scoring.congr _ k (runEnv dev f msg s) hm hshape
    have htensor : (inferred dev f msg s).eng.mem.outs 0 =
        { layerOut (runEnv dev f msg s) k with data := layerScores (runEnv dev f msg s) k } := by
      have hmat := outs_afterLayers hall hk ho honly
      rw [← runEnv, outMat_layer, if_neg hdeq] at hmat
      rw [heng]
      exact hmat
    have hscores : ∀ i < 10, scoreRead dev f msg s i =
        layerScore dev (atRun dev f msg s) k i := fun i hi => calc
      scoreRead dev f msg s i
        = scoreAfter dev (atRun dev f msg s) k (layerCnt (runEnv dev f msg s) loadedMdl) i :=
          scoreRead_eq hmdl hin htensor i
      _ = scoreAfter dev (atRun dev f msg s) k (k + 1) i := hleft i hi
      _ = layerScore dev (atRun dev f msg s) k i := scoreAfter_stored hall hk ho hdeq hten hi
    refine ⟨⟨hk, ho⟩, hinput, fun i => (houts i).trans
      ((Walk.outs_zero_iff inModel_atStart hall rfl hk ho).mpr honly i), htensor, ?_, hscores,
        (reply_iff r hget ht hok trans irrefl).mpr hpos⟩
    rw [htensor]
    exact hten

/-- **A classifier**, whose later layers write elsewhere: only the floats count. -/
theorem classifier_layer_iff (hclassifier : Classifier (s.env dev) k) : Classified dev f msg s k ↔
    (4 ≤ msg.outSize → ∃ i < 10, dev.fl.lt 0 (scoreRead dev f msg s i) = true) := by
  obtain ⟨hall, -⟩ := walk_of_success r hget ht hok
  obtain ⟨hshape, havoid⟩ := @Classifier.congr (s.env dev) k (runEnv dev f msg s)
    preprocessed_model.symm rfl hclassifier
  have hleft : Left dev (atRun dev f msg s) k := fun i hi =>
    left_afterLayers hall hshape.lt havoid hi
  rw [classified_layer_iff r hget ht hok trans irrefl, and_iff_right hclassifier.toScoring,
    and_iff_right hleft]

/-- **When a reply is the classification**: the model has the shape of a classifier, the layers behind
its output leave the scores as they were, and one of the floats `parse_output` reads is above 0. -/
theorem classified_iff : (∃ k, Classified dev f msg s k) ↔ ∃ k, Scoring (s.env dev) k ∧
    Left dev (atRun dev f msg s) k ∧
    (4 ≤ msg.outSize → ∃ i < 10, dev.fl.lt 0 (scoreRead dev f msg s i) = true) :=
  exists_congr fun _ => classified_layer_iff r hget ht hok trans irrefl

end Reply

end Request

/-! ### Ten pixels as scores -/

/-- The small model with an `ADD` behind its output: the forty bytes at 16, where the scores are,
plus the forty black pixels at 100 (-128, which stands for 0), back to 16. -/
def rewriteModel : List Byte :=
  reshapeModel.set 10 2 ++ [6, 0, 0, 0, 60, 0, 0, 0] ++ leBytes 4 16 ++ leBytes 4 16 ++
  [3, 0, 1, 0, 1, 0, 40, 0, 3, 0, 1, 0, 1, 0, 40, 0,
    0, 0, 0x80, 0x3F, 0, 0, 0, 0, 0, 0, 0x80, 0x3F, 0, 0, 0, 0] ++
  leBytes 4 100 ++ [0, 0, 0x80, 0x3F, 0x80, 0xFF, 0xFF, 0xFF]

/-- The service with that model loaded. -/
def rewriteLoaded : Service :=
  serve (deviceWith rewriteModel) loadRequest.1 loadRequest.2 boot

/-- It has the shape of a classifier. -/
theorem scoring_rewrite : Scoring (rewriteLoaded.env (deviceWith rewriteModel)) 0 := by
  obtain ⟨e, he⟩ : ∃ e, e = rewriteLoaded.env (deviceWith rewriteModel) := ⟨_, rfl⟩
  obtain ⟨hcnt, hout, honly, hinput, hdeq, hten⟩ : layerCnt e loadedMdl = 2 ∧
      isOut e (layerAt e 0).mdl ∧ ¬isOut e (layerAt e 1).mdl ∧
      ((inputMat e).h, (inputMat e).w, (inputMat e).c) = (28, 28, 1) ∧
      e.word 1 (gDecryptedModelPtr.add 5) ≠ 0 ∧ outSize (layerOut e 0) = 10 := by
    rw [he]
    decide +kernel
  simp only [Prod.mk.injEq] at hinput
  rw [← he]
  refine ⟨by rw [hcnt]; decide, hout, fun j hj hoj => ?_, hinput, hdeq, hten⟩
  rw [hcnt] at hj
  rcases Nat.lt_succ_iff_lt_or_eq.mp hj with hj | rfl
  · exact Nat.lt_one_iff.mp hj
  · exact absurd hoj honly

/-- **A picture with one bright pixel** is classified, though the second layer of the model writes
over the scores. -/
theorem classified_iff_rewrite :
    ∃ k, Classified (deviceWith rewriteModel) (inferenceRequest 784 (dotImage 3)).1
      (inferenceRequest 784 (dotImage 3)).2 rewriteLoaded k := by
  have hok : replyStatus (serve (deviceWith rewriteModel) (inferenceRequest 784 (dotImage 3)).1
      (inferenceRequest 784 (dotImage 3)).2 rewriteLoaded).trace = some psaSuccess := by
    decide +kernel
  have hleft : Left (deviceWith rewriteModel) (atRun (deviceWith rewriteModel)
      (inferenceRequest 784 (dotImage 3)).1 (inferenceRequest 784 (dotImage 3)).2
        rewriteLoaded) 0 := by
    decide +kernel
  have hpos : (deviceWith rewriteModel).fl.lt 0 (scoreRead (deviceWith rewriteModel)
      (inferenceRequest 784 (dotImage 3)).1 (inferenceRequest 784 (dotImage 3)).2
        rewriteLoaded 3) = true := by
    decide +kernel
  exact (classified_iff (.more rfl (.refl _)) rfl rfl hok (fun _ _ _ => Ieee.lt_trans _)
    fun _ => Ieee.lt_irrefl _ _).mpr
      ⟨0, scoring_rewrite, hleft, fun _ => ⟨3, by decide, hpos⟩⟩

/-- A `LOAD` and a request: the reply, and what is written. -/
def afterLoad (dev : Device) (i : Input) : Option (Option Int × List Byte) :=
  (step dev boot loadRequest).bind fun s =>
    (step dev s i).map fun s' => (replyStatus s'.trace, written s'.trace)

/-- **No score is above 0.**  The first ten pixels of the built-in picture are black, so that all
scores are 0.  The request succeeds, and the class in the reply is -1. -/
theorem black_unclassified :
    ∃ s s', Reaches (deviceWith reshapeModel) [(loadRequest, s)] s ∧
      step (deviceWith reshapeModel) s (inferenceRequest 0 []) = some s' ∧
      replyStatus s'.trace = some psaSuccess ∧ written s'.trace = leBytes 4 (2 ^ 32 - 1) ∧
      ¬∃ k, Classified (deviceWith reshapeModel) (inferenceRequest 0 []).1
        (inferenceRequest 0 []).2 s k := by
  have run : afterLoad (deviceWith reshapeModel) (inferenceRequest 0 []) =
      some (some psaSuccess, leBytes 4 (2 ^ 32 - 1)) := by decide +kernel
  obtain ⟨s, hload, hmap⟩ := Option.bind_eq_some_iff.mp run
  obtain ⟨s', hs', hreply⟩ := Option.map_eq_some_iff.mp hmap
  obtain ⟨hstatus, hwritten⟩ := Prod.mk.inj hreply
  refine ⟨s, s', .more hload (.refl _), hs', hstatus, hwritten, ?_⟩
  rintro ⟨k, hk⟩
  obtain ⟨c, hc, hclass, -⟩ := hk.reply (by decide)
  have hserve : s' = serve (deviceWith reshapeModel) (inferenceRequest 0 []).1
      (inferenceRequest 0 []).2 s := by
    unfold step at hs'
    split at hs'
    · exact (Option.some.inj hs').symm
    · cases hs'
  rw [← hserve, hwritten] at hclass
  have hval := congrArg leValue hclass
  rw [leValue_leBytes_of_lt (by decide), leValue_leBytes_of_lt (hc.trans (by decide))] at hval
  omega

end Partition
