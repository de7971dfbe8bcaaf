import Pico2wTfm.Support.Dataflow
import Pico2wTfm.TinyMaix.Calls
import Pico2wTfm.TinyMaix.ConvPaths

/-!
# TinyMaix — Network

The network of a model.  The records of a model say where each layer finds its input and puts its
output, as offsets into one buffer; which layer made an input is nowhere to be read.  A `Wiring` says
it, and with one the model is a program of tensors (`Walk.network`): layers compute, and there is no
memory.

* `Laid`: the offsets of a model are a layout of the network.  Layers may share the buffer in any way
  that leaves alone what is still to be read.
* `Walk.run_network`: a run of the layers then leaves the values of the network in their places.
-/

namespace TinyMaix
open Bytes Footprint

/-- **A tensor survives** a step that avoids it. -/
theorem Mem.Holds.keep {l : List (Stretch Region)} {σ σ' : Logged Mem Cell} {p : Ptr} {n : Nat}
    {v : Nat → Byte} (h : σ.mem.Holds p n v) (hx : Extends Mem.val (cover l) σ σ')
    (hp : p.region = .main) (ha : ∀ s ∈ l, s.Avoids .main p.off (p.off + n)) :
    σ'.mem.Holds p n v := by
  intro i hi
  have hkeep := main_keep hx ((cover_avoids (by omega)).mpr ha (p.off + i) (by omega) (by omega))
  rw [← h i hi, hp]
  exact hkeep

namespace Walk

/-! ### What a layer computes -/

section Layer

variable (e : Env) (p : Walk)

/-- The input and the output of the current layer. -/
def source : TmMat := inputAt e p.mdl p.input
def target : TmMat := outputAt e p.mdl

/-- How many bytes of its input the layer reads. -/
def reads : Nat :=
  match p.type e with
  | some .fc | some .softmax => (p.source e).c
  | _ => (p.source e).size

/-- How many bytes of its output it determines. -/
def writes : Nat :=
  match p.type e with
  | some .conv2d | some .dwconv2d => (p.target e).size
  | some .gap | some .fc => (p.target e).c
  | some .softmax => (p.source e).c
  | some .reshape => min (p.source e).size (p.target e).size
  | _ => (p.source e).size

/-- **What it computes** from its input `v`; a sum has the second input `u`. -/
def apply (v u : Nat → Byte) : Nat → Byte :=
  match p.type e with
  | some .conv2d | some .dwconv2d => (p.conv e).result e v
  | some .gap => (p.gap e).output e v
  | some .fc => (p.fc e).output e v
  | some .softmax => (p.softmax e).output e v
  | some .add => (p.addition e).output e v u
  | some .reshape | none => v

/-- The accesses of the layer are meaningful.  A reshape has its output where its input is. -/
def Sound : Prop :=
  match p.type e with
  | some .conv2d | some .dwconv2d => (p.conv e).Sound
  | some .gap => (p.gap e).Plain
  | some .fc => (p.fc e).Plain
  | some .softmax => (p.softmax e).Plain
  | some .add => (p.addition e).Plain
  | some .reshape => (p.source e).data = (p.target e).data
  | none => False

end Layer

section Call

variable {e : Env} {p : Walk} {v u u' : Nat → Byte}

/-- Only a sum has a second input. -/
theorem apply_congr (h : p.type e = some .add → u = u') : p.apply e v u = p.apply e v u' := by
  rw [apply, apply]
  cases ht : p.type e with
  | none => rfl
  | some t =>
      cases t with
      | add => rw [h ht]
      | _ => rfl

/-- The inputs of the current layer. -/
def Given (e : Env) (p : Walk) (v u : Nat → Byte) (m : Mem) : Prop :=
  m.Holds (p.source e).data (p.reads e) v ∧
    (p.type e = some .add → m.Holds (p.addition e).in1.data (p.reads e) u)

/-- **The call of a layer**, whichever it is. -/
theorem call_computes (hp : p.InModel) (hs : p.Sound e) :
    Ends (p.Given e v u) (p.call e) fun r m => r = .ok ∧
      m.Holds (p.target e).data (p.writes e) (p.apply e v u) := by
  rw [Sound] at hs
  show Ends (fun m : Mem => m.Holds (p.source e).data (p.reads e) v ∧
    (p.type e = some .add → m.Holds (p.addition e).in1.data (p.reads e) u)) _ _
  simp only [reads, writes, apply]
  cases ht : p.type e with
  | none =>
      rw [ht] at hs
      exact hs.elim
  | some t =>
      rw [ht] at hs
      have conv : (p.conv e).Sound → (t = .conv2d ∨ t = .dwconv2d) →
          Ends (fun m => m.Holds (p.source e).data (p.source e).size v) (p.call e) fun r m =>
            r = .ok ∧ m.Holds (p.target e).data (p.target e).size ((p.conv e).result e v) := by
        intro hs htype
        have htype' := htype.imp (fun h => ht.trans (congrArg some h)) fun h =>
          ht.trans (congrArg some h)
        refine conv_ends hp htype' ?_
        by_cases h1 : (p.conv e).p.maxk = 1
        · exact (Conv.single_ends hs h1).weaken fun _ _ hm => ⟨hm.1, hm.2.2⟩
        · exact (Conv.windows_ends hs h1).weaken fun _ _ hm => ⟨hm.1, hm.2.2⟩
      cases t with
      | conv2d => exact (conv hs (Or.inl rfl)).conseq (fun _ hm => hm.1) fun _ _ h => h
      | dwconv2d => exact (conv hs (Or.inr rfl)).conseq (fun _ hm => hm.1) fun _ _ h => h
      | gap =>
          exact gap_ends hp ht ((Gap.layer_ends hs).conseq (fun _ hm => hm.1) fun _ _ h => h)
      | fc => exact fc_ends hp ht ((Fc.layer_ends hs).conseq (fun _ hm => hm.1) fun _ _ h => h)
      | softmax =>
          exact softmax_ends hp ht
            ((Softmax.layer_ends hs).conseq (fun _ hm => hm.1) fun _ _ h => h)
      | add =>
          exact addition_ends hp ht ((Addition.layer_ends hs).conseq
            (fun _ hm => ⟨hm.1, hm.2 rfl⟩) fun _ _ h => h)
      | reshape =>
          refine call_ends hp ht (((quant_reads hp.layerBody).ends _).bind_eq ?_)
          refine Ends.pure fun m hm => ⟨rfl, ?_⟩
          rw [← hs]
          exact hm.1.mono (min_le_left _ _)

/-- A sound layer succeeds. -/
theorem Sound.ok (hs : p.Sound e) : layerErr e p.mdl.layerBody = .ok := by
  have ht : p.type e = TmLayerType.ofCode (e.word 2 p.mdl.layerBody) := rfl
  rw [Sound, ht] at hs
  rw [layerErr]
  cases hc : TmLayerType.ofCode (e.word 2 p.mdl.layerBody) with
  | none =>
      rw [hc] at hs
      exact hs.elim
  | some t =>
      rw [hc] at hs
      cases t with
      | conv2d => exact hs.err
      | dwconv2d => exact hs.err
      | _ => rfl

/-- The scores of an output layer are behind its output. -/
theorem outputStretches_avoids {lo hi : Int} (hhi : hi ≤ (outf e (p.target e)).off) :
    ∀ s ∈ field p.mdl.layerBody 2 2 :: outputStretches e p.mdl p.outIdx, s.Avoids .main lo hi := by
  have read : ∀ (r : Region) (off : Int) (len : Nat), (Stretch.rd r off len).Avoids .main lo hi :=
    fun _ _ _ h => absurd h Bool.false_ne_true
  have scores : ∀ s ∈ scoreStretches e p.mdl, s.Avoids .main lo hi := by
    unfold scoreStretches
    dsimp only
    split
    · exact fun s hs => absurd hs List.not_mem_nil
    · refine forall_mem_rounds.mpr fun i _ => ?_
      simp only [List.forall_mem_cons, List.not_mem_nil, IsEmpty.forall_iff, implies_true, and_true]
      refine ⟨read _ _ _, read _ _ _, read _ _ _, fun _ _ => Or.inr (Or.inr ?_)⟩
      have hfirst : hi ≤ (outf e (outputAt e p.mdl)).off := hhi
      show hi ≤ (outf e (outputAt e p.mdl)).off + (4 * i : Nat)
      omega
  refine List.forall_mem_cons.mpr ⟨read _ _ _, ?_⟩
  unfold outputStretches
  split
  · simp only [List.forall_mem_append, List.forall_mem_cons, List.not_mem_nil, IsEmpty.forall_iff,
      implies_true, and_true]
    exact ⟨⟨⟨read _ _ _, read _ _ _, read _ _ _⟩, scores⟩, fun _ hr => Region.noConfusion hr⟩
  · exact fun s hs => absurd hs List.not_mem_nil

theorem output_keeps (hp : p.InModel) {n : Nat} (hn : isOut e p.mdl → n ≤ outSize (p.target e)) :
    Ends (fun m => m.Holds (p.target e).data n v) (layerOutput e p.mdl p.outIdx)
      fun _ m => m.Holds (p.target e).data n v := by
  by_cases ho : isOut e p.mdl
  swap
  · exact noOutput_ends hp ho
  · intro σ hσ
    have run := @layerOutput_runs e p.mdl p.outIdx hp.layerBody hp.b σ trivial
    have hbehind : (p.target e).data.off + outSize (p.target e) ≤ (outf e (p.target e)).off :=
      tmAlign_le e _
    have hroom := hn ho
    exact hσ.keep run.2 hp.buf (outputStretches_avoids (by omega))

/-- The current layer can be given a meaning, and an output layer has room for what it computes. -/
structure Computes (e : Env) (p : Walk) : Prop where
  sound : p.Sound e
  room : isOut e p.mdl → p.writes e ≤ outSize (p.target e)

/-- **A round of the loop.** -/
theorem Computes.round (hp : p.InModel) (hc : p.Computes e) :
    Ends (p.Given e v u) (oneLayer e p.mdl p.input p.outIdx) fun _ m =>
      m.Holds (p.target e).data (p.writes e) (p.apply e v u) :=
  round_ends hp (call_computes hp hc.sound) (output_keeps hp hc.room)

end Call

end Walk

/-! ### The network of a model -/

/-- The values that the layers read: layer `k` reads value `src k`, and `src1 k`, too, if it is a
sum.  Value `0` is the input of the model, and value `k + 1` the output of layer `k`. -/
structure Wiring where
  src : Nat → Nat
  src1 : Nat → Nat
  src_le : ∀ k, src k ≤ k
  src1_le : ∀ k, src1 k ≤ k

/-- Every layer reads what the one before it computes. -/
def Wiring.chain : Wiring := ⟨id, id, fun _ => le_rfl, fun _ => le_rfl⟩

namespace Walk

section Network

variable (e : Env) (p : Walk) (W : Wiring)

/-- **The network.** -/
def network : Dataflow (Nat → Byte) where
  step k a := (p.after e k).apply e (a (W.src k)) (a (W.src1 k))
  uses k := {i | i = W.src k ∨ (p.after e k).type e = some .add ∧ i = W.src1 k}
  earlier k i hi := hi.elim (fun h => h ▸ W.src_le k) fun h => h.2 ▸ W.src1_le k
  reads k a b h := by
    rw [h _ (Or.inl rfl)]
    exact apply_congr fun ht => h _ (Or.inr ⟨ht, rfl⟩)

/-- The place of a value, and its length. -/
def place : Nat → Ptr × Nat
  | 0 => (p.input.data, p.input.size)
  | k + 1 => (((p.after e k).target e).data, (p.after e k).writes e)

/-- Value `i` is in its place. -/
def InPlace (i : Nat) (v : Nat → Byte) (σ : Logged Mem Cell) : Prop :=
  σ.mem.Holds (p.place e i).1 (p.place e i).2 v

/-- **The records of the model lay the network out**, for the first `n` layers and the values that are
`wanted` behind them. -/
structure Laid (wanted : Set Nat) (n : Nat) : Prop where
  computes : ∀ k < n, (p.after e k).Computes e
  src : ∀ k < n, (p.place e (W.src k)).1 = ((p.after e k).source e).data ∧
    (p.after e k).reads e ≤ (p.place e (W.src k)).2
  src1 : ∀ k < n, (p.after e k).type e = some .add →
    (p.place e (W.src1 k)).1 = ((p.after e k).addition e).in1.data ∧
      (p.after e k).reads e ≤ (p.place e (W.src1 k)).2
  /-- Nothing is written over a value that is still to be read. -/
  keeps : ∀ k < n, ∀ i ≤ k, (p.network e W).Live wanted n (k + 1) i →
    ∀ s ∈ oneStretches e (p.after e k).mdl (p.after e k).input (p.after e k).outIdx,
      s.Avoids .main (p.place e i).1.off ((p.place e i).1.off + (p.place e i).2)

variable {e p W} {wanted : Set Nat} {n : Nat}

/-- In a chain nothing is read twice, so that every layer may write over what it has read. -/
theorem not_live_chain (hsum : ∀ k < n, (p.after e k).type e ≠ some .add) {k i : Nat} (hk : k < n)
    (hi : i ≤ k) : ¬(p.network e .chain).Live {n} n (k + 1) i := by
  rintro ⟨-, hw | ⟨j, hj, hn, hu⟩⟩
  · exact absurd (hw ▸ hk) (not_lt.mpr hi)
  · rcases hu with rfl | ⟨ht, -⟩
    · exact absurd hj (not_le.mpr (Nat.lt_succ_of_le hi))
    · exact hsum j hn ht

theorem place_region (hp : p.InModel) (i : Nat) : (p.place e i).1.region = .main := by
  cases i with
  | zero => exact hp.input
  | succ k => exact (hp.after (e := e) (n := k)).buf

theorem Laid.ok (h : p.Laid e W wanted n) : p.Ok e n :=
  ok_of fun k hk => (h.computes k hk).sound.ok

/-- **The layers run the network.** -/
theorem Laid.implements (hp : p.InModel) (h : p.Laid e W wanted n) :
    (p.network e W).Implements wanted n (p.InPlace e) fun k σ σ' => σ' = (p.after e k).one e σ := by
  constructor
  · rintro k hk σ _ a rfl hin
    have given : (p.after e k).Given e (a (W.src k)) (a (W.src1 k)) σ.mem := by
      constructor
      · obtain ⟨hdata, hlen⟩ := h.src k hk
        rw [← hdata]
        exact (hin _ (Or.inl rfl)).mono hlen
      · intro ht
        obtain ⟨hdata, hlen⟩ := h.src1 k hk ht
        rw [← hdata]
        exact (hin _ (Or.inr ⟨ht, rfl⟩)).mono hlen
    have round := @Computes.round e (p.after e k) (a (W.src k)) (a (W.src1 k)) hp.after
      (h.computes k hk) σ given
    rw [InPlace, place, one]
    exact round
  · rintro k hk i hi hlive σ _ v rfl hin
    have hq : (p.after e k).InModel := hp.after
    have run := @oneLayer_runs e (p.after e k).mdl (p.after e k).input (p.after e k).outIdx
      hq.layerBody hq.b σ trivial
    exact Mem.Holds.keep hin run.2 (place_region hp i) (h.keeps k hk i hi hlive)

/-- After every layer, what is live is in its place. -/
theorem Laid.holds (hp : p.InModel) (h : p.Laid e W wanted n) {v : Nat → Byte}
    {σ : Logged Mem Cell} (hin : σ.mem.Holds p.input.data p.input.size v) {k i : Nat} (hk : k ≤ n)
    (hi : (p.network e W).Live wanted n k i) :
    p.InPlace e i ((p.network e W).value v i) (p.layers e k σ).2 := by
  refine Dataflow.holds_of_implements (s := fun k => (p.layers e k σ).2) (h.implements hp)
    (fun k hk => ?_) hin hk hi
  obtain ⟨j, rfl⟩ : ∃ j, n = k + 1 + j := ⟨n - (k + 1), by omega⟩
  exact layers_last hp (ok_add.mp h.ok).1 σ

/-- **A run computes the network.**  The layers succeed, and every wanted value is in its place when
they are done. -/
theorem run_network (hp : p.InModel) (h : p.Laid e W wanted n) {v : Nat → Byte}
    {σ : Logged Mem Cell} (hin : σ.mem.Holds p.input.data p.input.size v) :
    (p.layers e n σ).1.1 = .ok ∧ ∀ i ≤ n, i ∈ wanted →
      (p.layers e n σ).2.mem.Holds (p.place e i).1 (p.place e i).2
        ((p.network e W).value v i) := by
  constructor
  · have run := (layers_runs (e := e) hp n σ trivial).1
    rw [run]
    exact h.ok
  · intro i hi hw
    exact h.holds hp hin le_rfl ⟨hi, Or.inl hw⟩

end Network

/-! ### What the network depends on

The model and the arithmetic, but not the image. -/

section Pic

variable {e e' : Env} (hm : e.model = e'.model) (hf : e.fl = e'.fl) {p : Walk} {W : Wiring}
include hm hf

theorem fc_output_pic (L : Fc) (v : Nat → Byte) : L.output e v = L.output e' v := by
  have dot : ∀ k n, e.dotWith v k n = e'.dotWith v k n := fun k n => by
    induction n with
    | zero => rfl
    | succ n ih => rw [Env.dotWith, Env.dotWith, ih, hm]
  funext c
  simp only [Fc.output, Fc.sum, Fc.requantised, Fc.bias, Env.i32, Env.f32, Env.word, dot, hm, hf]

omit hm in
theorem softmax_output_pic (L : Softmax) (v : Nat → Byte) : L.output e v = L.output e' v := by
  have value : L.value e v = L.value e' v := funext fun c => by rw [Softmax.value, Softmax.value, hf]
  have best : ∀ n, L.best e v n = L.best e' v n := fun n => by
    induction n with
    | zero => rfl
    | succ n ih => rw [Softmax.best, Softmax.best, ih, value, hf]
  have expo : L.expo e v = L.expo e' v := funext fun c => by
    rw [Softmax.expo, Softmax.expo, best, value, hf]
  have total : ∀ n, L.total e v n = L.total e' v n := fun n => by
    induction n with
    | zero => rfl
    | succ n ih => rw [Softmax.total, Softmax.total, ih, expo, hf]
  funext c
  rw [Softmax.output, Softmax.output, Softmax.share, Softmax.share, expo, total, hf]

theorem apply_pic (v u : Nat → Byte) : p.apply e v u = p.apply e' v u := by
  have fc := fc_output_pic hm hf (p.fc e) v
  have softmax := softmax_output_pic hf (p.softmax e) v
  obtain ⟨m, pic, a, fl⟩ := e
  obtain ⟨m', pic', a', fl'⟩ := e'
  obtain rfl : m = m' := hm
  obtain rfl : fl = fl' := hf
  have ht : p.type ⟨m, pic, a, fl⟩ = p.type ⟨m, pic', a', fl⟩ := rfl
  rw [apply, apply, ← ht]
  cases p.type ⟨m, pic, a, fl⟩ with
  | none => rfl
  | some t =>
      cases t with
      | fc => exact fc
      | softmax => exact softmax
      | _ => rfl

theorem network_pic : p.network e W = p.network e' W := by
  refine Dataflow.ext (funext fun k => funext fun a => ?_) (funext fun k => ?_)
  · show (p.after e k).apply e _ _ = (p.after e' k).apply e' _ _
    rw [after_pic hm, apply_pic hm hf]
  · show {i | i = W.src k ∨ (p.after e k).type e = some .add ∧ i = W.src1 k} =
      {i | i = W.src k ∨ (p.after e' k).type e' = some .add ∧ i = W.src1 k}
    rw [after_pic hm, type, type, Env.word, Env.word, hm]

/-- A layout does not depend on the image. -/
theorem Laid.pic (ha : e.mainAddr = e'.mainAddr) {wanted : Set Nat} {n : Nat}
    (h : p.Laid e W wanted n) : p.Laid e' W wanted n := by
  have hnet := @network_pic e e' hm hf p W
  have hafter := fun k => @after_pic e e' hm k p
  obtain ⟨m, pic, a, fl⟩ := e
  obtain ⟨m', pic', a', fl'⟩ := e'
  obtain rfl : m = m' := hm
  obtain rfl : fl = fl' := hf
  obtain rfl : a = a' := ha
  have hplace : ∀ i, p.place ⟨m, pic, a, fl⟩ i = p.place ⟨m, pic', a, fl⟩ i := fun i => by
    cases i with
    | zero => rfl
    | succ k =>
        rw [place, place, hafter]
        rfl
  obtain ⟨computes, src, src1, keeps⟩ := h
  simp only [hafter, hplace, hnet] at computes src src1 keeps
  exact ⟨fun k hk => ⟨(computes k hk).sound, (computes k hk).room⟩, src, src1, keeps⟩

end Pic

end Walk

end TinyMaix
