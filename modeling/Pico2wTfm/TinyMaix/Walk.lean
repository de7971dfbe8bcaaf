import Pico2wTfm.TinyMaix.Extents

/-!
# TinyMaix — Walk

A run of a model layer by layer.  `Walk` is a position of the loop of `tm_run`: the model at its
current layer, the input it was given, the next free output.  `p.after e k` is the position after
`k` layers, a function of the model bytes, and a run can be cut at each of them (`layers_add`).

What an output layer leaves behind is known (`Stored`), so what is in `g_outs` at the end is known
for every model: `g_outs[i]` is written exactly by the layer that is output number `i`
(`mem_outs_stretches`), and keeps its tensor unless a later layer is that output, too.
-/

namespace TinyMaix
open Bytes Footprint

/-- A position of the loop of `tm_run`. -/
structure Walk where
  mdl : TmMdl
  input : TmMat
  outIdx : Nat

namespace Walk

def next (e : Env) (p : Walk) : Walk :=
  ⟨nextLayer e p.mdl, inputAt e p.mdl p.input, nextOut e p.mdl p.outIdx⟩

/-- The position `n` layers on. -/
def after (e : Env) : Nat → Walk → Walk
  | 0, p => p
  | n + 1, p => after e n (p.next e)

def layers (e : Env) (n : Nat) (p : Walk) : Eng (TmErr × TmMdl) :=
  tmRunLayers e n p.mdl p.input p.outIdx

def stretches (e : Env) (n : Nat) (p : Walk) : List (Stretch Region) :=
  runStretches e n p.mdl p.input p.outIdx

/-- The layers are read from the model, and their tensors lie in the main buffer. -/
structure InModel (p : Walk) : Prop where
  layerBody : p.mdl.layerBody.region = .model
  b : p.mdl.b.region = .model
  buf : p.mdl.buf.region = .main
  input : p.input.data.region = .main

/-- The next `n` layers succeed. -/
def Ok (e : Env) (n : Nat) (p : Walk) : Prop := (runResult e n p.mdl).1 = .ok

variable {e : Env} {p : Walk} {n k : Nat}

theorem InModel.next (h : p.InModel) : (p.next e).InModel := by
  refine ⟨h.layerBody, h.b, h.buf, ?_⟩
  show (inputAt e p.mdl p.input).data.region = .main
  unfold inputAt
  split
  · exact h.buf
  · exact h.input

theorem InModel.after (h : p.InModel) : (p.after e n).InModel := by
  induction n generalizing p with
  | zero => exact h
  | succ n ih => exact ih h.next

theorem after_add (e : Env) (n k : Nat) (p : Walk) :
    p.after e (n + k) = (p.after e n).after e k := by
  induction n generalizing p with
  | zero => rw [Nat.zero_add]; rfl
  | succ n ih => rw [Nat.succ_add]; exact ih (p.next e)

theorem after_succ (e : Env) (n : Nat) (p : Walk) :
    p.after e (n + 1) = (p.after e n).next e := after_add e n 1 p

/-! ### Layers that succeed -/

theorem ok_succ : p.Ok e (n + 1) ↔ layerErr e p.mdl.layerBody = .ok ∧ (p.next e).Ok e n := by
  unfold Ok
  rw [runResult]
  split
  · rename_i h
    exact ⟨fun hc => absurd hc h, fun hc => absurd hc.1 h⟩
  · rename_i h
    exact ⟨fun hc => ⟨not_not.mp h, hc⟩, fun hc => hc.2⟩

theorem ok_add : p.Ok e (n + k) ↔ p.Ok e n ∧ (p.after e n).Ok e k := by
  induction n generalizing p with
  | zero =>
      rw [Nat.zero_add]
      exact (and_iff_right rfl).symm
  | succ n ih =>
      rw [Nat.succ_add, ok_succ, ok_succ, ih, and_assoc]
      rfl

theorem Ok.layer (h : p.Ok e n) (hk : k < n) : layerErr e (p.after e k).mdl.layerBody = .ok := by
  obtain ⟨j, rfl⟩ : ∃ j, n = k + (j + 1) := ⟨n - k - 1, by omega⟩
  exact (ok_succ.mp (ok_add.mp h).2).1

theorem ok_of (h : ∀ k < n, layerErr e (p.after e k).mdl.layerBody = .ok) : p.Ok e n := by
  induction n generalizing p with
  | zero => rfl
  | succ n ih =>
      exact ok_succ.mpr ⟨h 0 (Nat.succ_pos n), ih fun k hk => h (k + 1) (Nat.succ_lt_succ hk)⟩

/-- The engine after one layer. -/
def one (e : Env) (p : Walk) (σ : Logged Mem Cell) : Logged Mem Cell :=
  (oneLayer e p.mdl p.input p.outIdx σ).2

theorem layers_succ (hp : p.InModel) (h : layerErr e p.mdl.layerBody = .ok)
    (σ : Logged Mem Cell) : p.layers e (n + 1) σ = (p.next e).layers e n (p.one e σ) := by
  have hr : (oneLayer e p.mdl p.input p.outIdx σ).1 = oneResult e p.mdl p.input p.outIdx :=
    (oneLayer_runs hp.layerBody hp.b σ trivial).1.1
  rw [oneResult, if_neg (not_not.mpr h)] at hr
  rw [layers, tmRunLayers_succ, bind_apply, hr, if_neg (not_not.mpr rfl), layers, one, next]

theorem layers_zero (σ : Logged Mem Cell) : (p.layers e 0 σ).2 = σ := rfl

/-- **A run can be cut.** -/
theorem layers_add (hp : p.InModel) (h : p.Ok e n) (k : Nat) (σ : Logged Mem Cell) :
    p.layers e (n + k) σ = (p.after e n).layers e k (p.layers e n σ).2 := by
  induction n generalizing p σ with
  | zero => rw [Nat.zero_add, layers_zero, after]
  | succ n ih =>
      obtain ⟨h₁, h₂⟩ := ok_succ.mp h
      rw [Nat.succ_add, layers_succ hp h₁, layers_succ hp h₁, ih hp.next h₂, after]

theorem layers_runs (hp : p.InModel) (n : Nat) :
    Runs Mem.val (fun _ => True) (p.layers e n) (cover (p.stretches e n))
      fun r _ => r = runResult e n p.mdl := tmRunLayers_runs n hp.layerBody hp.b

/-- The state after layer `n` is that of the layer. -/
theorem layers_last (hp : p.InModel) (h : p.Ok e (n + 1)) (σ : Logged Mem Cell) :
    (p.layers e (n + 1) σ).2 = (p.after e n).one e (p.layers e n σ).2 := by
  obtain ⟨h₁, h₂⟩ := ok_add.mp h
  rw [layers_add hp h₁, layers_succ hp.after (ok_succ.mp h₂).1, layers_zero]

/-- The layers behind the first `n` touch what they say, and leave the rest as it is. -/
theorem layers_extends (hp : p.InModel) (h : p.Ok e n) (k : Nat) (σ : Logged Mem Cell) :
    Extends Mem.val (cover ((p.after e n).stretches e k)) (p.layers e n σ).2
      (p.layers e (n + k) σ).2 := by
  rw [layers_add hp h]
  exact (layers_runs hp.after k _ trivial).2

/-- What layer `n` leaves behind, if it is an output. -/
theorem layers_stored (hp : p.InModel) (h : p.Ok e (n + 1)) (ho : isOut e (p.after e n).mdl)
    (σ : Logged Mem Cell) :
    Stored e (p.after e n).mdl (p.after e n).outIdx (p.layers e (n + 1) σ).2.mem := by
  have hq : (p.after e n).InModel := hp.after
  have one := (@oneLayer_runs e (p.after e n).mdl (p.after e n).input (p.after e n).outIdx
    hq.layerBody hq.b (p.layers e n σ).2 trivial).1.2 (h.layer (Nat.lt_succ_self n)) ho
  rw [layers_last hp h, Walk.one]
  exact one

/-- The walk reads the model, not the image. -/
theorem after_pic {e' : Env} (hm : e.model = e'.model) (n : Nat) (p : Walk) :
    p.after e n = p.after e' n := by
  have word : ∀ w q, e.word w q = e'.word w q := fun w q => by rw [Env.word, Env.word, hm]
  have hnext : ∀ q : Walk, q.next e = q.next e' := fun q => by
    simp only [next, nextLayer, inputAt, nextOut, matAt_pic hm, word]
    exact congrArg _ (if_congr (not_congr (by rw [word])) rfl rfl)
  induction n generalizing p with
  | zero => rfl
  | succ n ih => rw [after, after, hnext, ih]

/-! ### Outputs -/

theorem outIdx_next : (p.next e).outIdx = if isOut e p.mdl then p.outIdx + 1 else p.outIdx := rfl

theorem outIdx_le (e : Env) (p : Walk) (n k : Nat) :
    (p.after e n).outIdx ≤ (p.after e (n + k)).outIdx := by
  induction k with
  | zero => exact le_rfl
  | succ k ih =>
      rw [← Nat.add_assoc, after_succ, outIdx_next]
      split <;> omega

theorem outIdx_lt (h : isOut e (p.after e n).mdl) (hk : n < k) :
    (p.after e n).outIdx < (p.after e k).outIdx := by
  obtain ⟨j, rfl⟩ : ∃ j, k = n + 1 + j := ⟨k - n - 1, by omega⟩
  refine Nat.lt_of_lt_of_le ?_ (outIdx_le e p (n + 1) j)
  rw [after_succ, outIdx_next, if_pos h]
  exact Nat.lt_succ_self _

theorem outIdx_eq (h : ∀ k < n, ¬isOut e (p.after e k).mdl) : (p.after e n).outIdx = p.outIdx := by
  induction n with
  | zero => rfl
  | succ n ih =>
      rw [after_succ, outIdx_next, if_neg (h n (Nat.lt_succ_self n)),
        ih fun k hk => h k (Nat.lt_succ_of_lt hk)]

end Walk

/-! Only an output layer writes to `g_outs`. -/

section Spares

variable {e : Env} {mdl : TmMdl} {input out : TmMat} {w b ws outp : Ptr} {p : ConvParams}

theorem pixelStretches_spares (ho : outp.region ≠ .outs) {y x : Nat} :
    Spares (pixelStretches input out w b outp p y x) .outs := by
  have tap : ∀ base cc k, Spares (tapStretches input base p cc k) .outs := fun base cc k => by
    simp [tapStretches]
  have chan : ∀ c, Spares (chanStretches input w b outp p c) .outs := fun c => by
    simp [chanStretches, ho]
  refine spares_append.mpr ⟨?_, spares_rounds chan⟩
  split
  · exact spares_wr.mpr ⟨by decide, spares_rounds fun cc => spares_rounds fun j =>
      spares_rounds fun i => tap _ _ _⟩
  · exact spares_rounds fun cc => spares_rounds fun k => tap _ _ _

theorem convStretches_spares (ho : out.data.region ≠ .outs) :
    Spares (convStretches input out w b p ws) .outs := by
  unfold convStretches
  split_ifs
  · exact spares_nil
  · refine spares_append.mpr ⟨by simp, spares_rounds fun y => spares_rounds fun x => ?_⟩
    simp only [pwStretches, spares_rd, spares_wr, spares_nil, and_true]
    exact ho
  · refine spares_append.mpr ⟨by simp, spares_wr.mpr ⟨by decide, spares_rounds fun y =>
      spares_rounds fun x => @pixelStretches_spares input out w b (outPos out y x) p ho y x⟩⟩

theorem layerStretches_spares (ho : out.data.region ≠ .outs) :
    Spares (layerStretches e mdl input out) .outs := by
  unfold layerStretches
  dsimp only
  split
  · exact spares_append.mpr ⟨by simp [field], convStretches_spares ho⟩
  · exact spares_append.mpr ⟨by simp [field], convStretches_spares ho⟩
  · refine spares_rd.mpr (spares_rounds fun c => spares_append.mpr
      ⟨spares_rounds fun y => spares_rounds fun x => by simp, ?_⟩)
    simp [ho]
  · refine spares_append.mpr ⟨by simp [field], spares_rounds fun c => ?_⟩
    simp [ho]
  · simp [field, softmaxStretches, ho]
  · simp [field]
  · simp [field, addStretches, ho]
  · exact spares_nil

/-- **What a round writes to `g_outs`.** -/
theorem mem_outs_oneStretches (hbuf : mdl.buf.region = .main) (herr : layerErr e mdl.layerBody = .ok)
    {outIdx : Nat} {i : Int} :
    ⟨(.outs, i), true⟩ ∈ cover (oneStretches e mdl input outIdx) ↔ isOut e mdl ∧ i = outIdx := by
  have hreg : ∀ p : Ptr, p.region = .main → p.region ≠ .outs := fun p hp => by rw [hp]; decide
  have hin : Spares (inputStretches mdl) .outs := by
    unfold inputStretches
    split <;> simp [field]
  have hlayer : Spares (layerStretches e mdl (inputAt e mdl input) (outputAt e mdl)) .outs :=
    layerStretches_spares (hreg _ hbuf)
  have hscore : Spares (scoreStretches e mdl) .outs := by
    unfold scoreStretches
    dsimp only
    split
    · exact spares_nil
    · refine spares_rounds fun j => ?_
      simp only [field, spares_rd, spares_wr, spares_nil, and_true]
      exact hreg _ hbuf
  have hout : ⟨(.outs, i), true⟩ ∈ cover (outputStretches e mdl outIdx) ↔
      isOut e mdl ∧ i = outIdx := by
    unfold outputStretches
    split
    · rename_i ho
      rw [cover_append, cover_append, Set.mem_union, Set.mem_union, or_iff_right, and_iff_right ho]
      · simp only [Stretch.wr, cover_cons, cover_nil, Set.union_empty, mem_span, true_and]
        omega
      · exact not_or.mpr ⟨Spares.not_mem (by simp [field]), hscore.not_mem⟩
    · rename_i ho
      simp [ho]
  have hpre : Spares (inputStretches mdl ++ [field mdl.layerBody 12 4, field mdl.layerBody 24 8] ++
      field mdl.layerBody 0 2 :: layerStretches e mdl (inputAt e mdl input) (outputAt e mdl))
        .outs :=
    spares_append.mpr ⟨spares_append.mpr ⟨hin, by simp [field]⟩, spares_rd.mpr hlayer⟩
  have hfirst : Spares [field mdl.layerBody 2 2] .outs := by simp [field]
  have hlast : Spares [field mdl.layerBody 4 4] .outs := by simp [field]
  rw [oneStretches, if_neg (not_not.mpr herr), cover_append, Set.mem_union,
    or_iff_right hpre.not_mem, cover_append, Set.mem_union, or_iff_left hlast.not_mem,
    cover_cons_append, Set.mem_union, or_iff_right hfirst.not_mem, hout]

end Spares

namespace Walk

variable {e : Env} {p : Walk} {n : Nat}

/-- **What a run writes to `g_outs`.** -/
theorem mem_outs_stretches (hp : p.InModel) (h : p.Ok e n) {i : Int} :
    ⟨(.outs, i), true⟩ ∈ cover (p.stretches e n) ↔
      ∃ k < n, isOut e (p.after e k).mdl ∧ i = (p.after e k).outIdx := by
  induction n generalizing p with
  | zero =>
      rw [stretches, runStretches, cover_nil]
      refine ⟨fun h => h.elim, ?_⟩
      rintro ⟨k, hk, -⟩
      exact absurd hk (Nat.not_lt_zero k)
  | succ n ih =>
      obtain ⟨h₁, h₂⟩ := ok_succ.mp h
      rw [stretches, runStretches_succ, if_neg (not_not.mpr h₁), cover_append, Set.mem_union,
        mem_outs_oneStretches hp.buf h₁, show runStretches e n (nextLayer e p.mdl)
          (inputAt e p.mdl p.input) (nextOut e p.mdl p.outIdx) = (p.next e).stretches e n from rfl,
        ih hp.next h₂]
      constructor
      · rintro (h | ⟨k, hk, h⟩)
        · exact ⟨0, Nat.succ_pos n, h⟩
        · exact ⟨k + 1, Nat.succ_lt_succ hk, h⟩
      · rintro ⟨k, hk, h⟩
        cases k with
        | zero => exact Or.inl h
        | succ k => exact Or.inr ⟨k, Nat.lt_of_succ_lt_succ hk, h⟩

/-- **One tensor is stored**, and it is the first, exactly when layer `k` is the only output. -/
theorem outs_zero_iff (hp : p.InModel) (h : p.Ok e n) (h₀ : p.outIdx = 0) {k : Nat} (hk : k < n)
    (ho : isOut e (p.after e k).mdl) :
    (∀ i, ⟨(.outs, i), true⟩ ∈ cover (p.stretches e n) ↔ i = 0) ↔
      ∀ j < n, isOut e (p.after e j).mdl → j = k := by
  have zero : (∀ i, ⟨(.outs, i), true⟩ ∈ cover (p.stretches e n) ↔ i = 0) →
      ∀ j < n, isOut e (p.after e j).mdl → (p.after e j).outIdx = 0 := fun hall j hj hoj =>
    Int.ofNat_eq_zero.mp ((hall _).mp ((mem_outs_stretches hp h).mpr ⟨j, hj, hoj, rfl⟩))
  constructor
  · intro hall j hj hoj
    have hzj := zero hall j hj hoj
    have hzk := zero hall k hk ho
    rcases lt_trichotomy j k with hlt | rfl | hlt
    · exact absurd (outIdx_lt hoj hlt) (by omega)
    · rfl
    · exact absurd (outIdx_lt ho hlt) (by omega)
  · intro honly i
    have hidx : (p.after e k).outIdx = 0 :=
      (outIdx_eq fun j hj hoj => hj.ne (honly j (hj.trans hk) hoj)).trans h₀
    rw [mem_outs_stretches hp h]
    constructor
    · rintro ⟨j, hj, hoj, rfl⟩
      rw [honly j hj hoj, hidx]
      rfl
    · rintro rfl
      exact ⟨k, hk, ho, by rw [hidx]; rfl⟩

end Walk

end TinyMaix
