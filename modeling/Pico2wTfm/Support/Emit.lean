import Mathlib.Data.List.Basic

/-!
# Support — Emit

Writers that hand out their text in chunks.  A `Chunked` writer has handed out full chunks and keeps
a pending rest that is shorter than a chunk; what it was given is its text, in order.  How much is
pending is known from the length of the text alone (`Chunked.length_pending`).

A computation *emits* a text (`Emits`) when, from any state that stands for a writer, it runs without
an error to one that stands for the writer with the text pushed.  Computations that emit are composed
by `Emits.pure` and `Emits.bind`.
-/

namespace Emit

variable {τ σ ε α β : Type} {cap : Nat}

/-- A writer with chunks of `cap` elements. -/
@[ext] structure Chunked (τ : Type) (cap : Nat) where
  chunks : List (List τ)
  pending : List τ
  full : ∀ c ∈ chunks, c.length = cap
  short : pending.length < cap

namespace Chunked

/-- A writer before its first element. -/
def empty (h : 0 < cap) : Chunked τ cap := ⟨[], [], fun _ hc => absurd hc List.not_mem_nil, h⟩

/-- One element more. -/
def push (w : Chunked τ cap) (a : τ) : Chunked τ cap :=
  if h : w.pending.length + 1 < cap then
    { w with
      pending := w.pending ++ [a]
      short := by rwa [List.length_append] }
  else
    { chunks := w.chunks ++ [w.pending ++ [a]]
      pending := []
      full := by
        refine List.forall_mem_append.mpr ⟨w.full, List.forall_mem_singleton.mpr ?_⟩
        rw [List.length_append]
        exact Nat.le_antisymm w.short (Nat.not_lt.mp h)
      short := Nat.zero_lt_of_lt w.short }

def pushAll (w : Chunked τ cap) (t : List τ) : Chunked τ cap := t.foldl push w

/-- Everything the writer was given. -/
def text (w : Chunked τ cap) : List τ := w.chunks.flatten ++ w.pending

theorem text_push (w : Chunked τ cap) (a : τ) : (w.push a).text = w.text ++ [a] := by
  rw [push]
  split
  · exact (List.append_assoc _ _ _).symm
  · simp only [text, List.flatten_append, List.flatten_singleton, List.append_nil,
      List.append_assoc]

/-- **Nothing is lost, duplicated or reordered.** -/
theorem text_pushAll (w : Chunked τ cap) (t : List τ) : (w.pushAll t).text = w.text ++ t := by
  induction t generalizing w with
  | nil => exact (List.append_nil _).symm
  | cons a t ih =>
      rw [pushAll, List.foldl_cons]
      exact (ih (w.push a)).trans (by rw [text_push, List.append_assoc]; rfl)

/-- **What is pending**, by the length of the text. -/
theorem length_pending (w : Chunked τ cap) : w.pending.length = w.text.length % cap := by
  have chunks : w.chunks.flatten.length = w.chunks.length * cap := by
    rw [List.length_flatten, List.map_congr_left w.full, List.map_const', List.sum_replicate_nat]
  rw [text, List.length_append, chunks, Nat.add_comm, Nat.add_mul_mod_self_right,
    Nat.mod_eq_of_lt w.short]

end Chunked

/-! ### Computations -/

/-- From a state that stands for a writer, `x` returns `a` in one that stands for it with `t`
pushed. -/
def Emits (R : σ → Chunked τ cap → Prop) (x : StateT σ (Except ε) α) (t : List τ) (a : α) : Prop :=
  ∀ s w, R s w → ∃ s', x.run s = .ok (a, s') ∧ R s' (w.pushAll t)

section Rules

variable {R : σ → Chunked τ cap → Prop} {x : StateT σ (Except ε) α} {f : α → StateT σ (Except ε) β}
  {t t' : List τ} {a : α} {b : β}

theorem Emits.pure (a : α) : Emits (ε := ε) R (pure a) [] a := fun s _ h => ⟨s, rfl, h⟩

/-- One computation after another. -/
theorem Emits.bind (h : Emits R x t a) (hf : Emits R (f a) t' b) :
    Emits R (x >>= f) (t ++ t') b := by
  intro s w hs
  obtain ⟨s₁, h₁, hs₁⟩ := h s w hs
  obtain ⟨s₂, h₂, hs₂⟩ := hf s₁ _ hs₁
  refine ⟨s₂, ?_, ?_⟩
  · rw [StateT.run_bind, h₁]
    exact h₂
  · rw [Chunked.pushAll, List.foldl_append]
    exact hs₂

/-- A computation that does not touch the writer. -/
theorem Emits.lift {x : Except ε α} (h : x = .ok a) :
    Emits R (liftM x : StateT σ (Except ε) α) [] a := by
  intro s w hs
  subst h
  exact ⟨s, rfl, hs⟩

end Rules

end Emit
