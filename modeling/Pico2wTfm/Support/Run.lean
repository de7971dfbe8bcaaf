import Mathlib.Data.List.Forall2

/-!
# Support — Run

Runs of a state machine.  `step` takes an input and may be undefined; a run is a history of
inputs, each with the state it led to (`Steps`).

* `Steps.invariant`, `Steps.invariant_on`: what every step keeps holds after every run;
* `Steps.history`: the same for a property of the history and the state;
* `Steps.lockstep`: two runs over related inputs stay related, step by step;
* `Steps.simulate`: a machine that follows every step follows every run.

A run all of whose steps meet a condition on the state and the input is a run of the machine that
takes no other step (`restrict`).  `Along` says something of every step of a run, from the state
before it to the state after it.
-/

namespace Run

variable {σ ι : Type}

/-- From `s`, the history `h` leads to `s'`: the inputs in order, each with the state after it. -/
inductive Steps (step : σ → ι → Option σ) : σ → List (ι × σ) → σ → Prop where
  | refl (s : σ) : Steps step s [] s
  | more {s s₁ s' : σ} {i : ι} {h : List (ι × σ)} (e : step s i = some s₁)
      (r : Steps step s₁ h s') : Steps step s ((i, s₁) :: h) s'

variable {step : σ → ι → Option σ} {s s' : σ} {h : List (ι × σ)}

theorem Steps.trans {s₁ : σ} {h' : List (ι × σ)} (r : Steps step s h s₁)
    (r' : Steps step s₁ h' s') : Steps step s (h ++ h') s' := by
  induction r with
  | refl => exact r'
  | more e _ ih => exact .more e (ih r')

/-- A run of a machine that does less is a run of one that does more. -/
theorem Steps.mono {step' : σ → ι → Option σ}
    (sub : ∀ s i s', step s i = some s' → step' s i = some s') (r : Steps step s h s') :
    Steps step' s h s' := by
  induction r with
  | refl => exact .refl _
  | more e _ ih => exact .more (sub _ _ _ e) ih

/-- The machine that takes only the steps with `p` of the state and the input. -/
def restrict (p : σ → ι → Prop) [∀ s i, Decidable (p s i)] (step : σ → ι → Option σ) :
    σ → ι → Option σ := fun s i => if p s i then step s i else none

theorem restrict_eq_some {p : σ → ι → Prop} [∀ s i, Decidable (p s i)] {i : ι} :
    restrict p step s i = some s' ↔ p s i ∧ step s i = some s' := by
  unfold restrict
  split
  · exact ⟨fun h => ⟨‹_›, h⟩, fun h => h.2⟩
  · exact ⟨fun h => (by cases h), fun h => absurd h.1 ‹_›⟩

/-- **Invariants** of the runs over inputs with `p`. -/
theorem Steps.invariant_on {I : σ → Prop} {p : ι → Prop}
    (keep : ∀ s i s', step s i = some s' → p i → I s → I s') (r : Steps step s h s')
    (hp : ∀ a ∈ h, p a.1) (hs : I s) : I s' := by
  induction r with
  | refl => exact hs
  | more e _ ih =>
      obtain ⟨hi, hp⟩ := List.forall_mem_cons.mp hp
      exact ih hp (keep _ _ _ e hi hs)

/-- **Invariants.** -/
theorem Steps.invariant {I : σ → Prop} (keep : ∀ s i s', step s i = some s' → I s → I s')
    (r : Steps step s h s') (hs : I s) : I s' :=
  r.invariant_on (p := fun _ => True) (fun s i s' e _ => keep s i s' e) (fun _ _ => trivial) hs

/-- **Invariants of the history.**  `J` holds of the history so far and the state. -/
theorem Steps.history {J : List (ι × σ) → σ → Prop}
    (keep : ∀ h s i s', step s i = some s' → J h s → J (h ++ [(i, s')]) s')
    (r : Steps step s h s') {past : List (ι × σ)} (hs : J past s) : J (past ++ h) s' := by
  induction r generalizing past with
  | refl => rwa [List.append_nil]
  | more e _ ih =>
      rw [List.append_cons]
      exact ih (keep _ _ _ _ e hs)

/-- What holds of every step taken in a state with the invariant holds along a run. -/
theorem Steps.forall {I : σ → Prop} {p : ι → σ → Prop}
    (keep : ∀ s i s', step s i = some s' → I s → I s' ∧ p i s')
    (r : Steps step s h s') (hs : I s) : ∀ a ∈ h, p a.1 a.2 := by
  induction r with
  | refl => exact fun _ ha => absurd ha List.not_mem_nil
  | more e _ ih =>
      have hk := keep _ _ _ e hs
      exact List.forall_mem_cons.mpr ⟨hk.2, ih hk.1⟩

/-- **Two runs in lockstep.**  `Q` relates the inputs and `R` the states. -/
theorem Steps.lockstep {R : σ → σ → Prop} {Q : ι → ι → Prop}
    (keep : ∀ s t i j s' t', step s i = some s' → step t j = some t' → Q i j → R s t → R s' t')
    {t t' : σ} {k : List (ι × σ)} (r : Steps step s h s') (r' : Steps step t k t')
    (hQ : List.Forall₂ (fun a b => Q a.1 b.1) h k) (hs : R s t) :
    List.Forall₂ (fun a b => R a.2 b.2) h k ∧ R s' t' := by
  induction r generalizing t k with
  | refl =>
      cases hQ
      cases r'
      exact ⟨.nil, hs⟩
  | more e _ ih =>
      cases hQ with
      | cons hq hQ =>
          cases r' with
          | more e' r' =>
              have h₁ := keep _ _ _ _ _ _ e e' hq hs
              have h₂ := ih r' hQ h₁
              exact ⟨.cons h₁ h₂.1, h₂.2⟩

/-- **Simulation.**  A machine that can follow every step, with the same input, can follow every
run. -/
theorem Steps.simulate {τ : Type} {step' : τ → ι → Option τ} {R : σ → τ → Prop}
    (follow : ∀ s t i s', step s i = some s' → R s t → ∃ t', step' t i = some t' ∧ R s' t')
    {t : τ} (r : Steps step s h s') (hs : R s t) : ∃ k t', Steps step' t k t' ∧
      List.Forall₂ (fun a b => b.1 = a.1 ∧ R a.2 b.2) h k ∧ R s' t' := by
  induction r generalizing t with
  | refl => exact ⟨[], t, .refl t, .nil, hs⟩
  | @more s s₁ s' i h e _ ih =>
      obtain ⟨t₁, e', h₁⟩ := follow _ _ _ _ e hs
      obtain ⟨k, t', r', hk, ht'⟩ := ih h₁
      exact ⟨(i, t₁) :: k, t', .more e' r', .cons ⟨rfl, h₁⟩ hk, ht'⟩

/-! ### The steps of a run -/

/-- `p` holds of every step of the history `h` that starts in `s`. -/
def Along (p : σ → ι → σ → Prop) : σ → List (ι × σ) → Prop
  | _, [] => True
  | s, (i, s') :: h => p s i s' ∧ Along p s' h

/-- Two properties that agree on the steps of the machine agree along its runs. -/
theorem Steps.along_congr {p q : σ → ι → σ → Prop}
    (same : ∀ s i s', step s i = some s' → (p s i s' ↔ q s i s')) (r : Steps step s h s') :
    Along p s h ↔ Along q s h := by
  induction r with
  | refl => exact Iff.rfl
  | more e _ ih => exact and_congr (same _ _ _ e) ih

end Run
