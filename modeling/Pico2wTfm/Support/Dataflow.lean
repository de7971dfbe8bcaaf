import Mathlib.Data.Set.Defs
import Mathlib.Logic.Function.Basic

/-!
# Support — Dataflow

Straight-line programs of values, and memories that run them in places.  Value `0` is the input, and
step `k` computes value `k + 1` from values before it (`Dataflow.value`).  A memory knows nothing of
values: it has a place for each, and places may overlap.  `Implements` is what a layout of the places
has to satisfy, step by step; `holds_of_implements` is what follows for a whole run.

* A value is *live* once it is computed, as long as it is wanted or a later step reads it (`Live`).
* A step may write over the place of a value that is not live.
-/

/-- A program of values. -/
@[ext]
structure Dataflow (V : Type*) where
  /-- Value `k + 1`, from the values before it. -/
  step : Nat → (Nat → V) → V
  /-- The values that step `k` reads. -/
  uses : Nat → Set Nat
  earlier : ∀ k, ∀ i ∈ uses k, i ≤ k
  reads : ∀ k a b, (∀ i ∈ uses k, a i = b i) → step k a = step k b

namespace Dataflow

variable {V S : Type*} (D : Dataflow V) (v : V)

/-- The values after `k` steps. -/
def values : Nat → Nat → V
  | 0 => fun _ => v
  | k + 1 => Function.update (values k) (k + 1) (D.step k (values k))

/-- Value `i` of the program, on the input `v`. -/
def value (i : Nat) : V := D.values v i i

theorem value_zero : D.value v 0 = v := rfl

/-- A value does not change any more. -/
theorem values_eq {i k : Nat} (h : i ≤ k) : D.values v k i = D.value v i := by
  induction k with
  | zero =>
      rw [Nat.le_zero.mp h]
      rfl
  | succ k ih =>
      rcases Nat.le_succ_iff.mp h with h | rfl
      · rw [values, Function.update_of_ne (Nat.ne_of_lt (Nat.lt_succ_of_le h)), ih h]
      · rfl

/-- **The equation of the program.** -/
theorem value_succ (k : Nat) : D.value v (k + 1) = D.step k (D.value v) := by
  rw [value, values, Function.update_self]
  exact D.reads k _ _ fun i hi => D.values_eq v (D.earlier k i hi)

section Places

variable (wanted : Set Nat) (n : Nat)

/-- Value `i` is there after `k` of `n` steps, and is wanted or read by a step to come. -/
def Live (k i : Nat) : Prop := i ≤ k ∧ (i ∈ wanted ∨ ∃ j, k ≤ j ∧ j < n ∧ i ∈ D.uses j)

variable {D wanted n}

/-- What is live behind a step was live before it, unless the step computed it. -/
theorem Live.pred {k i : Nat} (h : D.Live wanted n (k + 1) i) : i = k + 1 ∨ D.Live wanted n k i := by
  rcases Nat.le_succ_iff.mp h.1 with hi | rfl
  · refine Or.inr ⟨hi, h.2.imp_right ?_⟩
    rintro ⟨j, hj, hn, hu⟩
    exact ⟨j, Nat.le_of_succ_le hj, hn, hu⟩
  · exact Or.inl rfl

theorem Live.of_uses {k i : Nat} (hk : k < n) (h : i ∈ D.uses k) : D.Live wanted n k i :=
  ⟨D.earlier k i h, Or.inr ⟨k, Nat.le_refl k, hk, h⟩⟩

variable (D wanted n)

/-- The steps `exec` of a machine run the program, where `At i v s` says that value `v` is in the
place of value `i`. -/
structure Implements (At : Nat → V → S → Prop) (exec : Nat → S → S → Prop) : Prop where
  computes : ∀ k < n, ∀ s s' a, exec k s s' → (∀ i ∈ D.uses k, At i (a i) s) →
    At (k + 1) (D.step k a) s'
  keeps : ∀ k < n, ∀ i ≤ k, D.Live wanted n (k + 1) i → ∀ s s' v, exec k s s' → At i v s → At i v s'

variable {D wanted n v}

/-- **A run holds the live values.** -/
theorem holds_of_implements {At : Nat → V → S → Prop} {exec : Nat → S → S → Prop}
    (h : D.Implements wanted n At exec) {s : Nat → S} (hrun : ∀ k < n, exec k (s k) (s (k + 1)))
    (h₀ : At 0 v (s 0)) {k : Nat} (hk : k ≤ n) {i : Nat} (hi : D.Live wanted n k i) :
    At i (D.value v i) (s k) := by
  induction k generalizing i with
  | zero =>
      rw [Nat.le_zero.mp hi.1, value_zero]
      exact h₀
  | succ k ih =>
      have hstep := hrun k hk
      rcases hi.pred with rfl | hlive
      · rw [value_succ]
        exact h.computes k hk _ _ _ hstep fun i hu => ih (Nat.le_of_lt hk) (.of_uses hk hu)
      · exact h.keeps k hk i hlive.1 hi _ _ _ hstep (ih (Nat.le_of_lt hk) hlive)

end Places

end Dataflow
