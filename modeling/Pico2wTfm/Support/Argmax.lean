import Mathlib.Data.Nat.Basic
import Mathlib.Data.Int.Basic

/-!
# Support — Argmax

The index of a largest score, as a single pass with a running maximum finds it.  The pass starts
from a value `x` and the index `-1`, and moves to a score only if that is greater; so it finds an
index exactly when some score is above `x` (`argmax_found`), and `-1` stands for the rest
(`argmax_none`).  `lt` is any comparison; it has to be a strict order for the score found to be a
largest one.
-/

namespace Argmax

variable {α : Type*} (lt : α → α → Bool) (x : α) (score : Nat → α)

/-- The maximum and its index after `n` scores. -/
def argmax : Nat → α × Int
  | 0 => (x, -1)
  | n + 1 =>
      if lt (argmax n).1 (score n) then (score n, (n : Int)) else argmax n

variable {lt x score}

/-- No score above the start. -/
theorem argmax_none {n : Nat} (h : ∀ i < n, lt x (score i) = false) :
    argmax lt x score n = (x, -1) := by
  induction n with
  | zero => rfl
  | succ n ih =>
      have hn := ih fun i hi => h i (Nat.lt_succ_of_lt hi)
      rw [argmax, hn, if_neg (by rw [h n (Nat.lt_succ_self n)]; exact Bool.false_ne_true)]

variable (trans : ∀ a b c, lt a b = true → lt b c = true → lt a c = true)
  (irrefl : ∀ a, lt a a = false)
include trans irrefl

/-- The running maximum: still the start, or a score above the start.  No score so far is above
it. -/
theorem argmax_spec (n : Nat) :
    (argmax lt x score n = (x, -1) ∨ ∃ c < n, argmax lt x score n = (score c, (c : Int)) ∧
      lt x (score c) = true) ∧ ∀ i < n, lt (argmax lt x score n).1 (score i) = false := by
  induction n with
  | zero => exact ⟨Or.inl rfl, fun i hi => absurd hi (Nat.not_lt_zero i)⟩
  | succ n ih =>
      obtain ⟨hbest, hmax⟩ := ih
      rw [argmax]
      split
      · rename_i hlt
        refine ⟨Or.inr ⟨n, Nat.lt_succ_self n, rfl, ?_⟩, fun i hi => ?_⟩
        · rcases hbest with hb | ⟨c, -, hb, hc⟩
          · rwa [hb] at hlt
          · rw [hb] at hlt
            exact trans _ _ _ hc hlt
        · rcases Nat.lt_succ_iff_lt_or_eq.mp hi with hi | rfl
          · -- a score above the new maximum would be above the old one
            cases hc : lt (score n) (score i) with
            | false => rfl
            | true => exact absurd (trans _ _ _ hlt hc) (by rw [hmax i hi]; exact Bool.false_ne_true)
          · exact irrefl _
      · rename_i hlt
        refine ⟨hbest.imp_right fun ⟨c, hc, h⟩ => ⟨c, Nat.lt_succ_of_lt hc, h⟩, fun i hi => ?_⟩
        rcases Nat.lt_succ_iff_lt_or_eq.mp hi with hi | rfl
        · exact hmax i hi
        · exact Bool.eq_false_iff.mpr hlt

/-- **An index of a largest score**, when some score is above the start. -/
theorem argmax_found {n : Nat} (h : ∃ i < n, lt x (score i) = true) :
    ∃ c < n, (argmax lt x score n).2 = c ∧ ∀ i < n, lt (score c) (score i) = false := by
  obtain ⟨hbest, hmax⟩ := @argmax_spec _ lt x score trans irrefl n
  rcases hbest with hb | ⟨c, hc, hb, -⟩
  · obtain ⟨i, hi, hx⟩ := h
    rw [hb] at hmax
    exact absurd hx (by rw [hmax i hi]; exact Bool.false_ne_true)
  · rw [hb] at hmax ⊢
    exact ⟨c, hc, rfl, hmax⟩

end Argmax
