import Mathlib.Data.List.Infix

/-!
# Support — Replace

`str.replace`: every occurrence of `old` in a text becomes `new`, from left to right, none overlapping
another.

* `length_replaceAll`: how much longer or shorter the text becomes, by the number of occurrences;
* `replaceAll_eq_self`: the text stays as it is exactly when `old` does not occur in it;
* `replaceAll_sep`: a character that is in neither separates the text.
-/

namespace Replace

variable {α : Type*} [DecidableEq α] {old new : List α}

/-- The replacements from left to right, after `skip` characters. -/
def replaceFrom (old new : List α) : Nat → List α → List α
  | _, [] => []
  | skip + 1, _ :: s => replaceFrom old new skip s
  | 0, c :: s =>
      if old <+: c :: s then new ++ replaceFrom old new (old.length - 1) s
      else c :: replaceFrom old new 0 s

def replaceAll (old new s : List α) : List α := replaceFrom old new 0 s

/-- The number of replacements. -/
def countFrom (old : List α) : Nat → List α → Nat
  | _, [] => 0
  | skip + 1, _ :: s => countFrom old skip s
  | 0, c :: s =>
      if old <+: c :: s then countFrom old (old.length - 1) s + 1 else countFrom old 0 s

def countAll (old s : List α) : Nat := countFrom old 0 s

omit [DecidableEq α] in
/-- An occurrence at the start fits the text. -/
theorem skip_le {c : α} {s : List α} (h : old <+: c :: s) : old.length - 1 ≤ s.length := by
  have hlen := h.length_le
  rw [List.length_cons] at hlen
  exact Nat.sub_le_of_le_add hlen

/-- **Lengths.** -/
theorem length_replaceAll (hold : old ≠ []) (s : List α) :
    (replaceAll old new s).length + countAll old s * old.length =
      s.length + countAll old s * new.length := by
  have key : ∀ s : List α, ∀ skip ≤ s.length,
      (replaceFrom old new skip s).length + countFrom old skip s * old.length + skip =
        s.length + countFrom old skip s * new.length := by
    intro s
    induction s with
    | nil =>
        intro skip hskip
        obtain rfl : skip = 0 := Nat.le_zero.mp hskip
        rw [replaceFrom, countFrom, Nat.zero_mul, Nat.zero_mul]
    | cons c s ih =>
        intro skip hskip
        cases skip with
        | succ skip =>
            have := ih skip (Nat.le_of_succ_le_succ hskip)
            rw [replaceFrom, countFrom, List.length_cons]
            omega
        | zero =>
            rw [replaceFrom, countFrom]
            by_cases h : old <+: c :: s
            · have := ih _ (skip_le h)
              have hpos := List.length_pos_iff.mpr hold
              rw [if_pos h, if_pos h, List.length_append, Nat.succ_mul, Nat.succ_mul,
                List.length_cons]
              omega
            · have := ih 0 (Nat.zero_le _)
              rw [if_neg h, if_neg h, List.length_cons, List.length_cons]
              omega
  exact key s 0 (Nat.zero_le _)

theorem countAll_eq_zero (hold : old ≠ []) {s : List α} : countAll old s = 0 ↔ ¬old <:+: s := by
  rw [countAll]
  induction s with
  | nil =>
      refine ⟨fun _ h => hold (List.infix_nil.mp h), fun _ => rfl⟩
  | cons c s ih =>
      rw [countFrom, List.infix_cons_iff, not_or]
      by_cases h : old <+: c :: s
      · rw [if_pos h]
        exact ⟨fun hc => absurd hc (Nat.succ_ne_zero _), fun hc => absurd h hc.1⟩
      · rw [if_neg h, ih]
        exact ⟨fun hc => ⟨h, hc⟩, fun hc => hc.2⟩

/-- **Nothing changes** exactly when there is no occurrence. -/
theorem replaceAll_eq_self (hold : old ≠ []) (hne : new ≠ old) {s : List α} :
    replaceAll old new s = s ↔ ¬old <:+: s := by
  constructor
  · intro h
    rw [← countAll_eq_zero hold]
    by_cases hlen : new.length = old.length
    · rw [replaceAll] at h
      rw [countAll]
      induction s with
      | nil => rfl
      | cons c s ih =>
          rw [replaceFrom] at h
          rw [countFrom]
          by_cases hp : old <+: c :: s
          · rw [if_pos hp] at h
            obtain ⟨t, ht⟩ := hp
            exact absurd (List.append_inj_left (h.trans ht.symm) hlen) hne
          · rw [if_neg hp] at h
            rw [if_neg hp]
            exact ih (List.cons.inj h).2
    · have key := @length_replaceAll _ _ _ new hold s
      rw [h] at key
      by_contra hc
      exact hlen (Nat.eq_of_mul_eq_mul_left (Nat.pos_of_ne_zero hc) (by omega)).symm
  · intro h
    rw [replaceAll]
    induction s with
    | nil => rfl
    | cons c s ih =>
        rw [List.infix_cons_iff, not_or] at h
        rw [replaceFrom, if_neg h.1, ih h.2]

/-- What is put in is there. -/
theorem infix_replaceAll {s : List α} (hold : old ≠ []) (h : old <:+: s) :
    new <:+: replaceAll old new s := by
  rw [replaceAll]
  induction s with
  | nil => exact absurd (List.infix_nil.mp h) hold
  | cons c s ih =>
      rw [replaceFrom]
      by_cases hp : old <+: c :: s
      · rw [if_pos hp]
        exact (List.prefix_append new _).isInfix
      · rw [if_neg hp]
        have hs := (List.infix_cons_iff.mp h).resolve_left hp
        exact List.infix_cons (ih hs)

theorem mem_replaceAll {s : List α} {c : α} (h : c ∈ replaceAll old new s) : c ∈ s ∨ c ∈ new := by
  have key : ∀ s : List α, ∀ skip, c ∈ replaceFrom old new skip s → c ∈ s ∨ c ∈ new := by
    intro s
    induction s with
    | nil => exact fun skip h => absurd h List.not_mem_nil
    | cons d s ih =>
        intro skip h
        cases skip with
        | succ skip => exact (ih skip h).imp_left (List.mem_cons_of_mem d)
        | zero =>
            rw [replaceFrom] at h
            by_cases hp : old <+: d :: s
            · rw [if_pos hp] at h
              rcases List.mem_append.mp h with h | h
              · exact Or.inr h
              · exact (ih _ h).imp_left (List.mem_cons_of_mem d)
            · rw [if_neg hp] at h
              rcases List.mem_cons.mp h with rfl | h
              · exact Or.inl List.mem_cons_self
              · exact (ih 0 h).imp_left (List.mem_cons_of_mem d)
  exact key s 0 h

/-- **A separator.** -/
theorem replaceAll_sep {c : α} (hold : old ≠ []) (hc : c ∉ old) (s t : List α) :
    replaceAll old new (s ++ c :: t) = replaceAll old new s ++ c :: replaceAll old new t := by
  -- an occurrence does not go over the separator
  have inside : ∀ u : List α, old <+: u ++ c :: t ↔ old <+: u := by
    intro u
    refine ⟨fun h => ?_, fun h => h.trans (List.prefix_append u _)⟩
    rcases List.prefix_or_prefix_of_prefix h (List.prefix_append u (c :: t)) with hu | hu
    · exact hu
    · obtain ⟨v, rfl⟩ := hu
      cases v with
      | nil => rw [List.append_nil]
      | cons d v =>
          have hv := (List.prefix_append_right_inj u).mp h
          rw [(List.cons_prefix_cons.mp hv).1] at hc
          exact absurd (List.mem_append_right u List.mem_cons_self) hc
  have key : ∀ s : List α, ∀ skip ≤ s.length, replaceFrom old new skip (s ++ c :: t) =
      replaceFrom old new skip s ++ c :: replaceFrom old new 0 t := by
    intro s
    induction s with
    | nil =>
        intro skip hskip
        obtain rfl : skip = 0 := Nat.le_zero.mp hskip
        have hno : ¬old <+: c :: t := fun h => hold (List.prefix_nil.mp ((inside []).mp h))
        show (if old <+: c :: t then _ else _) = _
        rw [if_neg hno]
        rfl
    | cons d s ih =>
        intro skip hskip
        cases skip with
        | succ skip =>
            rw [List.cons_append, replaceFrom, replaceFrom]
            exact ih skip (Nat.le_of_succ_le_succ hskip)
        | zero =>
            rw [List.cons_append, replaceFrom, replaceFrom]
            by_cases hp : old <+: d :: s
            · have hp' : old <+: d :: (s ++ c :: t) := (inside (d :: s)).mpr hp
              rw [if_pos hp, if_pos hp', ih _ (skip_le hp), List.append_assoc]
            · have hp' : ¬old <+: d :: (s ++ c :: t) := fun h => hp ((inside (d :: s)).mp h)
              rw [if_neg hp, if_neg hp', ih 0 (Nat.zero_le _)]
              rfl
  exact key s 0 (Nat.zero_le _)

theorem replaceFrom_ne (hnew : new ≠ []) {c : α} {s : List α} :
    replaceFrom old new 0 (c :: s) ≠ [] := by
  rw [replaceFrom]
  split
  · exact List.append_ne_nil_of_left_ne_nil hnew _
  · exact List.cons_ne_nil _ _

/-- The last character is that of the text, or one of `new`. -/
theorem getLast?_replaceAll (hnew : new ≠ []) {s : List α} {c : α}
    (h : c ∈ (replaceAll old new s).getLast?) : c ∈ s.getLast? ∨ c ∈ new := by
  have key : ∀ s : List α, ∀ skip, c ∈ (replaceFrom old new skip s).getLast? →
      c ∈ s.getLast? ∨ c ∈ new := by
    intro s
    induction s with
    | nil => exact fun skip h => by cases h
    | cons d s ih =>
        -- what is last in the rest is last
        have rest : c ∈ s.getLast? ∨ c ∈ new → c ∈ (d :: s).getLast? ∨ c ∈ new := by
          rintro (h | h)
          · left
            rw [List.getLast?_cons, h]
            rfl
          · exact Or.inr h
        intro skip h
        cases skip with
        | succ skip => exact rest (ih skip h)
        | zero =>
            rw [replaceFrom] at h
            by_cases hp : old <+: d :: s
            · rw [if_pos hp, List.getLast?_append] at h
              cases hr : (replaceFrom old new (old.length - 1) s).getLast? with
              | none =>
                  rw [hr, Option.none_or] at h
                  exact Or.inr (List.mem_of_getLast? h)
              | some e =>
                  rw [hr, Option.some_or] at h
                  exact rest (ih _ (hr.trans h))
            · rw [if_neg hp, List.getLast?_cons] at h
              cases hr : (replaceFrom old new 0 s).getLast? with
              | some e =>
                  rw [hr] at h
                  exact rest (ih 0 (hr.trans h))
              | none =>
                  rw [hr] at h
                  have hnil := List.getLast?_eq_none_iff.mp hr
                  cases s with
                  | nil => exact Or.inl h
                  | cons e s => exact absurd hnil (replaceFrom_ne hnew)
  exact key s 0 h

end Replace
