import Mathlib.Data.List.Nodup

/-!
# Support — FirstFit

Tables of slots, each free or taken under a key, and the scan that puts something into the first slot
with a property.  What such a scan does to a table is where it found the slot
(`replaceFirst_eq_some`); two slots taken under one key cannot arise as long as a slot is taken only
under a fresh key (`Distinct.take`), and freeing one never makes them (`Distinct.free`).
-/

namespace FirstFit

variable {α κ : Type*}

/-- Puts `x` into the first slot with `p`, if there is one. -/
def replaceFirst (p : α → Bool) (x : α) : List α → Option (List α)
  | [] => none
  | a :: l => if p a then some (x :: l) else (replaceFirst p x l).map (a :: ·)

section Scan

variable {p : α → Bool} {x a : α} {l l' as bs : List α}

theorem replaceFirst_append (has : ∀ b ∈ as, p b = false) (ha : p a = true) :
    replaceFirst p x (as ++ a :: bs) = some (as ++ x :: bs) := by
  induction as with
  | nil => exact if_pos ha
  | cons b as ih =>
      obtain ⟨hb, has⟩ := List.forall_mem_cons.mp has
      have hb' : ¬p b = true := by rw [hb]; exact Bool.false_ne_true
      rw [List.cons_append, replaceFirst, if_neg hb', ih has]
      rfl

/-- **Where the scan stops.** -/
theorem replaceFirst_eq_some : replaceFirst p x l = some l' ↔ ∃ as a bs,
    l = as ++ a :: bs ∧ (∀ b ∈ as, p b = false) ∧ p a = true ∧ l' = as ++ x :: bs := by
  constructor
  · intro h
    induction l generalizing l' with
    | nil => cases h
    | cons a l ih =>
        rw [replaceFirst] at h
        by_cases ha : p a = true
        · rw [if_pos ha] at h
          cases h
          exact ⟨[], a, l, rfl, fun _ hb => absurd hb List.not_mem_nil, ha, rfl⟩
        · rw [if_neg ha] at h
          obtain ⟨l₁, h₁, rfl⟩ := Option.map_eq_some_iff.mp h
          obtain ⟨as, b, bs, rfl, has, hb, rfl⟩ := ih h₁
          refine ⟨a :: as, b, bs, rfl, ?_, hb, rfl⟩
          exact List.forall_mem_cons.mpr ⟨Bool.eq_false_iff.mpr ha, has⟩
  · rintro ⟨as, a, bs, rfl, has, ha, rfl⟩
    exact replaceFirst_append has ha

/-- The scan finds nothing. -/
theorem replaceFirst_eq_none : replaceFirst p x l = none ↔ ∀ b ∈ l, p b = false := by
  induction l with
  | nil => exact ⟨fun _ b hb => absurd hb List.not_mem_nil, fun _ => rfl⟩
  | cons a l ih =>
      rw [replaceFirst, List.forall_mem_cons]
      by_cases ha : p a = true
      · rw [if_pos ha]
        exact ⟨fun h => (by cases h), fun h => absurd ha (Bool.eq_false_iff.mp h.1)⟩
      · rw [if_neg ha, Option.map_eq_none_iff, ih]
        exact ⟨fun h => ⟨Bool.eq_false_iff.mpr ha, h⟩, fun h => h.2⟩

/-- Where a slot of a table in two parts lies. -/
theorem append_cons_eq_append {l r : List α} (h : as ++ a :: bs = l ++ r) :
    (∃ cs, l = as ++ a :: cs ∧ bs = cs ++ r) ∨ ∃ cs, as = l ++ cs ∧ r = cs ++ a :: bs := by
  rcases List.append_eq_append_iff.mp h with ⟨cs, hl, hr⟩ | ⟨cs, hl, hr⟩
  · cases cs with
    | nil => exact Or.inr ⟨[], by rw [hl, List.append_nil, List.append_nil], hr.symm⟩
    | cons c cs =>
        obtain ⟨rfl, hbs⟩ := List.cons.inj hr
        exact Or.inl ⟨cs, hl, hbs⟩
  · exact Or.inr ⟨cs, hl, hr⟩

end Scan

/-- The slots that are taken have pairwise distinct keys. -/
def Distinct (taken : α → Bool) (key : α → κ) (l : List α) : Prop :=
  ((l.filter taken).map key).Nodup

section Keys

variable {taken : α → Bool} {key : α → κ} {x a b : α} {l as bs : List α}

theorem distinct_of_free (h : ∀ a ∈ l, taken a = false) : Distinct taken key l := by
  have hnil : l.filter taken = [] :=
    List.filter_eq_nil_iff.mpr fun a ha => by rw [h a ha]; exact Bool.false_ne_true
  rw [Distinct, hnil]
  exact List.nodup_nil

/-- Freeing a slot. -/
theorem Distinct.free (h : Distinct taken key (as ++ a :: bs)) (hx : taken x = false) :
    Distinct taken key (as ++ x :: bs) := by
  have hx' : ¬taken x = true := by rw [hx]; exact Bool.false_ne_true
  rw [Distinct, List.filter_append, List.filter_cons_of_neg hx', ← List.filter_append]
  refine List.Nodup.sublist (List.Sublist.map key (List.Sublist.filter taken ?_)) h
  exact List.Sublist.append_left (List.sublist_cons_self a bs) as

/-- Taking a free slot under a key that no slot is taken under. -/
theorem Distinct.take (h : Distinct taken key (as ++ a :: bs)) (ha : taken a = false)
    (hx : ∀ b ∈ as ++ a :: bs, taken b = true → key b ≠ key x) :
    Distinct taken key (as ++ x :: bs) := by
  have ha' : ¬taken a = true := by rw [ha]; exact Bool.false_ne_true
  rw [Distinct, List.filter_append, List.filter_cons_of_neg ha', ← List.filter_append] at h
  by_cases htaken : taken x = true
  · have perm : ((as ++ x :: bs).filter taken).map key |>.Perm
        (key x :: ((as ++ bs).filter taken).map key) := by
      rw [List.filter_append, List.filter_cons_of_pos htaken, List.filter_append, List.map_append,
        List.map_append, List.map_cons]
      exact List.perm_middle
    rw [Distinct, perm.nodup_iff, List.nodup_cons]
    refine ⟨fun hmem => ?_, h⟩
    obtain ⟨b, hb, hkey⟩ := List.mem_map.mp hmem
    obtain ⟨hb, hbt⟩ := List.mem_filter.mp hb
    have hb' : b ∈ as ++ a :: bs := by
      rcases List.mem_append.mp hb with hb | hb
      · exact List.mem_append_left _ hb
      · exact List.mem_append_right _ (List.mem_cons_of_mem a hb)
    exact hx b hb' hbt hkey
  · rw [Distinct, List.filter_append, List.filter_cons_of_neg htaken, ← List.filter_append]
    exact h

end Keys

end FirstFit
