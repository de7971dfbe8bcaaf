import Pico2wTfm.Support.Footprint

/-!
# Support — Stretch

Footprints over a memory of regions indexed by integers.  `span r off n w` is the set of the
accesses to `n` adjacent cells; a list of stretches describes a footprint (`cover`), and a bound
on the footprint is a decidable condition on the list:

* `all_cover_within`: the accesses to region `r` stay below `N` exactly when every stretch does;
* `cover_avoids`: nothing between `lo` and `hi` is written exactly when every stretch avoids it.
-/

namespace Footprint

variable {ρ : Type*}

/-- The accesses to the `n` cells of `r` from `off` on. -/
def span (r : ρ) (off : Int) (n : Nat) (w : Bool) : Set (Access (ρ × Int)) :=
  {a | a.loc.1 = r ∧ a.write = w ∧ off ≤ a.loc.2 ∧ a.loc.2 < off + n}

@[simp] theorem mem_span {r r' : ρ} {off i : Int} {n : Nat} {w w' : Bool} :
    (⟨(r', i), w'⟩ : Access (ρ × Int)) ∈ span r off n w ↔
      r' = r ∧ w' = w ∧ off ≤ i ∧ i < off + n := Iff.rfl

@[simp] theorem span_zero (r : ρ) (off : Int) (w : Bool) : span r off 0 w = ∅ := by
  ext ⟨⟨r', i⟩, w'⟩
  simp only [mem_span, Set.mem_empty_iff_false, iff_false, not_and]
  omega

theorem span_one (r : ρ) (off : Int) (w : Bool) : span r off 1 w = {⟨(r, off), w⟩} := by
  ext ⟨⟨r', i⟩, w'⟩
  have hi : off ≤ i ∧ i < off + 1 ↔ i = off := by omega
  rw [mem_span, Nat.cast_one, hi]
  simp only [Set.mem_singleton_iff, Access.mk.injEq, Prod.mk.injEq]
  constructor
  · rintro ⟨hr, hw, hi⟩
    exact ⟨⟨hr, hi⟩, hw⟩
  · rintro ⟨⟨hr, hi⟩, hw⟩
    exact ⟨hr, hw, hi⟩

/-- Two adjacent stretches are one. -/
theorem span_add (r : ρ) (off : Int) (m n : Nat) (w : Bool) :
    span r off m w ∪ span r (off + m) n w = span r off (m + n) w := by
  ext ⟨⟨r', i⟩, w'⟩
  have hi : (off ≤ i ∧ i < off + m) ∨ (off + m ≤ i ∧ i < off + m + n) ↔
      off ≤ i ∧ i < off + (m + n : Nat) := by omega
  simp only [Set.mem_union, mem_span, ← and_or_left, hi]

/-- Stretches of `k` cells, one after the other, are one stretch. -/
theorem upTo_span (r : ρ) (off : Int) (n k : Nat) (w : Bool) :
    upTo n (fun i => span r (off + (k * i : Nat)) k w) = span r off (k * n) w := by
  induction n with
  | zero => simp
  | succ n ih => rw [upTo_succ, ih, span_add, Nat.mul_succ]

theorem upTo_span_one (r : ρ) (off : Int) (n : Nat) (w : Bool) :
    upTo n (fun i => span r (off + i) 1 w) = span r off n w := by
  simpa using upTo_span r off n 1 w

/-- A loop over pairs followed by the odd round covers what a loop over all rounds does. -/
theorem upTo_span_pairs (r : ρ) (off : Int) (n k : Nat) (w : Bool) :
    (upTo (n / 2) fun i => span r (off + (k * 2 * i : Nat)) (k * 2) w) ∪
      (upTo (n % 2) fun i => span r (off + (k * (2 * (n / 2) + i) : Nat)) k w) =
        span r off (k * n) w := by
  have rest : (fun i => span r (off + (k * (2 * (n / 2) + i) : Nat)) k w) =
      fun i => span r (off + (k * 2 * (n / 2) : Nat) + (k * i : Nat)) k w := by
    funext i
    congr 1
    push_cast; ring
  rw [rest, upTo_span, upTo_span, span_add]
  congr 1
  rw [Nat.mul_assoc, ← Nat.mul_add, Nat.div_add_mod]

theorem upTo_const {κ : Type*} (n : Nat) (T : Set (Access κ)) :
    (upTo n fun _ => T) = if n = 0 then ∅ else T := by
  ext a
  split
  · simp_all
  · rename_i hn
    exact ⟨fun ⟨_, _, h⟩ => h, fun h => ⟨0, Nat.pos_of_ne_zero hn, h⟩⟩

/-! ### Lists of stretches -/

/-- `len` adjacent cells of a region, read or written. -/
structure Stretch (ρ : Type*) where
  region : ρ
  off : Int
  len : Nat
  write : Bool
deriving DecidableEq, Repr

/-- A stretch that is read. -/
def Stretch.rd (r : ρ) (off : Int) (len : Nat) : Stretch ρ := ⟨r, off, len, false⟩

/-- A stretch that is written. -/
def Stretch.wr (r : ρ) (off : Int) (len : Nat) : Stretch ρ := ⟨r, off, len, true⟩

/-- The footprint a list of stretches describes. -/
def cover (l : List (Stretch ρ)) : Set (Access (ρ × Int)) :=
  {a | ∃ s ∈ l, a ∈ span s.region s.off s.len s.write}

@[simp] theorem cover_nil : cover ([] : List (Stretch ρ)) = ∅ := by ext; simp [cover]

@[simp] theorem cover_cons (s : Stretch ρ) (l : List (Stretch ρ)) :
    cover (s :: l) = span s.region s.off s.len s.write ∪ cover l := by ext; simp [cover]

@[simp] theorem cover_append (l l' : List (Stretch ρ)) :
    cover (l ++ l') = cover l ∪ cover l' := by
  ext a
  simp only [cover, List.mem_append, or_and_right, exists_or, Set.mem_ofPred_eq, Set.mem_union]

theorem cover_cons_append (s : Stretch ρ) (l : List (Stretch ρ)) :
    cover (s :: l) = cover [s] ∪ cover l := cover_append [s] l

/-- The stretches of `n` rounds. -/
def rounds (n : Nat) (f : Nat → List (Stretch ρ)) : List (Stretch ρ) := (List.range n).flatMap f

@[simp] theorem cover_rounds (n : Nat) (f : Nat → List (Stretch ρ)) :
    cover (rounds n f) = upTo n fun i => cover (f i) := by
  ext a
  simp only [cover, rounds, List.mem_flatMap, List.mem_range, Set.mem_ofPred_eq, mem_upTo]
  constructor
  · rintro ⟨s, ⟨i, hi, hs⟩, ha⟩
    exact ⟨i, hi, s, hs, ha⟩
  · rintro ⟨i, hi, s, hs, ha⟩
    exact ⟨s, ⟨i, hi, hs⟩, ha⟩

/-- What holds of every stretch of every round. -/
theorem forall_mem_rounds {p : Stretch ρ → Prop} {n : Nat} {f : Nat → List (Stretch ρ)} :
    (∀ s ∈ rounds n f, p s) ↔ ∀ i < n, ∀ s ∈ f i, p s := by
  constructor
  · intro h i hi s hs
    exact h s (List.mem_flatMap.mpr ⟨i, List.mem_range.mpr hi, hs⟩)
  · intro h s hs
    obtain ⟨i, hi, hs⟩ := List.mem_flatMap.mp hs
    exact h i (List.mem_range.mp hi) s hs

/-- No stretch of the list writes to region `r`. -/
def Spares (l : List (Stretch ρ)) (r : ρ) : Prop := ∀ s ∈ l, s.write = true → s.region ≠ r

section Spares

variable {r r' : ρ} {off : Int} {n : Nat} {l l' : List (Stretch ρ)} {f : Nat → List (Stretch ρ)}

@[simp] theorem spares_nil : Spares ([] : List (Stretch ρ)) r := fun _ h => absurd h (by simp)

@[simp] theorem spares_rd : Spares (.rd r' off n :: l) r ↔ Spares l r := by
  simp [Spares, Stretch.rd]

@[simp] theorem spares_wr : Spares (.wr r' off n :: l) r ↔ r' ≠ r ∧ Spares l r := by
  simp [Spares, Stretch.wr]

@[simp] theorem spares_append : Spares (l ++ l') r ↔ Spares l r ∧ Spares l' r := by
  simp only [Spares, List.mem_append, or_imp, forall_and]

theorem spares_rounds (h : ∀ i, Spares (f i) r) : Spares (rounds n f) r := fun s hs hw => by
  obtain ⟨i, -, hi⟩ := List.mem_flatMap.mp hs
  exact h i s hi hw

theorem Spares.not_mem (h : Spares l r) {i : Int} :
    (⟨(r, i), true⟩ : Access (ρ × Int)) ∉ cover l := by
  rintro ⟨s, hs, ha⟩
  obtain ⟨hr, hw, -⟩ := mem_span.mp ha
  exact h s hs hw.symm hr.symm

end Spares

/-- The stretch lies in the first `N` cells, if it is one of region `r`. -/
def Stretch.Within (s : Stretch ρ) (r : ρ) (N : Int) : Prop :=
  s.region = r → s.len = 0 ∨ (0 ≤ s.off ∧ s.off + s.len ≤ N)

instance [DecidableEq ρ] (s : Stretch ρ) (r : ρ) (N : Int) : Decidable (s.Within r N) :=
  inferInstanceAs (Decidable (_ → _))

/-- The stretch writes nothing of `r` from `lo` to `hi`. -/
def Stretch.Avoids (s : Stretch ρ) (r : ρ) (lo hi : Int) : Prop :=
  s.write = true → s.region = r → s.len = 0 ∨ s.off + s.len ≤ lo ∨ hi ≤ s.off

instance [DecidableEq ρ] (s : Stretch ρ) (r : ρ) (lo hi : Int) : Decidable (s.Avoids r lo hi) :=
  inferInstanceAs (Decidable (_ → _ → _))

/-- **Bounds.**  The accesses of a footprint to region `r` lie in its first `N` cells exactly
when each of the stretches does. -/
theorem all_cover_within {l : List (Stretch ρ)} {r : ρ} {N : Int} :
    All (fun a => a.loc.1 = r → 0 ≤ a.loc.2 ∧ a.loc.2 < N) (cover l) ↔
      ∀ s ∈ l, s.Within r N := by
  constructor
  · intro h s hs hr
    by_cases hn : s.len = 0
    · exact Or.inl hn
    have hlo := h ⟨(s.region, s.off), s.write⟩ ⟨s, hs, by simp; omega⟩ hr
    have hhi := h ⟨(s.region, s.off + s.len - 1), s.write⟩ ⟨s, hs, by simp; omega⟩ hr
    simp only at hlo hhi
    exact Or.inr ⟨hlo.1, by omega⟩
  · rintro h ⟨⟨r', i⟩, w⟩ ⟨s, hs, ha⟩ hr
    obtain ⟨rfl, -, hlo, hhi⟩ := mem_span.mp ha
    have := h s hs hr
    simp only
    omega

/-- A footprint with a stretch out of bounds has an access out of bounds. -/
theorem exists_not_within {l : List (Stretch ρ)} {r : ρ} {N : Int} (h : ¬∀ s ∈ l, s.Within r N) :
    ∃ a ∈ cover l, a.loc.1 = r ∧ ¬(0 ≤ a.loc.2 ∧ a.loc.2 < N) := by
  rw [← all_cover_within] at h
  unfold All at h
  push Not at h
  obtain ⟨a, ha, hr, hN⟩ := h
  exact ⟨a, ha, hr, fun hc => absurd (hN hc.1) (not_le.mpr hc.2)⟩

/-- **Frame.**  No cell of `r` from `lo` to `hi` is written exactly when each of the stretches
avoids them. -/
theorem cover_avoids {l : List (Stretch ρ)} {r : ρ} {lo hi : Int} (hlt : lo < hi) :
    (∀ i, lo ≤ i → i < hi → (⟨(r, i), true⟩ : Access (ρ × Int)) ∉ cover l) ↔
      ∀ s ∈ l, s.Avoids r lo hi := by
  constructor
  · rintro h s hs hw rfl
    by_contra hc
    push Not at hc
    obtain ⟨hn, hlo, hhi⟩ := hc
    refine h (max lo s.off) (le_max_left _ _) (max_lt hlt hhi) ⟨s, hs, ?_⟩
    rw [mem_span]
    refine ⟨rfl, hw.symm, le_max_right _ _, max_lt hlo ?_⟩
    omega
  · rintro h i hlo hhi ⟨s, hs, ha⟩
    obtain ⟨hr, hw, h1, h2⟩ := mem_span.mp ha
    have := h s hs hw.symm hr.symm
    omega

end Footprint
