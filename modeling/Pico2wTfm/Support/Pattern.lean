import Mathlib.Data.List.Infix
import Mathlib.Data.List.TakeWhile

/-!
# Support — Pattern

Regular expressions that are a sequence of parts: a literal, one character of a class, or a greedy
run of a class.  `matchAt` backtracks as a matcher of regular expressions does: a run is tried at its
longest first.  `search` finds the leftmost match and `findAll` the matches from left to right, none
overlapping another.

* `matchAt_run`: a run that cannot be followed by its own characters is matched at its longest, or
  not at all;
* `search_append`: a search passes over what does not match;
* `findAll_append`: the matches in two texts are those in their concatenation, if none begins in the
  first and ends in the second;
* `search_avoids`: a search in two texts with a character between them that no match holds.
-/

namespace Pattern

variable {α : Type*}

inductive Part (α : Type*) where
  | lit (w : List α)
  | one (p : α → Bool)
  /-- At least `least` characters. -/
  | run (p : α → Bool) (least : Nat)

/-- The first result of `f n`, `f (n - 1)`, …, `f least`. -/
def firstFrom {β : Type*} (f : Nat → Option β) (least : Nat) : Nat → Option β
  | 0 => if least = 0 then f 0 else none
  | n + 1 => if n + 1 < least then none else (f (n + 1)).or (firstFrom f least n)

/-- The text starts with no character of `p`. -/
def Stops (p : α → Bool) (t : List α) : Prop := ∀ c ∈ t.head?, p c = false

theorem takeWhile_stop {p : α → Bool} {as t : List α} (has : ∀ a ∈ as, p a = true) (ht : Stops p t) :
    (as ++ t).takeWhile p = as ∧ (as ++ t).dropWhile p = t := by
  have stop : t.takeWhile p = [] ∧ t.dropWhile p = t := by
    cases t with
    | nil => exact ⟨rfl, rfl⟩
    | cons c t =>
        have hc : ¬p c = true := Bool.eq_false_iff.mp (ht c rfl)
        exact ⟨List.takeWhile_cons_of_neg hc, List.dropWhile_cons_of_neg hc⟩
  rw [List.takeWhile_append_of_pos has, List.dropWhile_append_of_pos has, stop.1, stop.2]
  exact ⟨List.append_nil as, rfl⟩

section Match

variable [DecidableEq α]

/-- What each part matches at the start of a text. -/
def matchAt : List (Part α) → List α → Option (List (List α))
  | [], _ => some []
  | .lit w :: ps, s =>
      if w <+: s then (matchAt ps (s.drop w.length)).map (w :: ·) else none
  | .one p :: ps, s =>
      match s with
      | [] => none
      | c :: s => if p c then (matchAt ps s).map ([c] :: ·) else none
  | .run p least :: ps, s =>
      firstFrom (fun k => (matchAt ps (s.drop k)).map (s.take k :: ·)) least
        (s.takeWhile p).length

/-- The leftmost match. -/
def search (ps : List (Part α)) : List α → Option (List (List α))
  | [] => matchAt ps []
  | c :: s => (matchAt ps (c :: s)).or (search ps s)

/-- The matches from left to right, after `skip` characters. -/
def findAllFrom (ps : List (Part α)) : Nat → List α → List (List (List α))
  | _, [] => []
  | skip + 1, _ :: s => findAllFrom ps skip s
  | 0, c :: s =>
      match matchAt ps (c :: s) with
      | some m => m :: findAllFrom ps (m.flatten.length - 1) s
      | none => findAllFrom ps 0 s

/-- The matches from left to right, for a pattern that matches no empty text. -/
def findAll (ps : List (Part α)) (s : List α) : List (List (List α)) := findAllFrom ps 0 s

variable {ps : List (Part α)} {p q : α → Bool} {s t w : List α} {c : α} {least : Nat}

theorem firstFrom_of_none {β : Type*} {f : Nat → Option β} {n : Nat} (h : ∀ k < n, f k = none) :
    firstFrom f least n = if least ≤ n then f n else none := by
  have none : ∀ m < n, firstFrom f least m = none := by
    intro m hm
    induction m with
    | zero =>
        rw [firstFrom, h 0 hm]
        split <;> rfl
    | succ m ih =>
        rw [firstFrom, h (m + 1) hm, ih (Nat.lt_of_succ_lt hm)]
        split <;> rfl
  cases n with
  | zero =>
      rw [firstFrom]
      by_cases hl : least = 0
      · rw [if_pos hl, if_pos (Nat.le_of_eq hl)]
      · rw [if_neg hl, if_neg fun h => hl (Nat.le_zero.mp h)]
  | succ n =>
      rw [firstFrom, none n (Nat.lt_succ_self n), Option.or_none]
      by_cases hl : least ≤ n + 1
      · rw [if_pos hl, if_neg (Nat.not_lt.mpr hl)]
      · rw [if_neg hl, if_pos (Nat.not_le.mp hl)]

theorem firstFrom_eq_some {β : Type*} {f : Nat → Option β} {n : Nat} {b : β}
    (h : firstFrom f least n = some b) : ∃ k ≤ n, least ≤ k ∧ f k = some b := by
  induction n with
  | zero =>
      rw [firstFrom] at h
      by_cases hl : least = 0
      · rw [if_pos hl] at h
        exact ⟨0, Nat.le_refl 0, Nat.le_of_eq hl, h⟩
      · rw [if_neg hl] at h
        cases h
  | succ n ih =>
      rw [firstFrom] at h
      by_cases hl : n + 1 < least
      · rw [if_pos hl] at h
        cases h
      rw [if_neg hl] at h
      rcases Option.or_eq_some_iff.mp h with h | ⟨-, h⟩
      · exact ⟨n + 1, Nat.le_refl _, Nat.not_lt.mp hl, h⟩
      · obtain ⟨k, hk, hk'⟩ := ih h
        exact ⟨k, Nat.le_succ_of_le hk, hk'⟩

theorem firstFrom_congr {β : Type*} {f g : Nat → Option β} {n : Nat} (h : ∀ k ≤ n, f k = g k) :
    firstFrom f least n = firstFrom g least n := by
  induction n with
  | zero => rw [firstFrom, firstFrom, h 0 (Nat.le_refl 0)]
  | succ n ih =>
      rw [firstFrom, firstFrom, h (n + 1) (Nat.le_refl _), ih fun k hk => h k (Nat.le_succ_of_le hk)]

/-- The parts match no text that starts with a character of `p`. -/
def Refuses (ps : List (Part α)) (p : α → Bool) : Prop :=
  ∀ c s, p c = true → matchAt ps (c :: s) = none

theorem refuses_run (h : ∀ c, p c = true → q c = false) (hl : 0 < least) :
    Refuses (.run q least :: ps) p := by
  intro c s hc
  have hq : ¬q c = true := by rw [h c hc]; exact Bool.false_ne_true
  rw [matchAt, List.takeWhile_cons_of_neg hq]
  exact if_neg (Nat.pos_iff_ne_zero.mp hl)

theorem refuses_lit (h : p c = false) : Refuses (.lit (c :: w) :: ps) p := by
  intro d s hd
  have hne : ¬c :: w <+: d :: s := fun hp => by
    rw [← (List.cons_prefix_cons.mp hp).1, h] at hd
    cases hd
  rw [matchAt, if_neg hne]

/-- **A run is matched at its longest**, if what comes next refuses its characters. -/
theorem matchAt_run (h : Refuses ps p) : matchAt (.run p least :: ps) s =
    if least ≤ (s.takeWhile p).length then
      (matchAt ps (s.dropWhile p)).map (s.takeWhile p :: ·) else none := by
  have split := List.takeWhile_append_dropWhile (p := p) (l := s)
  have shorter : ∀ k < (s.takeWhile p).length,
      (matchAt ps (s.drop k)).map (s.take k :: ·) = none := by
    intro k hk
    have hmem : p (s.takeWhile p)[k] = true := List.mem_takeWhile_imp (List.getElem_mem hk)
    have hdrop : s.drop k = (s.takeWhile p)[k] :: ((s.takeWhile p).drop (k + 1) ++ s.dropWhile p) := by
      conv_lhs => rw [← split]
      rw [List.drop_append_of_le_length (Nat.le_of_lt hk), List.drop_eq_getElem_cons hk]
      rfl
    rw [hdrop, h _ _ hmem]
    rfl
  rw [matchAt, firstFrom_of_none shorter]
  have hdrop : s.drop (s.takeWhile p).length = s.dropWhile p := by
    have h := congrArg (List.drop (s.takeWhile p).length) split
    rw [List.drop_left] at h
    exact h.symm
  have htake : s.take (s.takeWhile p).length = s.takeWhile p := by
    have h := congrArg (List.take (s.takeWhile p).length) split
    rw [List.take_left] at h
    exact h.symm
  rw [hdrop, htake]

/-- A run that is in the text. -/
theorem matchAt_run_append {as : List α} (h : Refuses ps p) (has : ∀ a ∈ as, p a = true)
    (ht : Stops p t) (hl : least ≤ as.length) :
    matchAt (.run p least :: ps) (as ++ t) = (matchAt ps t).map (as :: ·) := by
  obtain ⟨htake, hdrop⟩ := takeWhile_stop has ht
  rw [matchAt_run h, htake, hdrop, if_pos hl]

/-- A literal that is in the text. -/
theorem matchAt_lit_append : matchAt (.lit w :: ps) (w ++ t) = (matchAt ps t).map (w :: ·) := by
  rw [matchAt, if_pos (List.prefix_append w t), List.drop_left]

/-- A run up to a literal that starts with none of its characters. -/
theorem matchAt_run_lit {as : List α} (hw : ∃ a v, w = a :: v ∧ p a = false)
    (has : ∀ a ∈ as, p a = true) (hl : least ≤ as.length) :
    matchAt (.run p least :: .lit w :: ps) (as ++ (w ++ t)) =
      (matchAt ps t).map fun m => as :: w :: m := by
  obtain ⟨a, v, rfl, ha⟩ := hw
  have stop : Stops p (a :: v ++ t) := fun c hc => by
    obtain rfl : a = c := Option.some.inj hc
    exact ha
  rw [matchAt_run_append (refuses_lit ha) has stop hl, matchAt_lit_append, Option.map_map]
  rfl

theorem matchAt_lit_eq_some {m : List (List α)} (h : matchAt (.lit w :: ps) s = some m) :
    ∃ t m', s = w ++ t ∧ matchAt ps t = some m' ∧ m = w :: m' := by
  rw [matchAt] at h
  by_cases hw : w <+: s
  · rw [if_pos hw] at h
    obtain ⟨t, rfl⟩ := hw
    rw [List.drop_left] at h
    obtain ⟨m', hm', rfl⟩ := Option.map_eq_some_iff.mp h
    exact ⟨t, m', rfl, hm', rfl⟩
  · rw [if_neg hw] at h
    cases h

theorem matchAt_run_eq_some {m : List (List α)} (h : matchAt (.run p least :: ps) s = some m) :
    ∃ as t m', s = as ++ t ∧ (∀ a ∈ as, p a = true) ∧ least ≤ as.length ∧
      matchAt ps t = some m' ∧ m = as :: m' := by
  rw [matchAt] at h
  obtain ⟨k, hk, hl, h⟩ := firstFrom_eq_some h
  obtain ⟨m', hm', rfl⟩ := Option.map_eq_some_iff.mp h
  have hlen : k ≤ s.length := hk.trans (List.takeWhile_prefix p).length_le
  refine ⟨s.take k, s.drop k, m', (List.take_append_drop k s).symm, fun a ha => ?_, ?_, hm', rfl⟩
  · have hpre : s.take k <+: s.takeWhile p := by
      refine List.prefix_of_prefix_length_le (List.take_prefix k s) (List.takeWhile_prefix p) ?_
      rw [List.length_take]
      exact (Nat.min_le_left _ _).trans hk
    exact List.mem_takeWhile_imp (hpre.subset ha)
  · rw [List.length_take, Nat.min_eq_left hlen]
    exact hl

/-- What the parts match is at the start of the text. -/
theorem matchAt_prefix {m : List (List α)} (h : matchAt ps s = some m) : m.flatten <+: s := by
  induction ps generalizing s m with
  | nil =>
      cases h
      exact List.nil_prefix
  | cons part ps ih =>
      cases part with
      | lit w =>
          obtain ⟨t, m', rfl, hm', rfl⟩ := matchAt_lit_eq_some h
          rw [List.flatten_cons]
          exact (List.prefix_append_right_inj w).mpr (ih hm')
      | one p =>
          cases s with
          | nil => cases h
          | cons c s =>
              rw [matchAt] at h
              by_cases hc : p c = true
              · rw [if_pos hc] at h
                obtain ⟨m', hm', rfl⟩ := Option.map_eq_some_iff.mp h
                rw [List.flatten_cons]
                exact (List.prefix_append_right_inj [c]).mpr (ih hm')
              · rw [if_neg hc] at h
                cases h
      | run p least =>
          obtain ⟨as, t, m', rfl, -, -, hm', rfl⟩ := matchAt_run_eq_some h
          rw [List.flatten_cons]
          exact (List.prefix_append_right_inj as).mpr (ih hm')

/-! ### Searches -/

/-- A search passes over what does not match. -/
theorem search_append {pre : List α}
    (h : ∀ as c bs, pre = as ++ c :: bs → matchAt ps (c :: bs ++ s) = none) :
    search ps (pre ++ s) = search ps s := by
  induction pre with
  | nil => rfl
  | cons c pre ih =>
      rw [List.cons_append, search, ← List.cons_append, h [] c pre rfl, Option.none_or]
      exact ih fun as d bs hpre => h (c :: as) d bs (by rw [hpre]; rfl)

theorem search_of_matchAt {m : List (List α)} (h : matchAt ps s = some m) :
    search ps s = some m := by
  cases s with
  | nil => exact h
  | cons c s =>
      rw [search, h]
      rfl

/-- A text without a match. -/
theorem findAll_eq_nil (h : ∀ t, t ≠ [] → t <:+ s → matchAt ps t = none) : findAll ps s = [] := by
  rw [findAll]
  induction s with
  | nil => rfl
  | cons c s ih =>
      rw [findAllFrom, h _ (List.cons_ne_nil c s) List.suffix_rfl]
      exact ih fun t ht hs => h t ht (hs.trans (List.suffix_cons c s))

/-- **Matches in two texts**, none of which begins in the first and ends in the second. -/
theorem findAll_append (h : ∀ as, as ≠ [] → as <:+ s → matchAt ps (as ++ t) = matchAt ps as) :
    findAll ps (s ++ t) = findAll ps s ++ findAll ps t := by
  have key : ∀ skip, skip ≤ s.length →
      findAllFrom ps skip (s ++ t) = findAllFrom ps skip s ++ findAllFrom ps 0 t := by
    induction s with
    | nil =>
        intro skip hskip
        obtain rfl : skip = 0 := Nat.le_zero.mp hskip
        rfl
    | cons c s ih =>
        have ih := ih fun as ha hs => h as ha (hs.trans (List.suffix_cons c s))
        intro skip hskip
        cases skip with
        | succ skip =>
            rw [List.cons_append, findAllFrom, findAllFrom]
            exact ih skip (Nat.le_of_succ_le_succ hskip)
        | zero =>
            have hm := h _ (List.cons_ne_nil c s) List.suffix_rfl
            rw [List.cons_append] at hm ⊢
            rw [findAllFrom, findAllFrom, hm]
            cases hres : matchAt ps (c :: s) with
            | none => exact ih 0 (Nat.zero_le _)
            | some m =>
                have hlen := ( matchAt_prefix hres).length_le
                rw [List.length_cons] at hlen
                exact congrArg (m :: ·) (ih _ (Nat.sub_le_of_le_add hlen))
  exact key 0 (Nat.zero_le _)

/-! ### Characters that no match holds -/

/-- No match of the part holds `q`. -/
def Part.Avoids (q : α) : Part α → Prop
  | .lit w => q ∉ w
  | .one p => p q = false
  | .run p _ => p q = false

/-- Pattern `ps` matches nowhere in `pre`, with `s` behind it. -/
def Passes (ps : List (Part α)) (pre s : List α) : Prop :=
  ∀ as c bs, pre = as ++ c :: bs → matchAt ps (c :: bs ++ s) = none

section Avoid

variable {q : α} {pre pre' : List α}

/-- **A match ends before** such a character. -/
theorem matchAt_avoids (h : ∀ part ∈ ps, part.Avoids q) :
    matchAt ps (s ++ q :: t) = matchAt ps s := by
  induction ps generalizing s with
  | nil => rfl
  | cons part ps ih =>
      obtain ⟨hpart, hps⟩ := List.forall_mem_cons.mp h
      have ih := @ih
      cases part with
      | lit w =>
          have prefix_iff : w <+: s ++ q :: t ↔ w <+: s := by
            refine ⟨fun hw => ?_, fun hw => hw.trans (List.prefix_append s _)⟩
            rcases List.prefix_or_prefix_of_prefix hw (List.prefix_append s (q :: t)) with hs | hs
            · exact hs
            · -- otherwise the literal goes over the character
              obtain ⟨v, rfl⟩ := hs
              rw [List.prefix_append_right_inj] at hw
              cases v with
              | nil => exact (List.append_nil s).symm ▸ List.prefix_rfl
              | cons a v =>
                  obtain rfl : a = q := (List.cons_prefix_cons.mp hw).1
                  exact absurd (List.mem_append_right s List.mem_cons_self) hpart
          rw [matchAt, matchAt]
          by_cases hw : w <+: s
          · rw [if_pos (prefix_iff.mpr hw), if_pos hw, List.drop_append_of_le_length hw.length_le,
              ih hps]
          · rw [if_neg (mt prefix_iff.mp hw), if_neg hw]
      | one p =>
          have hq : ¬p q = true := Bool.eq_false_iff.mp hpart
          cases s with
          | nil =>
              rw [List.nil_append, matchAt, matchAt, if_neg hq]
          | cons c s => rw [List.cons_append, matchAt, matchAt, ih hps]
      | run p least =>
          have hq : ¬p q = true := Bool.eq_false_iff.mp hpart
          have htake : (s ++ q :: t).takeWhile p = s.takeWhile p := by
            rw [List.takeWhile_append]
            split
            · rename_i hall
              rw [List.takeWhile_cons_of_neg hq, List.append_nil]
              exact ((List.takeWhile_prefix p).eq_of_length hall).symm
            · rfl
          rw [matchAt, matchAt, htake]
          refine firstFrom_congr fun k hk => ?_
          have hle : k ≤ s.length := hk.trans (List.takeWhile_prefix p).length_le
          rw [List.drop_append_of_le_length hle, List.take_append_of_le_length hle, ih hps]

theorem search_avoids (h : ∀ part ∈ ps, part.Avoids q) :
    search ps (s ++ q :: t) = (search ps s).or (search ps t) := by
  induction s with
  | nil =>
      have first : matchAt ps (q :: t) = matchAt ps [] := @matchAt_avoids _ _ ps [] t q h
      show (matchAt ps (q :: t)).or (search ps t) = _
      rw [first]
      rfl
  | cons c s ih =>
      rw [List.cons_append, search, ← List.cons_append, matchAt_avoids h, ih, search, Option.or_assoc]

/-- A search that finds nothing. -/
theorem search_eq_none (hs : search ps s = none) (ht : t <:+ s) : matchAt ps t = none := by
  induction s with
  | nil =>
      obtain rfl : t = [] := List.suffix_nil.mp ht
      exact hs
  | cons c s ih =>
      rw [search, Option.or_eq_none_iff] at hs
      rcases List.suffix_cons_iff.mp ht with rfl | ht
      · exact hs.1
      · exact ih hs.2 ht

/-- A text without a character of the first literal. -/
theorem search_lit_eq_none {a : α} (ha : a ∈ w) (hs : a ∉ s) : search (.lit w :: ps) s = none := by
  have none : ∀ t, t <:+ s → matchAt (.lit w :: ps) t = none := fun t ht =>
    if_neg fun hw => hs (ht.subset (hw.subset ha))
  induction s with
  | nil => exact none [] List.suffix_rfl
  | cons c s ih =>
      rw [search, none _ List.suffix_rfl]
      exact ih (fun hmem => hs (List.mem_cons_of_mem c hmem))
        fun t ht => none t (ht.trans (List.suffix_cons c s))

/-- Nothing is found in `pre`, and no match goes over its end. -/
theorem passes_of_search (h : ∀ part ∈ ps, part.Avoids q) (hs : search ps pre = none) :
    Passes ps (pre ++ [q]) s := by
  intro as c bs heq
  have key : matchAt ps (c :: bs ++ s) = matchAt ps (c :: bs).dropLast := by
    have hlast : (c :: bs).dropLast ++ [q] = c :: bs := by
      have hget : (pre ++ [q]).getLast? = (as ++ c :: bs).getLast? := congrArg _ heq
      rw [List.getLast?_concat, List.getLast?_append_cons] at hget
      exact List.dropLast_append_getLast? q hget.symm
    rw [← hlast, List.append_assoc, List.singleton_append, matchAt_avoids h, hlast]
  rw [key]
  refine search_eq_none hs ⟨as, ?_⟩
  have hdrop := congrArg List.dropLast heq
  rw [List.dropLast_concat, List.dropLast_append_cons] at hdrop
  exact hdrop.symm

theorem Passes.append (h : Passes ps pre (pre' ++ s)) (h' : Passes ps pre' s) :
    Passes ps (pre ++ pre') s := by
  intro as c bs heq
  rcases List.append_eq_append_iff.mp heq with ⟨u, rfl, hu⟩ | ⟨u, rfl, hu⟩
  · exact h' u c bs hu
  · cases u with
    | nil => exact h' [] c bs hu.symm
    | cons a u =>
        obtain ⟨rfl, rfl⟩ := List.cons.inj hu
        have key := h as c u rfl
        rwa [List.cons_append, ← List.append_assoc] at key

end Avoid

end Match

end Pattern
