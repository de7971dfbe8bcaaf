import Mathlib.Data.Set.Lattice
import Mathlib.Tactic.Ring

/-!
# Support — Footprint

Programs over a memory that log the cells they access, and a program logic for them.  A state is
a memory and a log (`Logged`); `ν` shows the value of a cell in a memory.  A step from `s` to
`s'` has footprint `T` (`Extends ν T s s'`) when the log grows by accesses that form exactly
`T`, and every cell `T` does not write keeps its value.

`Runs ν P c T Q`: from every memory that satisfies `P`, the program `c` has footprint `T` and
ends in a result and a memory that satisfy `Q`.  The footprint is exact, so a bound on the cells
of `T` is a bound on the accesses of every run and conversely (`Extends.mem_log`); and the frame is
part of it, so what `T` does not write is preserved.  `foldN` is the counted loop, with one
invariant rule (`Runs.foldN`).
-/

namespace Footprint

/-- One access to a cell. -/
structure Access (κ : Type*) where
  loc : κ
  write : Bool
deriving DecidableEq, Repr

section Sets

variable {κ : Type*}

/-- The union of `T 0`, …, `T (n - 1)`. -/
def upTo (n : Nat) (T : Nat → Set (Access κ)) : Set (Access κ) := {a | ∃ i < n, a ∈ T i}

@[simp] theorem mem_upTo {n : Nat} {T : Nat → Set (Access κ)} {a : Access κ} :
    a ∈ upTo n T ↔ ∃ i < n, a ∈ T i := Iff.rfl

@[simp] theorem upTo_zero (T : Nat → Set (Access κ)) : upTo 0 T = ∅ := by
  ext a; simp

theorem upTo_succ (n : Nat) (T : Nat → Set (Access κ)) : upTo (n + 1) T = upTo n T ∪ T n := by
  ext a
  simp only [mem_upTo, Set.mem_union, Nat.lt_succ_iff_lt_or_eq]
  constructor
  · rintro ⟨i, hi | rfl, ha⟩
    · exact Or.inl ⟨i, hi, ha⟩
    · exact Or.inr ha
  · rintro (⟨i, hi, ha⟩ | ha)
    · exact ⟨i, Or.inl hi, ha⟩
    · exact ⟨n, Or.inr rfl, ha⟩

theorem upTo_union (n : Nat) (T U : Nat → Set (Access κ)) :
    upTo n (fun i => T i ∪ U i) = upTo n T ∪ upTo n U := by
  ext a
  simp only [mem_upTo, Set.mem_union, and_or_left, exists_or]

/-- Every access of `T` satisfies `p`. -/
def All (p : Access κ → Prop) (T : Set (Access κ)) : Prop := ∀ a ∈ T, p a

end Sets

/-- A memory and the log of the accesses made so far, latest first. -/
structure Logged (μ κ : Type) where
  mem : μ
  log : List (Access κ)

/-- A program over the memory `μ`. -/
abbrev Prog (μ κ : Type) := StateM (Logged μ κ)

theorem bind_apply {μ κ α β : Type} (c : Prog μ κ α) (f : α → Prog μ κ β) (s : Logged μ κ) :
    (c >>= f) s = f (c s).1 (c s).2 := rfl

section Steps

variable {μ κ : Type} {V : Type*} (ν : μ → κ → V)

/-- The step from `s` to `s'` has footprint `T`. -/
def Extends (T : Set (Access κ)) (s s' : Logged μ κ) : Prop :=
  (∃ l, s'.log = l ++ s.log ∧ ∀ a, a ∈ l ↔ a ∈ T) ∧
    ∀ k, ⟨k, true⟩ ∉ T → ν s'.mem k = ν s.mem k

variable {ν}

theorem Extends.refl (s : Logged μ κ) : Extends ν ∅ s s :=
  ⟨⟨[], rfl, by simp⟩, fun _ _ => rfl⟩

theorem Extends.trans {T U : Set (Access κ)} {s s₁ s' : Logged μ κ} (h : Extends ν T s s₁)
    (h' : Extends ν U s₁ s') : Extends ν (T ∪ U) s s' := by
  obtain ⟨⟨l, hl, hT⟩, hf⟩ := h
  obtain ⟨⟨l', hl', hT'⟩, hf'⟩ := h'
  refine ⟨⟨l' ++ l, by rw [hl', hl, List.append_assoc], fun a => ?_⟩, fun k hk => ?_⟩
  · rw [List.mem_append, Set.mem_union, hT, hT']
    exact or_comm
  · simp only [Set.mem_union, not_or] at hk
    rw [hf' k hk.2, hf k hk.1]

/-- The accesses of a step are those of its footprint. -/
theorem Extends.mem_log {T : Set (Access κ)} {s s' : Logged μ κ} (h : Extends ν T s s')
    (a : Access κ) : a ∈ s'.log ↔ a ∈ T ∨ a ∈ s.log := by
  obtain ⟨⟨l, hl, hT⟩, -⟩ := h
  rw [hl, List.mem_append, hT]

theorem Extends.keep {T : Set (Access κ)} {s s' : Logged μ κ} (h : Extends ν T s s') {k : κ}
    (hk : ⟨k, true⟩ ∉ T) : ν s'.mem k = ν s.mem k := h.2 k hk

end Steps

section Logic

variable {μ κ α β : Type} {V : Type*} (ν : μ → κ → V)

/-- From a memory satisfying `P`, `c` has footprint `T`, and its result and final memory satisfy
`Q`. -/
def Runs (P : μ → Prop) (c : Prog μ κ α) (T : Set (Access κ)) (Q : α → μ → Prop) : Prop :=
  ∀ s : Logged μ κ, P s.mem → Q (c s).1 (c s).2.mem ∧ Extends ν T s (c s).2

variable {ν}

theorem Runs.pure {P : μ → Prop} {Q : α → μ → Prop} {a : α} (h : ∀ m, P m → Q a m) :
    Runs ν P (Pure.pure a) ∅ Q := fun s hs => ⟨h _ hs, .refl s⟩

theorem Runs.bind {P : μ → Prop} {c : Prog μ κ α} {T U : Set (Access κ)} {Q : α → μ → Prop}
    {f : α → Prog μ κ β} {R : β → μ → Prop} (hc : Runs ν P c T Q)
    (hf : ∀ a, Runs ν (Q a) (f a) U R) : Runs ν P (c >>= f) (T ∪ U) R := fun s hs =>
  have h := hc s hs
  have h' := hf _ _ h.1
  ⟨h'.1, h.2.trans h'.2⟩

/-- A program whose result is known before the rest runs. -/
theorem Runs.bind_eq {P Q : μ → Prop} {c : Prog μ κ α} {T U : Set (Access κ)} {v : α}
    {f : α → Prog μ κ β} {R : β → μ → Prop} (hc : Runs ν P c T fun a m => a = v ∧ Q m)
    (hf : Runs ν Q (f v) U R) : Runs ν P (c >>= f) (T ∪ U) R :=
  hc.bind fun _ s hs => by
    obtain ⟨rfl, hQ⟩ := hs
    exact hf s hQ

theorem Runs.conseq {P P' : μ → Prop} {c : Prog μ κ α} {T U : Set (Access κ)}
    {Q Q' : α → μ → Prop} (hc : Runs ν P c T Q) (hP : ∀ m, P' m → P m) (hT : T = U)
    (hQ : ∀ a m, Q a m → Q' a m) : Runs ν P' c U Q' := fun s hs =>
  have h := hc s (hP _ hs)
  ⟨hQ _ _ h.1, hT ▸ h.2⟩

theorem Runs.of_eq {P : μ → Prop} {c : Prog μ κ α} {T U : Set (Access κ)} {Q : α → μ → Prop}
    (hc : Runs ν P c T Q) (hT : T = U) : Runs ν P c U Q := hT ▸ hc

theorem Runs.weaken {P : μ → Prop} {c : Prog μ κ α} {T : Set (Access κ)} {Q Q' : α → μ → Prop}
    (hc : Runs ν P c T Q) (hQ : ∀ a m, Q a m → Q' a m) : Runs ν P c T Q' :=
  hc.conseq (fun _ h => h) rfl hQ

/-- A fact the memory has no part in may be assumed. -/
theorem Runs.assuming {φ : Prop} {P : μ → Prop} {c : Prog μ κ α} {T : Set (Access κ)}
    {Q : α → μ → Prop} (h : φ → Runs ν P c T Q) : Runs ν (fun m => φ ∧ P m) c T Q := fun s hs =>
  h hs.1 s hs.2

/-- A step that acts on the memory by `f` and logs the access `a`. -/
def atom (a : Access κ) (f : μ → α × μ) : Prog μ κ α := fun s =>
  ((f s.mem).1, ⟨(f s.mem).2, a :: s.log⟩)

theorem Runs.atom {P : μ → Prop} {Q : α → μ → Prop} {a : Access κ} {f : μ → α × μ}
    (hQ : ∀ m, P m → Q (f m).1 (f m).2)
    (hf : ∀ m k, ⟨k, true⟩ ≠ a → ν (f m).2 k = ν m k) :
    Runs ν P (atom a f) {a} Q := fun s hs =>
  ⟨hQ _ hs, ⟨[a], rfl, by simp⟩, fun k hk => hf _ k hk⟩

end Logic

/-! ### Counted loops -/

section Loops

variable {μ κ α : Type} {V : Type*}

/-- `for (i = 0; i < n; i++) x = f i x`, from `x = a`. -/
def foldN : Nat → α → (Nat → α → Prog μ κ α) → Prog μ κ α
  | 0, a, _ => pure a
  | n + 1, a, f => foldN n a f >>= f n

/-- `for (i = 0; i < n; i++) f i`. -/
def forN (n : Nat) (f : Nat → Prog μ κ Unit) : Prog μ κ Unit := foldN n () fun i _ => f i

@[simp] theorem foldN_zero (a : α) (f : Nat → α → Prog μ κ α) : foldN 0 a f = pure a := rfl

theorem foldN_succ (n : Nat) (a : α) (f : Nat → α → Prog μ κ α) :
    foldN (n + 1) a f = foldN n a f >>= f n := rfl

/-- A loop of `n + k` rounds is a loop of `n` rounds followed by one of `k`. -/
theorem foldN_add (n k : Nat) (a : α) (f : Nat → α → Prog μ κ α) :
    foldN (n + k) a f = foldN n a f >>= fun b => foldN k b fun i => f (n + i) := by
  induction k with
  | zero => simp
  | succ k ih => rw [← Nat.add_assoc, foldN_succ, ih, bind_assoc]; rfl

/-- Unrolling by `m`: a loop of `m * n` rounds is a loop of `n` rounds of `m` rounds each. -/
theorem foldN_mul (m n : Nat) (a : α) (f : Nat → α → Prog μ κ α) :
    foldN (m * n) a f = foldN n a fun i b => foldN m b fun j => f (m * i + j) := by
  induction n with
  | zero => simp
  | succ n ih => rw [Nat.mul_succ, foldN_add, ih]; rfl

variable {ν : μ → κ → V}

/-- **The invariant rule.**  `J i b m` holds before round `i`, with `b` the value carried; round
`i` has footprint `T i`. -/
theorem Runs.foldN {n : Nat} {a : α} {f : Nat → α → Prog μ κ α} {J : Nat → α → μ → Prop}
    {T : Nat → Set (Access κ)}
    (h : ∀ i < n, ∀ b, Runs ν (J i b) (f i b) (T i) (J (i + 1))) :
    Runs ν (J 0 a) (Footprint.foldN n a f) (upTo n T) (J n) := by
  induction n with
  | zero => rw [upTo_zero]; exact Runs.pure fun _ hs => hs
  | succ n ih =>
      rw [upTo_succ]
      exact (ih fun i hi => h i (Nat.lt_succ_of_lt hi)).bind fun b => h n (Nat.lt_succ_self n) b

/-- The invariant rule for a loop that carries no value. -/
theorem Runs.forN {n : Nat} {f : Nat → Prog μ κ Unit} {J : Nat → μ → Prop}
    {T : Nat → Set (Access κ)} (h : ∀ i < n, Runs ν (J i) (f i) (T i) fun _ => J (i + 1)) :
    Runs ν (J 0) (Footprint.forN n f) (upTo n T) fun _ => J n :=
  Runs.foldN (J := fun i _ => J i) fun i hi _ => h i hi

/-- A loop whose carried value is a known function `v` of the round. -/
theorem Runs.foldN_val {n : Nat} {f : Nat → α → Prog μ κ α} {J : Nat → μ → Prop} (v : Nat → α)
    {T : Nat → Set (Access κ)}
    (h : ∀ i < n, Runs ν (J i) (f i (v i)) (T i) fun b m => b = v (i + 1) ∧ J (i + 1) m) :
    Runs ν (J 0) (Footprint.foldN n (v 0) f) (upTo n T) fun b m => b = v n ∧ J n m := by
  have key := Runs.foldN (ν := ν) (a := v 0) (f := f) (J := fun i b m => b = v i ∧ J i m)
    (T := T) (n := n) fun i hi b s hs => by
      obtain ⟨rfl, hJ⟩ := hs
      exact h i hi s hJ
  exact key.conseq (fun _ hs => ⟨rfl, hs⟩) rfl fun _ _ hs => hs

end Loops

/-! ### Programs that only read -/

section Reads

variable {μ κ α β : Type} {V : Type*} (ν : μ → κ → V)

/-- `c` has footprint `T`, leaves the memory as it is, and returns `g` of it. -/
def Reads (c : Prog μ κ α) (T : Set (Access κ)) (g : μ → α) : Prop :=
  ∀ P : μ → Prop, Runs ν P c T fun a m => a = g m ∧ P m

variable {ν}

/-- What a read returns and leaves. -/
theorem Reads.spec {c : Prog μ κ α} {T : Set (Access κ)} {g : μ → α} (hc : Reads ν c T g)
    (s : Logged μ κ) : (c s).1 = g s.mem ∧ (c s).2.mem = s.mem := by
  obtain ⟨hr, hm⟩ := (hc (fun m => m = s.mem) s rfl).1
  exact ⟨hr.trans (congrArg g hm), hm⟩

theorem Reads.pure (a : α) : Reads ν (Pure.pure a) ∅ fun _ => a :=
  fun _ => Runs.pure fun _ h => ⟨rfl, h⟩

theorem Reads.bind {c : Prog μ κ α} {f : α → Prog μ κ β} {T U : Set (Access κ)} {g : μ → α}
    {k : α → μ → β} (hc : Reads ν c T g) (hf : ∀ a, Reads ν (f a) U (k a)) :
    Reads ν (c >>= f) (T ∪ U) fun m => k (g m) m := fun P =>
  (hc P).bind fun a => (hf a fun m => a = g m ∧ P m).weaken fun b m h => by
    obtain ⟨hb, rfl, hP⟩ := h
    exact ⟨hb, hP⟩

/-- A read whose result is known before the rest runs. -/
theorem Reads.bind_eq {c : Prog μ κ α} {f : α → Prog μ κ β} {T U : Set (Access κ)} {v : α}
    {g : μ → β} (hc : Reads ν c T fun _ => v) (hf : Reads ν (f v) U g) :
    Reads ν (c >>= f) (T ∪ U) g := fun P => (hc P).bind_eq (hf P)

theorem Reads.map {c : Prog μ κ α} {T : Set (Access κ)} {g : μ → α} (hc : Reads ν c T g)
    (k : α → β) : Reads ν (c >>= fun a => Pure.pure (k a)) T fun m => k (g m) := fun P =>
  ((hc.bind fun a => Reads.pure (k a)) P).of_eq (Set.union_empty T)

theorem Reads.conseq {c : Prog μ κ α} {T U : Set (Access κ)} {g g' : μ → α}
    (hc : Reads ν c T g) (hT : T = U) (hg : ∀ m, g m = g' m) : Reads ν c U g' := fun P =>
  (hc P).conseq (fun _ h => h) hT fun _ m h => ⟨h.1.trans (hg m), h.2⟩

/-- A loop of reads: `v i` is the value carried into round `i`. -/
theorem Reads.foldN {n : Nat} {a : α} {f : Nat → α → Prog μ κ α} {T : Nat → Set (Access κ)}
    (v : Nat → μ → α) (h0 : ∀ m, v 0 m = a) {g : Nat → α → μ → α}
    (h : ∀ i < n, ∀ b, Reads ν (f i b) (T i) (g i b))
    (hv : ∀ i < n, ∀ m, g i (v i m) m = v (i + 1) m) :
    Reads ν (Footprint.foldN n a f) (upTo n T) (v n) := fun P =>
  (Runs.foldN (J := fun i b m => b = v i m ∧ P m) fun i hi b =>
    (h i hi b fun m => b = v i m ∧ P m).weaken fun b' m hb => by
      obtain ⟨hb', rfl, hP⟩ := hb
      exact ⟨hb'.trans (hv i hi m), hP⟩).conseq (fun m hP => ⟨(h0 m).symm, hP⟩) rfl
    fun _ _ hb => hb

end Reads

end Footprint
