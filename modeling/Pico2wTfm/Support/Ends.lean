import Pico2wTfm.Support.Footprint

/-!
# Support — Ends

Specifications that do not ask what a program touches.  `Ends P c Q`: from every memory that satisfies
`P`, the program `c` ends in a result and a memory that satisfy `Q`.  Every `Runs` is one
(`Runs.ends`), so that the rules for loads and stores serve here as well.
-/

namespace Footprint

variable {μ κ α β : Type} {V : Type*} {ν : μ → κ → V} {P P' Q : μ → Prop} {R R' : α → μ → Prop}
  {S : β → μ → Prop}

def Ends (P : μ → Prop) (c : Prog μ κ α) (R : α → μ → Prop) : Prop :=
  ∀ s : Logged μ κ, P s.mem → R (c s).1 (c s).2.mem

theorem Runs.ends {c : Prog μ κ α} {T : Set (Access κ)} (h : Runs ν P c T R) : Ends P c R :=
  fun s hs => (h s hs).1

theorem Reads.ends {c : Prog μ κ α} {T : Set (Access κ)} {g : μ → α} (h : Reads ν c T g)
    (P : μ → Prop) : Ends P c fun a m => a = g m ∧ P m := (h P).ends

namespace Ends

theorem pure {a : α} (h : ∀ m, P m → R a m) : Ends P (Pure.pure a : Prog μ κ α) R :=
  fun _ hs => h _ hs

theorem bind {c : Prog μ κ α} {f : α → Prog μ κ β} (hc : Ends P c R)
    (hf : ∀ a, Ends (R a) (f a) S) : Ends P (c >>= f) S := fun s hs => hf _ _ (hc s hs)

/-- A program whose result is known before the rest runs. -/
theorem bind_eq {c : Prog μ κ α} {f : α → Prog μ κ β} {v : α}
    (hc : Ends P c fun a m => a = v ∧ Q m) (hf : Ends Q (f v) S) : Ends P (c >>= f) S :=
  hc.bind fun _ s hs => by
    obtain ⟨rfl, hQ⟩ := hs
    exact hf s hQ

theorem conseq {c : Prog μ κ α} (hc : Ends P c R) (hP : ∀ m, P' m → P m)
    (hR : ∀ a m, R a m → R' a m) : Ends P' c R' := fun s hs => hR _ _ (hc s (hP _ hs))

theorem weaken {c : Prog μ κ α} (hc : Ends P c R) (hR : ∀ a m, R a m → R' a m) : Ends P c R' :=
  hc.conseq (fun _ h => h) hR

/-- **The invariant rule.** -/
theorem foldN {n : Nat} {a : α} {f : Nat → α → Prog μ κ α} {J : Nat → α → μ → Prop}
    (h : ∀ i < n, ∀ b, Ends (J i b) (f i b) (J (i + 1))) :
    Ends (J 0 a) (Footprint.foldN n a f) (J n) := by
  induction n with
  | zero => exact pure fun _ hs => hs
  | succ n ih =>
      exact (ih fun i hi => h i (Nat.lt_succ_of_lt hi)).bind fun b => h n (Nat.lt_succ_self n) b

theorem forN {n : Nat} {f : Nat → Prog μ κ Unit} {J : Nat → μ → Prop}
    (h : ∀ i < n, Ends (J i) (f i) fun _ => J (i + 1)) :
    Ends (J 0) (Footprint.forN n f) fun _ => J n :=
  foldN (J := fun i _ => J i) fun i hi _ => h i hi

/-- A loop whose carried value is a known function `v` of the round. -/
theorem foldN_val {n : Nat} {f : Nat → α → Prog μ κ α} {J : Nat → μ → Prop} (v : Nat → α)
    (h : ∀ i < n, Ends (J i) (f i (v i)) fun b m => b = v (i + 1) ∧ J (i + 1) m) :
    Ends (J 0) (Footprint.foldN n (v 0) f) fun b m => b = v n ∧ J n m := by
  have key := foldN (a := v 0) (f := f) (J := fun i b m => b = v i ∧ J i m) (n := n)
    fun i hi b s hs => by
      obtain ⟨rfl, hJ⟩ := hs
      exact h i hi s hJ
  exact key.conseq (fun _ hs => ⟨rfl, hs⟩) fun _ _ hs => hs

end Ends

end Footprint
