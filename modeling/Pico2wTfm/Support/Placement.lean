import Mathlib.Algebra.Order.Group.Nat
import Mathlib.Data.List.Basic

/-!
# Support — Placement

Pieces of data, each with the address it goes to.  `place` writes them into a memory, one after the
other; `assemble` lays them out one behind the other, with a filler between them.

* `place_inside`, `place_outside`: what pieces in ascending order leave in a memory;
* `place_same`: they leave the same in any order, and if they come more than once;
* `getElem?_assemble`: assembled, they are what they leave in a memory of fillers;
* `place_joined`: pieces without gaps are one piece.
-/

namespace Placement

variable {α : Type}

structure Piece (α : Type) where
  addr : Nat
  data : List α
deriving DecidableEq, Repr

namespace Piece

/-- The address after the last of the piece. -/
def stop (p : Piece α) : Nat := p.addr + p.data.length

def Covers (p : Piece α) (a : Nat) : Prop := p.addr ≤ a ∧ a < p.stop

/-- A memory with the piece in it. -/
def write (p : Piece α) (mem : Nat → α) : Nat → α := fun a =>
  if p.addr ≤ a then (p.data[a - p.addr]?).getD (mem a) else mem a

end Piece

/-- A memory with all pieces in it, later ones over earlier ones. -/
def place (ps : List (Piece α)) (mem : Nat → α) : Nat → α := ps.foldl (fun mem p => p.write mem) mem

/-- Each piece is behind the one before it, and the first is behind `start`. -/
def Ascending : Nat → List (Piece α) → Prop
  | _, [] => True
  | start, p :: ps => start ≤ p.addr ∧ Ascending p.stop ps

/-- The pieces in one list, from `start` on. -/
def assemble (fill : α) : Nat → List (Piece α) → List α
  | _, [] => []
  | start, p :: ps => List.replicate (p.addr - start) fill ++ p.data ++ assemble fill p.stop ps

/-- Where the last piece stops. -/
def stopOf (start : Nat) (ps : List (Piece α)) : Nat := (ps.getLast?.map Piece.stop).getD start

variable {p : Piece α} {ps : List (Piece α)} {mem mem' : Nat → α} {a start : Nat} {fill : α}

/-! ### One piece -/

theorem Piece.write_inside (h : p.Covers a) : some (p.write mem a) = p.data[a - p.addr]? := by
  obtain ⟨hle, hlt⟩ := h
  have hin : a - p.addr < p.data.length := by
    rw [Piece.stop] at hlt
    omega
  rw [Piece.write, if_pos hle, List.getElem?_eq_getElem hin]
  rfl

theorem Piece.write_outside (h : ¬p.Covers a) : p.write mem a = mem a := by
  rw [Piece.write]
  split
  · rename_i hle
    have hout : p.data.length ≤ a - p.addr := by
      have hstop : ¬a < p.addr + p.data.length := fun hlt => h ⟨hle, hlt⟩
      omega
    rw [List.getElem?_eq_none hout]
    rfl
  · rfl

/-- The value at an address depends on the memory at that address. -/
theorem Piece.write_congr (h : mem a = mem' a) : p.write mem a = p.write mem' a := by
  rw [Piece.write, Piece.write, h]

/-! ### Several pieces -/

theorem place_congr (h : mem a = mem' a) : place ps mem a = place ps mem' a := by
  induction ps generalizing mem mem' with
  | nil => exact h
  | cons p ps ih => exact ih (Piece.write_congr h)

/-- Elsewhere the memory stays. -/
theorem place_outside (h : ∀ p ∈ ps, ¬p.Covers a) : place ps mem a = mem a := by
  induction ps generalizing mem with
  | nil => rfl
  | cons p ps ih =>
      obtain ⟨hp, hps⟩ := List.forall_mem_cons.mp h
      exact (ih hps).trans (Piece.write_outside hp)

theorem Ascending.le (h : Ascending start ps) (hp : p ∈ ps) : start ≤ p.addr := by
  induction ps generalizing start with
  | nil => exact absurd hp List.not_mem_nil
  | cons q ps ih =>
      rcases List.mem_cons.mp hp with rfl | hp
      · exact h.1
      · have hq := ih h.2 hp
        rw [Piece.stop] at hq
        exact h.1.trans ((Nat.le_add_right _ _).trans hq)

theorem Ascending.mono {start' : Nat} (hle : start' ≤ start) (h : Ascending start ps) :
    Ascending start' ps := by
  cases ps with
  | nil => trivial
  | cons p ps => exact ⟨hle.trans h.1, h.2⟩

theorem Ascending.place_before (h : Ascending start ps) (ha : a < start) :
    place ps mem a = mem a :=
  place_outside fun _ hp hc => (hc.1.trans_lt ha).not_ge (h.le hp)

/-- **What is in a piece is in the memory.** -/
theorem place_inside (h : Ascending start ps) (hp : p ∈ ps) (hc : p.Covers a) :
    some (place ps mem a) = p.data[a - p.addr]? := by
  induction ps generalizing start mem with
  | nil => exact absurd hp List.not_mem_nil
  | cons q ps ih =>
      rcases List.mem_cons.mp hp with rfl | hp
      · exact (congrArg some (h.2.place_before hc.2)).trans (Piece.write_inside hc)
      · exact ih h.2 hp

/-- **Pieces that are apart may come in any order**, and more than once. -/
theorem place_same {qs : List (Piece α)} (h : Ascending start ps) (hmem : ∀ p, p ∈ qs ↔ p ∈ ps) :
    place qs mem = place ps mem := by
  -- what is written to an address does not depend on the piece it comes from
  have key : ∀ (rs : List (Piece α)) (m : Nat → α) (a : Nat), (∀ p ∈ rs, p ∈ ps) →
      (∃ p ∈ rs, p.Covers a) → place rs m a = place ps mem a := by
    intro rs m a hrs hcover
    induction rs generalizing m with
    | nil =>
        obtain ⟨p, hp, -⟩ := hcover
        exact absurd hp List.not_mem_nil
    | cons r rs ih =>
        obtain ⟨hr, hrs⟩ := List.forall_mem_cons.mp hrs
        by_cases hlater : ∃ p ∈ rs, p.Covers a
        · exact ih (r.write m) hrs hlater
        · have hnone : ∀ p ∈ rs, ¬p.Covers a := fun p hp hc => hlater ⟨p, hp, hc⟩
          have hc : r.Covers a := by
            obtain ⟨p, hp, hc⟩ := hcover
            rcases List.mem_cons.mp hp with rfl | hp
            · exact hc
            · exact absurd hc (hnone p hp)
          have hlast : place (r :: rs) m a = r.write m a := place_outside hnone
          rw [hlast]
          exact Option.some.inj ((Piece.write_inside hc).trans (place_inside h hr hc).symm)
  funext a
  by_cases hcover : ∃ p ∈ qs, p.Covers a
  · exact key qs mem a (fun p hp => (hmem p).mp hp) hcover
  · have hnone : ∀ p ∈ qs, ¬p.Covers a := fun p hp hc => hcover ⟨p, hp, hc⟩
    rw [place_outside hnone, place_outside fun p hp => hnone p ((hmem p).mpr hp)]

/-- **Assembled pieces** are the memory that they make of a memory of fillers. -/
theorem getElem?_assemble (h : Ascending start ps) {i : Nat}
    (hi : i < (assemble fill start ps).length) :
    (assemble fill start ps)[i]? = some (place ps (fun _ => fill) (start + i)) := by
  induction ps generalizing start i with
  | nil => exact absurd hi (Nat.not_lt_zero i)
  | cons p ps ih =>
      obtain ⟨hle, hps⟩ := h
      have hshow : place (p :: ps) (fun _ => fill) (start + i) =
          place ps (p.write fun _ => fill) (start + i) := rfl
      rw [assemble, List.append_assoc, hshow]
      by_cases hgap : i < p.addr - start
      · -- in the gap before the piece
        have hbefore : start + i < p.stop := by
          rw [Piece.stop]
          omega
        have hout : ¬p.Covers (start + i) := fun hc => by
          have := hc.1
          omega
        rw [List.getElem?_append_left (by rwa [List.length_replicate]),
          List.getElem?_replicate_of_lt hgap, hps.place_before hbefore, Piece.write_outside hout]
      · rw [List.getElem?_append_right (by rw [List.length_replicate]; omega), List.length_replicate]
        by_cases hdata : i - (p.addr - start) < p.data.length
        · have hc : p.Covers (start + i) := by
            constructor
            · omega
            · rw [Piece.stop]
              omega
          rw [List.getElem?_append_left hdata, hps.place_before hc.2, Piece.write_inside hc]
          congr 1
          omega
        · -- behind it
          have hi' : i - (p.addr - start) - p.data.length < (assemble fill p.stop ps).length := by
            rw [assemble, List.length_append, List.length_append, List.length_replicate] at hi
            omega
          have haddr : p.stop + (i - (p.addr - start) - p.data.length) = start + i := by
            rw [Piece.stop]
            omega
          have hout : ¬p.Covers (start + i) := fun hc => by
            have := hc.2
            omega
          have hsame : (fun _ : Nat => fill) (start + i) = p.write (fun _ => fill) (start + i) :=
            (@Piece.write_outside _ p (fun _ => fill) _ hout).symm
          rw [List.getElem?_append_right (not_lt.mp hdata), ih hps hi', haddr]
          exact congrArg some (place_congr hsame)

theorem stopOf_cons : stopOf start (p :: ps) = stopOf p.stop ps := by
  cases ps with
  | nil => rfl
  | cons q ps =>
      rw [stopOf, stopOf, List.getLast?_cons_cons]
      obtain ⟨r, hr⟩ : ∃ r, (q :: ps).getLast? = some r :=
        ⟨_, List.getLast?_eq_some_getLast (List.cons_ne_nil q ps)⟩
      rw [hr]
      rfl

theorem length_assemble (h : Ascending start ps) :
    start + (assemble fill start ps).length = stopOf start ps := by
  induction ps generalizing start with
  | nil => rfl
  | cons p ps ih =>
      have hlen := ih h.2
      have hle := h.1
      rw [stopOf_cons, ← hlen, assemble, List.length_append, List.length_append,
        List.length_replicate, Piece.stop]
      omega

/-! ### Pieces without gaps -/

/-- Each piece begins where the one before it stops. -/
def Joined : Nat → List (Piece α) → Prop
  | _, [] => True
  | start, p :: ps => p.addr = start ∧ Joined p.stop ps

theorem Joined.assemble_eq (h : Joined start ps) :
    assemble fill start ps = ps.flatMap Piece.data := by
  induction ps generalizing start with
  | nil => rfl
  | cons p ps ih =>
      rw [assemble, h.1, Nat.sub_self, List.replicate_zero, List.nil_append, ih h.2, List.flatMap_cons]

/-- **Pieces without gaps** leave what one piece leaves. -/
theorem place_joined (h : Joined start ps) :
    place ps mem = Piece.write ⟨start, ps.flatMap Piece.data⟩ mem := by
  induction ps generalizing start mem with
  | nil =>
      funext a
      rw [Piece.write]
      split <;> rfl
  | cons p ps ih =>
      obtain ⟨rfl, hps⟩ := h
      funext a
      have hshow : place (p :: ps) mem a = place ps (p.write mem) a := rfl
      rw [hshow, ih hps, Piece.write, Piece.write, Piece.write, List.flatMap_cons]
      dsimp only
      by_cases hle : p.addr ≤ a
      · rw [if_pos hle]
        by_cases hstop : p.stop ≤ a
        · rw [Piece.stop] at hstop
          rw [if_pos (show p.stop ≤ a from hstop), if_pos hle,
            List.getElem?_append_right (by omega : p.data.length ≤ a - p.addr),
            List.getElem?_eq_none (by omega : p.data.length ≤ a - p.addr), Option.getD_none,
            Piece.stop, Nat.sub_add_eq]
        · have hin : a - p.addr < p.data.length := by
            rw [Piece.stop] at hstop
            omega
          rw [if_neg hstop, if_pos hle, List.getElem?_append_left hin]
      · have hstop : ¬p.stop ≤ a := by
          rw [Piece.stop]
          omega
        rw [if_neg hstop, if_neg hle, if_neg hle]

/-- A list of joined pieces in front of pieces that are behind them. -/
theorem Joined.append_ascending {qs : List (Piece α)} {stop : Nat} (h : Joined start ps)
    (hstop : start + (ps.flatMap Piece.data).length = stop) (hqs : Ascending stop qs) :
    Ascending start (ps ++ qs) := by
  induction ps generalizing start with
  | nil =>
      have heq : start = stop := hstop
      rwa [heq]
  | cons p ps ih =>
      obtain ⟨rfl, hps⟩ := h
      refine ⟨le_rfl, ih hps ?_⟩
      rw [List.flatMap_cons, List.length_append] at hstop
      rw [Piece.stop]
      omega

end Placement
