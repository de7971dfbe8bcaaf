import Mathlib.Data.Rat.Cast.Order
import Mathlib.Tactic.Ring
import Mathlib.Tactic.Positivity
import Mathlib.Tactic.FieldSimp

/-!
# Support — IEEE

Binary interchange formats with round-to-nearest-even arithmetic, computable on bit patterns.
A datum decodes to a sign and an exact magnitude, a quotient of natural numbers; an operation is
the exact rational operation followed by one rounding (`roundMag`).

Magnitudes are encoded so that rounding up across a binade needs no case: the bits of a
magnitude are `(e + bias - 1) * 2 ^ frac + m`, where `m` is the integer significand with its
leading bit, and the carry of `m = 2 ^ (frac + 1)` moves to the exponent by itself.

On finite data the comparison is that of the rational values (`lt_iff`).
-/

namespace Ieee

/-- A binary interchange format: the widths of the fraction and of the exponent. -/
structure Format where
  frac : Nat
  exp : Nat
deriving DecidableEq, Repr

def binary32 : Format := ⟨23, 8⟩
def binary64 : Format := ⟨52, 11⟩

namespace Format

def bias (f : Format) : Nat := 2 ^ (f.exp - 1) - 1

/-- The bits of the infinite magnitude. -/
def infBits (f : Format) : Nat := (2 ^ f.exp - 1) * 2 ^ f.frac

/-- The bits of the quiet NaN the operations return. -/
def nanBits (f : Format) : Nat := f.infBits + 2 ^ (f.frac - 1)

end Format

/-- What a bit pattern stands for: a finite datum is a sign and the magnitude `num / den`. -/
inductive Value where
  | nan
  | inf (neg : Bool)
  | fin (neg : Bool) (num den : Nat)
deriving DecidableEq, Repr

/-- The rational value of a finite datum. -/
def Value.toRat : Value → ℚ
  | .fin neg num den => (if neg then -1 else 1) * (num / den)
  | _ => 0

variable (f : Format)

/-- The value of the bit pattern `w`. -/
def decode (w : Nat) : Value :=
  let neg := w.testBit (f.exp + f.frac)
  let e := w / 2 ^ f.frac % 2 ^ f.exp
  let m := w % 2 ^ f.frac
  if e = 2 ^ f.exp - 1 then (if m = 0 then .inf neg else .nan)
  else
    let sig := if e = 0 then m else 2 ^ f.frac + m
    let k : Int := (if e = 0 then 1 else e) - f.bias - f.frac
    .fin neg (sig * 2 ^ k.toNat) (2 ^ (-k).toNat)

/-- The bit pattern of a sign and the bits of a magnitude. -/
def encode (neg : Bool) (mag : Nat) : Nat := (if neg then 2 ^ (f.exp + f.frac) else 0) + mag

/-- `n / d` to the nearest integer, ties to even. -/
def nearest (n d : Nat) : Nat :=
  let q := n / d
  let r := n % d
  if d < 2 * r ∨ (2 * r = d ∧ q % 2 = 1) then q + 1 else q

/-- The largest `e` with `2 ^ e ≤ num / den`, for positive `num` and `den`. -/
def logFloor (num den : Nat) : Int :=
  let k : Int := (Nat.log2 num : Int) - Nat.log2 den
  if den * 2 ^ k.toNat ≤ num * 2 ^ (-k).toNat then k else k - 1

/-- The bits of the magnitude nearest to `num / den`. -/
def roundMag (num den : Nat) : Nat :=
  if num = 0 then 0 else
    let e : Int := max (logFloor num den) (1 - f.bias)
    let q : Int := e - f.frac
    let m := nearest (num * 2 ^ (-q).toNat) (den * 2 ^ q.toNat)
    min ((e + f.bias - 1).toNat * 2 ^ f.frac + m) f.infBits

/-- The datum nearest to a value. -/
def ofValue : Value → Nat
  | .nan => f.nanBits
  | .inf neg => encode f neg f.infBits
  | .fin neg num den => encode f neg (roundMag f num den)

/-- The exact sum of two values. -/
def addValue : Value → Value → Value
  | .nan, _ | _, .nan => .nan
  | .inf a, .inf b => if a = b then .inf a else .nan
  | .inf a, _ => .inf a
  | _, .inf b => .inf b
  | .fin a n d, .fin b m e =>
      let s : Int := (if a then -1 else 1) * (n * e : Nat) + (if b then -1 else 1) * (m * d : Nat)
      .fin (if s = 0 then a && b else s < 0) s.natAbs (d * e)

def negValue : Value → Value
  | .nan => .nan
  | .inf a => .inf (!a)
  | .fin a n d => .fin (!a) n d

/-- The exact product of two values. -/
def mulValue : Value → Value → Value
  | .nan, _ | _, .nan => .nan
  | .inf a, .inf b => .inf (a ^^ b)
  | .inf a, .fin b n _ | .fin b n _, .inf a => if n = 0 then .nan else .inf (a ^^ b)
  | .fin a n d, .fin b m e => .fin (a ^^ b) (n * m) (d * e)

/-- The exact quotient of two values. -/
def divValue : Value → Value → Value
  | .nan, _ | _, .nan => .nan
  | .inf _, .inf _ => .nan
  | .inf a, .fin b _ _ => .inf (a ^^ b)
  | .fin a _ _, .inf b => .fin (a ^^ b) 0 1
  | .fin a n d, .fin b m e =>
      if m = 0 then (if n = 0 then .nan else .inf (a ^^ b)) else .fin (a ^^ b) (n * e) (d * m)

def ltValue : Value → Value → Bool
  | .nan, _ | _, .nan => false
  | .inf a, .inf b => a && !b
  | .inf a, .fin .. => a
  | .fin .., .inf b => !b
  | .fin a n d, .fin b m e =>
      (if a then -1 else 1) * (n * e : Nat) < ((if b then -1 else 1) * (m * d : Nat) : Int)

def add (x y : Nat) : Nat := ofValue f (addValue (decode f x) (decode f y))
def sub (x y : Nat) : Nat := ofValue f (addValue (decode f x) (negValue (decode f y)))
def mul (x y : Nat) : Nat := ofValue f (mulValue (decode f x) (decode f y))
def div (x y : Nat) : Nat := ofValue f (divValue (decode f x) (decode f y))
def lt (x y : Nat) : Bool := ltValue (decode f x) (decode f y)

/-- The datum nearest to an integer. -/
def ofInt (n : Int) : Nat := ofValue f (.fin (n < 0) n.natAbs 1)

/-- The integer part of a datum, toward zero; infinities go to the bounds `lo` and `hi`, NaN
to zero. -/
def toInt (lo hi : Int) (x : Nat) : Int :=
  match decode f x with
  | .nan => 0
  | .inf neg => if neg then lo else hi
  | .fin neg num den => max lo (min hi ((if neg then -1 else 1) * (num / den : Nat)))

/-- The datum of format `g` nearest to a datum of format `f`. -/
def convert (g : Format) (x : Nat) : Nat := ofValue g (decode f x)

/-! ### Comparison -/

theorem decode_den_pos {x : Nat} {neg : Bool} {num den : Nat}
    (h : decode f x = .fin neg num den) : 0 < den := by
  simp only [decode] at h
  split at h
  · split at h <;> cases h
  · simp only [Value.fin.injEq] at h
    rw [← h.2.2]
    exact Nat.two_pow_pos _

/-- **On finite data the comparison is that of the values.** -/
theorem lt_iff {x y : Nat} {a b : Bool} {n d m e : Nat} (hx : decode f x = .fin a n d)
    (hy : decode f y = .fin b m e) :
    lt f x y = true ↔ (decode f x).toRat < (decode f y).toRat := by
  have hd : (0 : ℚ) < d := by exact_mod_cast decode_den_pos f hx
  have he : (0 : ℚ) < e := by exact_mod_cast decode_den_pos f hy
  have hmul : ∀ (s t : ℚ), s * (n / d) < t * (m / e) ↔ s * (n * e) < t * (m * d) := by
    intro s t
    rw [← mul_div_assoc, ← mul_div_assoc, div_lt_div_iff₀ hd he]
    ring_nf
  rw [lt, hx, hy]
  simp only [ltValue, decide_eq_true_eq, Value.toRat, hmul]
  cases a <;> cases b <;> simp only [Bool.false_eq_true, if_true, if_false] <;> norm_cast

theorem lt_irrefl (x : Nat) : lt f x x = false := by
  rw [lt]
  cases decode f x with
  | nan => rfl
  | inf a => cases a <;> rfl
  | fin a n d => simp only [ltValue, Int.lt_irrefl, decide_false]

theorem lt_trans {x y z : Nat} (h : lt f x y = true) (h' : lt f y z = true) :
    lt f x z = true := by
  cases hx : decode f x with
  | nan => simp [lt, hx, ltValue] at h
  | inf a =>
      cases hy : decode f y with
      | nan => simp [lt, hx, hy, ltValue] at h
      | inf b => cases b <;> cases hz : decode f z <;> simp_all [lt, ltValue]
      | fin b m e => cases hz : decode f z <;> simp_all [lt, ltValue]
  | fin a n d =>
      cases hy : decode f y with
      | nan => simp [lt, hx, hy, ltValue] at h
      | inf b => cases hz : decode f z <;> simp_all [lt, ltValue]
      | fin b m e =>
          cases hz : decode f z with
          | nan => simp [lt, hy, hz, ltValue] at h'
          | inf c => simp_all [lt, ltValue]
          | fin c k g =>
              rw [lt_iff f hx hy] at h
              rw [lt_iff f hy hz] at h'
              exact (lt_iff f hx hz).mpr (h.trans h')

end Ieee
