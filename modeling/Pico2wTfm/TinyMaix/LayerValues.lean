import Pico2wTfm.TinyMaix.ConvValues

/-!
# TinyMaix — LayerValues

What the fully connected layer, the average and the sum compute, as functions of their inputs.  For
the first two, input and output lie apart in the main buffer; the sum may also be written over what it
is made of (`Behind`).
-/

namespace TinyMaix
open Bytes Footprint

/-- `f 0 + … + f (n - 1)`. -/
def sumTo : Nat → (Nat → Int) → Int
  | 0, _ => 0
  | n + 1, f => sumTo n f + f n

/-- A byte of an input is read. -/
theorem loadI8_ends (e : Env) {P : Mem → Prop} {p : Ptr} {n i : Nat} {v : Nat → Byte}
    (hp : p.region = .main) (hi : i < n) (h : ∀ m, P m → m.Holds p n v) :
    Ends P (loadI8 e (p.add i)) fun a m => a = (v i).toInt ∧ P m := by
  refine ((loadI8_reads e (p.add i)).ends P).weaken fun a m ha => ⟨ha.1.trans ?_, ha.2⟩
  have hne : (p.add i).region ≠ .model ∧ (p.add i).region ≠ .pic := by
    rw [Ptr.add_region, hp]
    decide
  rw [Env.i8At, e.byteAt_mem hne.1 hne.2]
  exact congrArg BitVec.toInt (h m ha.2 i hi)

/-- Two tensors of the main buffer that are apart. -/
structure Apart (p : Ptr) (n : Nat) (q : Ptr) (k : Nat) : Prop where
  left : p.region = .main
  right : q.region = .main
  apart : p.off + n ≤ q.off ∨ q.off + k ≤ p.off

/-- The input `v` is there, and the first `i` bytes of the output. -/
structure Writing (p : Ptr) (n : Nat) (v : Nat → Byte) (q : Ptr) (f : Nat → Byte) (i : Nat)
    (m : Mem) : Prop where
  input : m.Holds p n v
  output : m.Holds q i f

theorem Writing.push {p q : Ptr} {n k i : Nat} {v f : Nat → Byte} {m : Mem} {b : Byte}
    (ha : Apart p n q k) (hi : i < k) (h : Writing p n v q f i m) (hb : b = f i) :
    Writing p n v q f (i + 1) (m.setByte (q.add i) b) := by
  refine ⟨h.input.setByte (Or.inr ?_), h.output.push hb⟩
  have := ha.apart
  rw [Ptr.add_off]
  omega

/-! ### The fully connected layer -/

/-- The operands of a call of `tml_fc`. -/
structure Fc where
  input : TmMat
  out : TmMat
  w : Ptr
  b : Ptr
  ws : Ptr
  q : Quant
deriving DecidableEq, Repr

namespace Fc

/-- The call. -/
def layer (e : Env) (L : Fc) : Eng TmErr := tmlFc e L.input L.out L.w L.b L.ws L.q

structure Plain (L : Fc) : Prop where
  w : L.w.region = .model
  b : L.b.region = .model
  ws : L.ws.region = .model
  apart : Apart L.input.data L.input.c L.out.data L.out.c

section Values

variable (e : Env) (L : Fc) (v : Nat → Byte)

/-- The weights of channel `c`. -/
def kernel (c : Nat) : Ptr := L.w.add (c * L.input.c : Nat)

def bias (c : Nat) : Int := e.i32 (L.b.add (4 * c : Nat))

/-- The sum of channel `c`. -/
def sum (c : Nat) : Int := e.dotWith v (L.kernel c) L.input.c + L.bias e c

/-- What becomes of a sum. -/
def requantised (n : Int) (s : F32) : Byte :=
  BitVec.ofInt 8 (e.fl.toI32 (e.fl.add (e.fl.div
    (e.fl.mul (e.fl.mul (e.fl.ofInt n) L.q.inS) s) L.q.outS) (e.fl.ofInt L.q.outZp)))

def output (c : Nat) : Byte := L.requantised e (L.sum e v c) (e.f32 L.ws)

/-- One channel. -/
def step (c : Nat) : Eng Unit := do
  let dot ← tmDotProd e L.input.data (L.kernel c) L.input.c
  let bias ← loadI32 e (L.b.add (4 * c : Nat))
  let s ← loadF32 e L.ws
  storeByte (L.out.data.add c) (L.requantised e (dot + bias) s)

/-- The layer up to the sum of channel `c`. -/
def untilSum (c : Nat) : Eng Unit := forN c fun c => L.step e c

end Values

section Specs

variable {e : Env} {L : Fc} {v : Nat → Byte} {c : Nat}

theorem layer_eq : L.layer e = do
    L.untilSum e L.out.c
    return .ok := rfl

/-- **The layer can be cut at every sum.** -/
theorem layer_cut (hc : c < L.out.c) :
    ∃ rest : Eng TmErr, L.layer e = L.untilSum e c >>= fun _ => L.step e c >>= fun _ => rest := by
  obtain ⟨k, hk⟩ : ∃ k, L.out.c = c + 1 + k := ⟨L.out.c - (c + 1), by omega⟩
  refine ⟨do
    forN k fun i => L.step e (c + 1 + i)
    return .ok, ?_⟩
  rw [layer_eq, untilSum, hk, forN, foldN_add, foldN_succ]
  simp only [bind_assoc]
  rfl

theorem step_ends (hp : L.Plain) (hc : c < L.out.c) :
    Ends (Writing L.input.data L.input.c v L.out.data (L.output e v) c) (L.step e c)
      fun _ => Writing L.input.data L.input.c v L.out.data (L.output e v) (c + 1) := by
  have dot : Ends (Writing L.input.data L.input.c v L.out.data (L.output e v) c)
      (tmDotProd e L.input.data (L.kernel c) L.input.c) fun a m =>
        a = e.dotWith v (L.kernel c) L.input.c ∧
          Writing L.input.data L.input.c v L.out.data (L.output e v) c m :=
    ((tmDotProd_reads e _ _ _).ends _).weaken fun a m hm =>
      ⟨hm.1.trans (dotAt_eq hp.w (Or.inl hp.apart.left) hm.2.input), hm.2⟩
  have bias := (loadI32_model (e := e) (p := L.b.add (4 * c : Nat)) hp.b).ends
    (Writing L.input.data L.input.c v L.out.data (L.output e v) c)
  have scale := (loadF32_model (e := e) (p := L.ws) hp.ws).ends
    (Writing L.input.data L.input.c v L.out.data (L.output e v) c)
  exact dot.bind_eq (bias.bind_eq (scale.bind_eq
    (storeByte_runs (Q := fun _ => Writing L.input.data L.input.c v L.out.data (L.output e v) (c + 1))
      fun m hm => hm.push hp.apart hc rfl).ends))

theorem untilSum_ends (hp : L.Plain) (hc : c ≤ L.out.c) :
    Ends (fun m => m.Holds L.input.data L.input.c v) (L.untilSum e c)
      fun _ => Writing L.input.data L.input.c v L.out.data (L.output e v) c :=
  (Ends.forN (J := Writing L.input.data L.input.c v L.out.data (L.output e v)) fun _ hk =>
    step_ends hp (hk.trans_le hc)).conseq
      (fun _ hm => ⟨hm, fun i hi => absurd hi (Nat.not_lt_zero i)⟩) fun _ _ h => h

theorem layer_ends (hp : L.Plain) :
    Ends (fun m => m.Holds L.input.data L.input.c v) (L.layer e) fun r m => r = .ok ∧
      m.Holds L.out.data L.out.c (L.output e v) := by
  rw [layer_eq]
  exact (untilSum_ends hp le_rfl).bind fun _ => Ends.pure fun m hm => ⟨rfl, hm.output⟩

end Specs

end Fc

/-! ### The average -/

/-- The operands of a call of `tml_gap`. -/
structure Gap where
  input : TmMat
  out : TmMat
  q : Quant
deriving DecidableEq, Repr

namespace Gap

/-- The call. -/
def layer (e : Env) (L : Gap) : Eng TmErr := tmlGap e L.input L.out L.q

structure Plain (L : Gap) : Prop where
  chans : L.input.c = L.out.c
  apart : Apart L.input.data L.input.size L.out.data L.out.c

section Values

variable (e : Env) (L : Gap) (v : Nat → Byte)

/-- Channel `c` of the pixel `(y, x)`. -/
def value (c y x : Nat) : Int := (v ((y * L.input.w + x) * L.out.c + c)).toInt

def rowSum (c y n : Nat) : Int := sumTo n (L.value v c y)

def sum (c n : Nat) : Int := sumTo n fun y => L.rowSum v c y L.input.w

/-- What becomes of a sum. -/
def requantised (n : Int) : Byte :=
  BitVec.ofInt 8 (e.fl.toI32 (e.fl.add (e.fl.div (e.fl.mul
    (e.fl.ofInt (Int.tdiv n (L.input.h * L.input.w : Nat) - L.q.inZp)) L.q.inS) L.q.outS)
    (e.fl.ofInt L.q.outZp)))

def output (c : Nat) : Byte := L.requantised e (L.sum v c L.input.h)

/-- The sum and the pointer, after `y` rows and `x` pixels. -/
def reached (c y x : Nat) : Int × Ptr :=
  (L.sum v c y + L.rowSum v c y x, gapPos L.input L.out.c c y x)

end Values

section Specs

variable {e : Env} {L : Gap} {v : Nat → Byte} {c : Nat} {P : Mem → Prop}

theorem reached_row (c y : Nat) : L.reached v c y L.input.w = L.reached v c (y + 1) 0 := by
  have hsum : L.sum v c y + L.rowSum v c y L.input.w = L.sum v c (y + 1) + L.rowSum v c (y + 1) 0 :=
    (Int.add_zero _).symm
  have hpos : gapPos L.input L.out.c c y L.input.w = gapPos L.input L.out.c c (y + 1) 0 := by
    rw [gapPos, gapPos, Nat.succ_mul, Nat.add_zero]
  rw [reached, reached, hsum, hpos]

/-- One pixel. -/
theorem pixel_ends (hp : L.Plain) (hc : c < L.out.c) {y x : Nat} (hy : y < L.input.h)
    (hx : x < L.input.w) (h : ∀ m, P m → m.Holds L.input.data L.input.size v) :
    Ends P (do
      let b ← loadI8 e (L.reached v c y x).2
      return ((L.reached v c y x).1 + b, (L.reached v c y x).2.add L.out.c))
      fun st m => st = L.reached v c y (x + 1) ∧ P m := by
  have hlt : (y * L.input.w + x) * L.out.c + c < L.input.size := by
    have hpix : y * L.input.w + x < L.input.h * L.input.w := by
      rw [Nat.mul_comm _ L.input.w]
      exact Nat.mul_add_lt_mul_of_lt_of_lt hy hx
    rw [TmMat.size, hp.chans, Nat.mul_comm _ L.out.c]
    exact Nat.mul_add_lt_mul_of_lt_of_lt hpix hc
  have hplace : (L.reached v c y x).2 =
      L.input.data.add ((y * L.input.w + x) * L.out.c + c : Nat) := by
    rw [reached, gapPos]
    push_cast
    rw [Int.add_comm]
  have hnext : gapPos L.input L.out.c c y (x + 1) =
      (gapPos L.input L.out.c c y x).add L.out.c := by
    rw [gapPos, gapPos, Ptr.add_add]
    push_cast
    ring_nf
  rw [hplace]
  refine (loadI8_ends e hp.apart.left hlt h).bind_eq (Ends.pure fun m hm => ⟨?_, hm⟩)
  rw [← hplace, reached, reached, hnext, Int.add_assoc]
  rfl

theorem sum_ends (hp : L.Plain) (hc : c < L.out.c)
    (h : ∀ m, P m → m.Holds L.input.data L.input.size v) :
    Ends P (foldN L.input.h ((0 : Int), L.input.data.add c) fun _ st =>
      foldN L.input.w st fun _ st => do
        let b ← loadI8 e st.2
        return (st.1 + b, st.2.add L.out.c))
      fun st m => st = L.reached v c L.input.h 0 ∧ P m := by
  have hstart : ((0 : Int), L.input.data.add c) = L.reached v c 0 0 := by
    rw [reached, gapPos, Nat.zero_mul, Nat.zero_mul, Int.natCast_zero, Int.add_zero]
    rfl
  rw [hstart]
  refine Ends.foldN_val (fun y => L.reached v c y 0) (J := fun _ => P) fun y hy => ?_
  rw [← reached_row]
  exact Ends.foldN_val (L.reached v c y) (J := fun _ => P) fun x hx => pixel_ends hp hc hy hx h

/-- **What the layer leaves.** -/
theorem layer_ends (hp : L.Plain) :
    Ends (fun m => m.Holds L.input.data L.input.size v) (L.layer e) fun r m => r = .ok ∧
      m.Holds L.out.data L.out.c (L.output e v) := by
  have chan : ∀ c < L.out.c,
      Ends (Writing L.input.data L.input.size v L.out.data (L.output e v) c) (do
        let st ← foldN L.input.h ((0 : Int), L.input.data.add c) fun _ st =>
          foldN L.input.w st fun _ st => do
            let b ← loadI8 e st.2
            return (st.1 + b, st.2.add L.out.c)
        storeByte (L.out.data.add c) (L.requantised e st.1))
        fun _ => Writing L.input.data L.input.size v L.out.data (L.output e v) (c + 1) := by
    intro c hc
    refine (sum_ends hp hc fun m hm => hm.input).bind_eq (storeByte_runs
      (Q := fun _ => Writing L.input.data L.input.size v L.out.data (L.output e v) (c + 1))
        fun m hm => hm.push hp.apart hc ?_).ends
    rw [reached, output]
    exact congrArg (L.requantised e) (Int.add_zero _)
  exact ((Ends.forN (J := Writing L.input.data L.input.size v L.out.data (L.output e v)) chan).conseq
    (fun _ hm => ⟨hm, fun i hi => absurd hi (Nat.not_lt_zero i)⟩) fun _ _ h => h).bind fun _ =>
      Ends.pure fun m hm => ⟨rfl, hm.output⟩

end Specs

end Gap

/-! ### The sum of two tensors -/

/-- The cells written one after the other at `q` are none of the `n` at `p` that are still to be
read. -/
structure Behind (p : Ptr) (n : Nat) (q : Ptr) : Prop where
  left : p.region = .main
  right : q.region = .main
  behind : q.off ≤ p.off ∨ p.off + n ≤ q.off

/-- The bytes at `p` from number `i` on are those of `v`. -/
def Mem.Unread (m : Mem) (p : Ptr) (i n : Nat) (v : Nat → Byte) : Prop :=
  ∀ j, i ≤ j → j < n → m.bytes p.region (p.off + j) = v j

theorem Mem.Unread.store {p q : Ptr} {n i : Nat} {v : Nat → Byte} {m : Mem} {b : Byte}
    (hb : Behind p n q) (h : m.Unread p i n v) :
    (m.setByte (q.add i) b).Unread p (i + 1) n v := by
  intro j hj hn
  refine (if_neg ?_).trans (h j (Nat.le_of_succ_le hj) hn)
  rintro ⟨-, hoff⟩
  have := hb.behind
  rw [Ptr.add_off] at hoff
  omega

/-- The next byte of an input that is written over. -/
theorem loadI8_unread (e : Env) {P : Mem → Prop} {p : Ptr} {n i : Nat} {v : Nat → Byte}
    (hp : p.region = .main) (hi : i < n) (h : ∀ m, P m → m.Unread p i n v) :
    Ends P (loadI8 e (p.add i)) fun a m => a = (v i).toInt ∧ P m := by
  have key := @loadI8_ends e P (p.add i) 1 0 (fun _ => v i) hp Nat.one_pos fun m hm j hj => by
    rw [Nat.lt_one_iff.mp hj]
    exact (congrArg (m.bytes p.region) (Int.add_zero _)).trans (h m hm i le_rfl hi)
  rwa [show (p.add i).add (0 : Nat) = p.add i from Ptr.add_zero _] at key

/-- The operands of a call of `tml_add`. -/
structure Addition where
  input : TmMat
  in1 : TmMat
  out : TmMat
  q : Quant
  inS1 : F32
  inZp1 : Int
deriving DecidableEq, Repr

namespace Addition

/-- The call. -/
def layer (e : Env) (L : Addition) : Eng TmErr :=
  tmlAdd e L.input L.in1 L.out L.q L.inS1 L.inZp1

/-- The output may lie over an input, as long as it is not ahead of it. -/
structure Plain (L : Addition) : Prop where
  first : Behind L.input.data L.input.size L.out.data
  second : Behind L.in1.data L.input.size L.out.data

section Values

variable (e : Env) (L : Addition) (v u : Nat → Byte)

def value (i : Nat) : Int :=
  tmQuant e.fl (e.fl.add (tmDequant e.fl (v i).toInt L.q.inS L.q.inZp)
    (tmDequant e.fl (u i).toInt L.inS1 L.inZp1)) L.q.outS L.q.outZp

def output (i : Nat) : Byte := BitVec.ofInt 8 (L.value e v u i)

/-- The first `i` outputs are written, and the inputs behind them still there. -/
structure Added (i : Nat) (m : Mem) : Prop where
  first : m.Unread L.input.data i L.input.size v
  second : m.Unread L.in1.data i L.input.size u
  output : m.Holds L.out.data i (L.output e v u)

end Values

section Specs

variable {e : Env} {L : Addition} {v u : Nat → Byte}

theorem elem_ends (hp : L.Plain) {i : Nat} (hi : i < L.input.size) :
    Ends (L.Added e v u i)
      (addElem e L.input.data L.in1.data L.out.data L.q L.inS1 L.inZp1 i)
      fun _ => L.Added e v u (i + 1) :=
  (loadI8_unread e hp.first.left hi fun _ hm => hm.first).bind_eq
    ((loadI8_unread e hp.second.left hi fun _ hm => hm.second).bind_eq
      (storeI8_runs (Q := fun _ => L.Added e v u (i + 1)) fun _ hm =>
        ⟨hm.first.store hp.first, hm.second.store hp.second, hm.output.push rfl⟩).ends)

/-- **What the layer leaves**, in its output or in the place of an input. -/
theorem layer_ends (hp : L.Plain) :
    Ends (fun m => m.Holds L.input.data L.input.size v ∧ m.Holds L.in1.data L.input.size u)
      (L.layer e) fun r m => r = .ok ∧ m.Holds L.out.data L.input.size (L.output e v u) := by
  have loop := Ends.forN (n := L.input.size) (J := L.Added e v u) fun i hi => elem_ends hp hi
  have start : ∀ m : Mem, m.Holds L.input.data L.input.size v ∧
      m.Holds L.in1.data L.input.size u → L.Added e v u 0 m := fun m hm =>
    ⟨fun j _ hj => hm.1 j hj, fun j _ hj => hm.2 j hj, fun i hi => absurd hi (Nat.not_lt_zero i)⟩
  simp only [layer, tmlAdd, ← bind_assoc]
  rw [forN_unrolled]
  exact (loop.conseq start fun _ _ h => h).bind fun _ => Ends.pure fun m hm => ⟨rfl, hm.output⟩

end Specs

end Addition

end TinyMaix
