import Pico2wTfm.Support.Ends
import Pico2wTfm.TinyMaix.Extents

/-!
# TinyMaix — ConvValues

What a convolution computes, when its windows are inside the input and its input and output apart
(`Conv.Plain`): the value of every output as a function of the input (`Conv.raw`), and what is in the
memory when the sum of a channel is about to be computed (`Conv.untilSum_ends`).
-/

namespace TinyMaix
open Bytes Footprint

/-! ### Tensors in memory -/

/-- The `n` bytes at `p` are `v`. -/
def Mem.Holds (m : Mem) (p : Ptr) (n : Nat) (v : Nat → Byte) : Prop :=
  ∀ i < n, m.bytes p.region (p.off + i) = v i

section Holds

variable {m : Mem} {p q : Ptr} {n k : Nat} {v v' : Nat → Byte} {b : Byte}

theorem Mem.Holds.mono (h : m.Holds p n v) (hk : k ≤ n) : m.Holds p k v :=
  fun i hi => h i (hi.trans_le hk)

theorem Mem.Holds.congr (h : m.Holds p n v) (hv : ∀ i < n, v i = v' i) : m.Holds p n v' :=
  fun i hi => (h i hi).trans (hv i hi)

/-- A store elsewhere. -/
theorem Mem.Holds.setByte (h : m.Holds p n v)
    (hq : q.region ≠ p.region ∨ q.off < p.off ∨ p.off + n ≤ q.off) :
    (m.setByte q b).Holds p n v := by
  intro i hi
  have hne : ¬(p.region = q.region ∧ p.off + i = q.off) := by
    rintro ⟨hr, ho⟩
    rcases hq with hq | hq | hq
    · exact hq hr.symm
    · omega
    · omega
  rw [Mem.setByte]
  exact (if_neg hne).trans (h i hi)

/-- A store at the end. -/
theorem Mem.Holds.push (h : m.Holds p n v) (hb : b = v n) :
    (m.setByte (p.add n) b).Holds p (n + 1) v := by
  intro i hi
  rcases Nat.lt_succ_iff_lt_or_eq.mp hi with hi | rfl
  · exact h.setByte (Or.inr (Or.inr le_rfl)) i hi
  · rw [Mem.setByte, hb]
    exact if_pos ⟨rfl, rfl⟩

/-- A byte of the main buffer or of a table. -/
theorem Env.byteAt_mem (e : Env) (hm : p.region ≠ .model) (hp : p.region ≠ .pic) :
    e.byteAt m p = m.bytes p.region p.off := by
  rw [Env.byteAt]
  split
  · rename_i h
    exact absurd h hm
  · rename_i h
    exact absurd h hp
  · rfl

end Holds

/-- The dot product of the bytes `v` and the weights at `k`. -/
def Env.dotWith (e : Env) (v : Nat → Byte) (k : Ptr) : Nat → Int
  | 0 => 0
  | n + 1 => e.dotWith v k n + (v n).toInt * (e.model (k.off + n)).toInt

theorem dotWith_congr {e : Env} {k : Ptr} {n : Nat} {v v' : Nat → Byte} (h : ∀ i < n, v i = v' i) :
    e.dotWith v k n = e.dotWith v' k n := by
  induction n with
  | zero => rfl
  | succ n ih =>
      rw [Env.dotWith, Env.dotWith, ih fun i hi => h i (Nat.lt_succ_of_lt hi),
        h n (Nat.lt_succ_self n)]

theorem dotAt_eq {e : Env} {m : Mem} {s k : Ptr} {v : Nat → Byte} {n : Nat}
    (hk : k.region = .model) (hs : s.region = .main ∨ s.region = .sbuf) (h : m.Holds s n v) :
    e.dotAt m s k n = e.dotWith v k n := by
  induction n with
  | zero => rfl
  | succ n ih =>
      have hbyte : e.byteAt m (s.add n) = v n := by
        have hne : s.region ≠ .model ∧ s.region ≠ .pic := by
          rcases hs with hs | hs
          · rw [hs]; decide
          · rw [hs]; decide
        rw [e.byteAt_mem (p := s.add n) hne.1 hne.2]
        exact h n (Nat.lt_succ_self n)
      have hweight : e.byteAt m (k.add n) = e.model (k.off + n) := by
        rw [Env.byteAt, Ptr.add_region, hk]
        rfl
      rw [Env.dotAt, Env.dotWith, ih (h.mono (Nat.le_succ n)), Env.i8At, Env.i8At, hbyte, hweight]

/-! ### A convolution -/

/-- The operands of a call of `tml_conv2d_dwconv2d`. -/
structure Conv where
  input : TmMat
  out : TmMat
  w : Ptr
  b : Ptr
  p : ConvParams
  ws : Ptr
  q : Quant
deriving DecidableEq, Repr

/-- The bytes of a tensor. -/
def TmMat.size (mat : TmMat) : Nat := mat.h * mat.w * mat.c

namespace Conv

/-- The call. -/
def layer (e : Env) (L : Conv) : Eng TmErr :=
  tmlConv2dDwconv2d e L.input L.out L.w L.b L.p L.ws L.q

/-- A convolution over windows inside its input, into a part of the main buffer that is apart from
the input. -/
structure Plain (L : Conv) : Prop where
  err : L.p.err = .ok
  maxk : L.p.maxk ≠ 1
  dmul : L.p.dmul = 0
  padTop : L.p.padTop = 0
  padLeft : L.p.padLeft = 0
  rows : ∀ y < L.out.h, L.p.sy * y + L.p.kh ≤ L.input.h
  cols : ∀ x < L.out.w, L.p.sx * x + L.p.kw ≤ L.input.w
  w : L.w.region = .model
  b : L.b.region = .model
  ws : L.ws.region = .model
  input : L.input.data.region = .main
  out : L.out.data.region = .main
  apart : L.input.data.off + L.input.size ≤ L.out.data.off ∨
    L.out.data.off + L.out.size ≤ L.input.data.off

section Values

variable (e : Env) (L : Conv) (v : Nat → Byte)

/-- The place in the input of tap `k` of channel `cc` for the pixel `(y, x)`. -/
def tapIndex (y x cc k : Nat) : Nat :=
  ((L.p.sy * y + k / L.p.kw) * L.input.w + (L.p.sx * x + k % L.p.kw)) * L.input.c + cc

/-- The window of the pixel `(y, x)`, as it is in `sbuf`. -/
def window (y x j : Nat) : Byte := v (L.tapIndex y x (j / L.p.maxk) (j % L.p.maxk))

/-- The weights of channel `c`. -/
def kernel (c : Nat) : Ptr := L.w.add (c * L.p.chi L.input * L.p.maxk : Nat)

/-- The dot product of channel `c` at the pixel `(y, x)`. -/
def sum (y x c : Nat) : Int :=
  e.dotWith (L.window v y x) (L.kernel c) (L.p.maxk * L.p.chi L.input)

def bias (c : Nat) : Int := e.i32 (L.b.add (4 * c : Nat))
def scale (c : Nat) : Int := sumscaleOf e.fl (e.f32 (L.ws.add (4 * c : Nat))) L.q.inS
def outscale : Int := outscaleOf e.fl L.q.outS

/-- The sum after the activation function. -/
def sumf (y x c : Nat) : Int :=
  applyAct L.p.act (scaleSum (L.sum e v y x c + L.bias e c) (L.scale e c))

/-- The value of channel `c` at the pixel `(y, x)`, before it is narrowed. -/
def raw (y x c : Nat) : Int := requant (L.sumf e v y x c) (L.outscale e) L.q.outZp

/-- The bytes of the output. -/
def output (j : Nat) : Byte :=
  BitVec.ofInt 8 (L.raw e v (j / L.out.c / L.out.w) (j / L.out.c % L.out.w) (j % L.out.c))

/-- The place of channel `c` of the pixel `(y, x)` in the output. -/
def outIndex (y x c : Nat) : Nat := (y * L.out.w + x) * L.out.c + c

variable {L} in
theorem output_outIndex {y x c : Nat} (hx : x < L.out.w) (hc : c < L.out.c) :
    L.output e v (L.outIndex y x c) = BitVec.ofInt 8 (L.raw e v y x c) := by
  have hcpos : 0 < L.out.c := Nat.zero_lt_of_lt hc
  have hwpos : 0 < L.out.w := Nat.zero_lt_of_lt hx
  have hdiv : L.outIndex y x c / L.out.c = y * L.out.w + x := by
    rw [outIndex, Nat.mul_comm, Nat.mul_add_div hcpos, Nat.div_eq_of_lt hc, Nat.add_zero]
  have hmod : L.outIndex y x c % L.out.c = c := by
    rw [outIndex, Nat.mul_comm, Nat.mul_add_mod, Nat.mod_eq_of_lt hc]
  rw [output, hdiv, hmod, Nat.mul_comm y, Nat.mul_add_div hwpos, Nat.div_eq_of_lt hx, Nat.add_zero,
    Nat.mul_add_mod, Nat.mod_eq_of_lt hx]

/-! ### What is kept from pixel to pixel -/

/-- The tables are filled, the input is there, and so are the first `n` bytes of the output. -/
structure Inv (n : Nat) (m : Mem) : Prop where
  table : KOftTable L.input L.p m
  scales : ∀ c < L.out.c, m.sumscale c = L.scale e c
  input : m.Holds L.input.data L.input.size v
  output : m.Holds L.out.data n (L.output e v)

end Values

section Specs

variable {e : Env} {L : Conv} {v : Nat → Byte} {y x c n : Nat}

theorem chi_eq (h : L.Plain) : L.p.chi L.input = L.input.c := by
  rw [ConvParams.chi, h.dmul]
  exact if_neg (not_not.mpr rfl)

theorem chans_eq (h : L.Plain) : L.p.chans L.input L.out = L.input.c := by
  rw [ConvParams.chans, h.dmul]
  exact if_neg (not_not.mpr rfl)

theorem chOft_eq (h : L.Plain) (cc : Nat) : L.p.chOft cc = cc := by
  rw [ConvParams.chOft, h.dmul]
  exact if_neg (not_not.mpr rfl)

/-- No window leaves the input. -/
theorem not_slow (h : L.Plain) (hy : y < L.out.h) (hx : x < L.out.w) :
    L.p.slow L.input (L.p.sy * y - L.p.padTop) (L.p.sx * x - L.p.padLeft) = false := by
  have hr := h.rows y hy
  have hc := h.cols x hx
  simp only [ConvParams.slow, h.padTop, h.padLeft, Bool.or_eq_false_iff, decide_eq_false_iff_not]
  push_cast
  omega

/-- The address of a tap. -/
theorem tap_address (h : L.Plain) (cc k : Nat) :
    (tmMatp L.input (L.p.sy * y - L.p.padTop) (L.p.sx * x - L.p.padLeft) 0).add
        (L.p.chOft cc + kOftAt L.input L.p k) = L.input.data.add (L.tapIndex y x cc k : Nat) := by
  rw [chOft_eq h, tmMatp, kOftAt, h.padTop, h.padLeft, tapIndex, Ptr.add_add]
  congr 1
  push_cast
  ring

/-- The taps of a window are inside the input. -/
theorem tapIndex_lt (h : L.Plain) (hy : y < L.out.h) (hx : x < L.out.w) {cc k : Nat}
    (hcc : cc < L.input.c) (hk : k < L.p.maxk) : L.tapIndex y x cc k < L.input.size := by
  have hkw : 0 < L.p.kw := Nat.pos_of_ne_zero fun h0 => by
    rw [ConvParams.maxk, h0, Nat.zero_mul] at hk
    exact Nat.not_lt_zero k hk
  have hrow : L.p.sy * y + k / L.p.kw < L.input.h := by
    have hdiv : k / L.p.kw < L.p.kh := Nat.div_lt_of_lt_mul hk
    have := h.rows y hy
    omega
  have hcol : L.p.sx * x + k % L.p.kw < L.input.w := by
    have hmod : k % L.p.kw < L.p.kw := Nat.mod_lt _ hkw
    have := h.cols x hx
    omega
  have hpix : (L.p.sy * y + k / L.p.kw) * L.input.w + (L.p.sx * x + k % L.p.kw) <
      L.input.h * L.input.w := by
    rw [Nat.mul_comm _ L.input.w]
    exact Nat.mul_add_lt_mul_of_lt_of_lt hrow hcol
  rw [tapIndex, TmMat.size, Nat.mul_comm _ L.input.c]
  exact Nat.mul_add_lt_mul_of_lt_of_lt hpix hcc

/-- A value is made of the input. -/
theorem raw_congr {v' : Nat → Byte} (h : L.Plain) (hy : y < L.out.h) (hx : x < L.out.w)
    (hv : ∀ i < L.input.size, v i = v' i) : L.raw e v y x c = L.raw e v' y x c := by
  have hsum : L.sum e v y x c = L.sum e v' y x c := by
    refine dotWith_congr fun j hj => hv _ ?_
    rw [chi_eq h] at hj
    have hpos : 0 < L.p.maxk := Nat.pos_of_ne_zero fun h0 => by
      rw [h0, Nat.zero_mul] at hj
      exact Nat.not_lt_zero j hj
    exact tapIndex_lt h hy hx (Nat.div_lt_of_lt_mul hj) (Nat.mod_lt j hpos)
  rw [raw, raw, sumf, sumf, hsum]

theorem outPos_eq (y x c : Nat) :
    (outPos L.out y x).add c = L.out.data.add (L.outIndex y x c : Nat) := by
  rw [outPos, outIndex, Ptr.add_add]
  congr 1

theorem outIndex_lt (hy : y < L.out.h) (hx : x < L.out.w) (hc : c < L.out.c) :
    L.outIndex y x c < L.out.size := by
  have hpix : y * L.out.w + x < L.out.h * L.out.w := by
    rw [Nat.mul_comm _ L.out.w]
    exact Nat.mul_add_lt_mul_of_lt_of_lt hy hx
  rw [outIndex, TmMat.size, Nat.mul_comm _ L.out.c]
  exact Nat.mul_add_lt_mul_of_lt_of_lt hpix hc

/-- What is kept does not depend on `sbuf`. -/
theorem Inv.setSbuf {m : Mem} (hp : L.Plain) (h : L.Inv e v n m) (j : Int) (b : Byte) :
    L.Inv e v n (m.setByte ⟨.sbuf, j⟩ b) := by
  refine ⟨h.table, h.scales, h.input.setByte (Or.inl ?_), h.output.setByte (Or.inl ?_)⟩
  · rw [hp.input]
    exact Region.noConfusion
  · rw [hp.out]
    exact Region.noConfusion

/-- The next byte of the output. -/
theorem Inv.push {m : Mem} (hp : L.Plain) (h : L.Inv e v n m) (hn : n < L.out.size) {b : Byte}
    (hb : b = L.output e v n) : L.Inv e v (n + 1) (m.setByte (L.out.data.add n) b) := by
  refine ⟨h.table, h.scales, h.input.setByte (Or.inr ?_), h.output.push hb⟩
  have := hp.apart
  rw [Ptr.add_off]
  omega

/-- The first `i` bytes of the window are in `sbuf`. -/
def Filling (e : Env) (L : Conv) (v : Nat → Byte) (y x n i : Nat) (m : Mem) : Prop :=
  L.Inv e v n m ∧ m.Holds ⟨.sbuf, 0⟩ i (L.window v y x)

/-- One tap. -/
theorem Filling.tap (hp : L.Plain) (hy : y < L.out.h) (hx : x < L.out.w) {cc k : Nat}
    (hcc : cc < L.input.c) (hk : k < L.p.maxk) {m : Mem}
    (hm : Filling e L v y x n (cc * L.p.maxk + k) m) :
    Filling e L v y x n (cc * L.p.maxk + k + 1)
      (m.setByte ⟨.sbuf, (cc * L.p.maxk : Nat) + (k : Int)⟩ (e.byteAt m
        ((tmMatp L.input (L.p.sy * y - L.p.padTop) (L.p.sx * x - L.p.padLeft) 0).add
          (L.p.chOft cc + kOftAt L.input L.p k)))) := by
  have hbyte : e.byteAt m (L.input.data.add (L.tapIndex y x cc k : Nat)) =
      L.window v y x (cc * L.p.maxk + k) := by
    have hdiv : (cc * L.p.maxk + k) / L.p.maxk = cc := by
      rw [Nat.mul_comm, Nat.mul_add_div (Nat.zero_lt_of_lt hk), Nat.div_eq_of_lt hk, Nat.add_zero]
    have hmod : (cc * L.p.maxk + k) % L.p.maxk = k := by
      rw [Nat.mul_comm, Nat.mul_add_mod, Nat.mod_eq_of_lt hk]
    rw [window, hdiv, hmod, e.byteAt_mem (p := L.input.data.add _)]
    · exact hm.1.input _ (tapIndex_lt hp hy hx hcc hk)
    · rw [Ptr.add_region, hp.input]
      decide
    · rw [Ptr.add_region, hp.input]
      decide
  have hplace : (⟨.sbuf, (cc * L.p.maxk : Nat) + (k : Int)⟩ : Ptr) =
      Ptr.add ⟨.sbuf, 0⟩ (cc * L.p.maxk + k : Nat) := by
    rw [Ptr.add, Int.zero_add]
    push_cast
    rfl
  refine ⟨hm.1.setSbuf hp _ _, ?_⟩
  rw [tap_address hp, hbyte, hplace]
  exact hm.2.push rfl

/-- **The window of a pixel gets into `sbuf`.** -/
theorem fillSbuf_ends (hp : L.Plain) (hy : y < L.out.h) (hx : x < L.out.w) :
    Ends (L.Inv e v n)
      (fillSbuf e L.input L.out L.p L.q.inZp (L.p.sy * y - L.p.padTop) (L.p.sx * x - L.p.padLeft))
      fun _ => Filling e L v y x n (L.p.maxk * L.p.chi L.input) := by
  have fill := (@fillValid_runs e L.input L.p (Filling e L v y x n)
    (tmMatp L.input (L.p.sy * y - L.p.padTop) (L.p.sx * x - L.p.padLeft) 0) L.input.c
    fun cc hcc k hk m hm => hm.tap hp hy hx hcc hk).ends
  rw [show fillSbuf e L.input L.out L.p L.q.inZp (L.p.sy * y - L.p.padTop)
    (L.p.sx * x - L.p.padLeft) = _ from if_neg (ne_true_of_eq_false (not_slow hp hy hx)),
    chans_eq hp, chi_eq hp]
  refine fill.conseq (fun m hm => ⟨hm.table, hm, fun i hi => absurd hi (Nat.not_lt_zero i)⟩)
    fun _ m hm => ?_
  rw [Nat.mul_comm]
  exact hm.2

/-! ### The sums of a pixel -/

/-- The first `c` channels of the pixel are in the output, its window in `sbuf`. -/
def Summing (e : Env) (L : Conv) (v : Nat → Byte) (y x c : Nat) : Mem → Prop :=
  Filling e L v y x (L.outIndex y x c) (L.p.maxk * L.p.chi L.input)

theorem sbufAt_eq (h : L.Plain) (c : Nat) : sbufAt L.p c = ⟨.sbuf, 0⟩ := by
  rw [sbufAt, h.dmul]
  rfl

/-- The value that the code stores for channel `c`. -/
theorem chanOut_eq (hp : L.Plain) (hc : c < L.out.c) {m : Mem} (hm : Summing e L v y x c m) :
    e.chanOut m L.input L.w L.b L.p (L.outscale e) L.q.outZp c = L.raw e v y x c := by
  have hdot := @dotAt_eq e m _ (L.kernel c) _ _ hp.w (Or.inr rfl) hm.2
  have hbias : toI32 (e.leAt m 4 ((L.b.add (4 * c : Nat)).add (4 * 0 : Nat))) = L.bias e c := by
    rw [show (((4 * 0 : Nat) : Nat) : Int) = 0 from rfl, Ptr.add_zero,
      leAt_model (p := L.b.add (4 * c : Nat)) hp.b]
    rfl
  have hscale : m.sumscale ((c : Nat) + (0 : Nat)) = L.scale e c := by
    rw [show ((c : Int) + ((0 : Nat) : Int)) = c from Int.add_zero _]
    exact hm.1.scales c hc
  rw [kernel] at hdot
  rw [Env.chanOut, Env.outAt, hbias, hscale, sbufAt_eq hp, hdot]
  rfl

/-- The first `n` sums of a pixel. -/
theorem sumChannels_ends (hp : L.Plain) (hy : y < L.out.h) (hx : x < L.out.w) (hn : n ≤ L.out.c) :
    Ends (Summing e L v y x 0)
      (sumChannels e L.input L.w L.b n L.p (L.outscale e) L.q.outZp (outPos L.out y x))
      fun st m => st.2 = (outPos L.out y x).add n ∧ Summing e L v y x n m := by
  refine (sumChannels_runs e (J := Summing e L v y x) fun c hc m hm => ?_).ends
  have hlt : c < L.out.c := hc.trans_le hn
  have hout : BitVec.ofInt 8 (e.chanOut m L.input L.w L.b L.p (L.outscale e) L.q.outZp c) =
      L.output e v (L.outIndex y x c) := by
    rw [chanOut_eq hp hlt hm, output_outIndex e v hx hlt]
  refine ⟨?_, hm.2.setByte (Or.inl ?_)⟩
  · rw [outPos_eq]
    exact hm.1.push hp (outIndex_lt hy hx hlt) hout
  · rw [outPos_eq, Ptr.add_region, hp.out]
    decide

/-! ### The layer -/

theorem outPos_succ (y x : Nat) : (outPos L.out y x).add L.out.c = outPos L.out y (x + 1) := by
  rw [outPos, outPos, Ptr.add_add]
  congr 1
  push_cast
  ring

theorem outPos_row (y : Nat) : outPos L.out y L.out.w = outPos L.out (y + 1) 0 := by
  rw [outPos, outPos, Nat.succ_mul, Nat.add_zero]

theorem outIndex_succ (y x : Nat) : L.outIndex y x L.out.c = L.outIndex y (x + 1) 0 := by
  rw [outIndex, outIndex, ← Nat.add_assoc, Nat.succ_mul, Nat.add_zero]

theorem outIndex_row (y : Nat) : L.outIndex y L.out.w 0 = L.outIndex (y + 1) 0 0 := by
  rw [outIndex, outIndex, Nat.succ_mul, Nat.add_zero (y * L.out.w + L.out.w)]

/-- The tables, before the first pixel. -/
def setup (e : Env) (L : Conv) : Eng Unit := do
  fillSumscale e L.out.c L.ws L.q.inS
  genKOft L.input L.p

/-- One pixel. -/
def pixel (e : Env) (L : Conv) (y x : Nat) (outp : Ptr) : Eng Ptr :=
  convPixel e L.input L.out L.w L.b L.p (L.outscale e) L.q y x outp

def row (e : Env) (L : Conv) (y n : Nat) (outp : Ptr) : Eng Ptr :=
  foldN n outp fun x outp => L.pixel e y x outp

def rows (e : Env) (L : Conv) (n : Nat) : Eng Ptr :=
  foldN n L.out.data fun y outp => L.row e y L.out.w outp

/-- The layer, once its checks are through. -/
theorem layer_eq (hp : L.Plain) : L.layer e = do
    L.setup e
    let _ ← L.rows e L.out.h
    return .ok := by
  rw [layer, tmlConv2dDwconv2d, if_neg (not_not.mpr hp.err), if_neg hp.maxk, setup, bind_assoc]
  rfl

theorem setup_ends (hp : L.Plain) :
    Ends (fun m => m.Holds L.input.data L.input.size v) (L.setup e) fun _ => L.Inv e v 0 := by
  have scales := (@fillSumscale_runs e
    (fun n m => m.Holds L.input.data L.input.size v ∧ ∀ c < n, m.sumscale c = L.scale e c)
    L.out.c L.ws L.q.inS
    fun c _ m hm => ⟨hm.1, fun k hk => by
      rcases Nat.lt_succ_iff_lt_or_eq.mp hk with hk | rfl
      · have hne : ¬((k : Int) = c) := fun h => absurd (by exact_mod_cast h) hk.ne
        exact (if_neg hne).trans (hm.2 k hk)
      · refine (if_pos rfl).trans ?_
        rw [leAt_model (p := L.ws.add (4 * k : Nat)) hp.ws]
        rfl⟩).ends
  have table := (@genKOft_runs L.input L.p
    (fun m => m.Holds L.input.data L.input.size v ∧ ∀ c < L.out.c, m.sumscale c = L.scale e c)
    fun m i w hm => hm).ends
  exact (scales.conseq (fun m hm => ⟨hm, fun c hc => absurd hc (Nat.not_lt_zero c)⟩)
    fun _ _ h => h).bind fun _ => table.weaken fun _ m hm =>
      ⟨hm.1, hm.2.2, hm.2.1, fun i hi => absurd hi (Nat.not_lt_zero i)⟩

theorem pixel_ends (hp : L.Plain) (hy : y < L.out.h) (hx : x < L.out.w) :
    Ends (L.Inv e v (L.outIndex y x 0)) (L.pixel e y x (outPos L.out y x)) fun outp m =>
      outp = outPos L.out y (x + 1) ∧ L.Inv e v (L.outIndex y (x + 1) 0) m := by
  refine (fillSbuf_ends hp hy hx).bind fun _ => (sumChannels_ends hp hy hx le_rfl).bind fun st =>
    Ends.pure fun m hm => ⟨hm.1.trans (outPos_succ y x), ?_⟩
  rw [← outIndex_succ]
  exact hm.2.1

theorem row_ends (hp : L.Plain) (hy : y < L.out.h) (hx : x ≤ L.out.w) :
    Ends (L.Inv e v (L.outIndex y 0 0)) (L.row e y x (outPos L.out y 0)) fun outp m =>
      outp = outPos L.out y x ∧ L.Inv e v (L.outIndex y x 0) m :=
  Ends.foldN_val (outPos L.out y) (J := fun x => L.Inv e v (L.outIndex y x 0)) fun _ hk =>
    pixel_ends hp hy (hk.trans_le hx)

theorem rows_ends (hp : L.Plain) (hy : y ≤ L.out.h) :
    Ends (L.Inv e v 0) (L.rows e y) fun outp m =>
      outp = outPos L.out y 0 ∧ L.Inv e v (L.outIndex y 0 0) m := by
  have h0 : outPos L.out 0 0 = L.out.data := by
    rw [outPos, Nat.zero_mul, Nat.add_zero, Nat.zero_mul]
    exact Ptr.add_zero _
  have hi : L.outIndex 0 0 0 = 0 := by
    rw [outIndex, Nat.zero_mul, Nat.add_zero, Nat.zero_mul]
  have key := Ends.foldN_val (fun y => outPos L.out y 0) (n := y)
    (J := fun y => L.Inv e v (L.outIndex y 0 0)) (f := fun y outp => L.row e y L.out.w outp)
    fun k hk => (row_ends hp (hk.trans_le hy) le_rfl).weaken fun outp m hm =>
      ⟨hm.1.trans (outPos_row k), outIndex_row (L := L) k ▸ hm.2⟩
  rwa [h0, hi] at key

/-- **What a convolution leaves**: its input, and the narrowed values of its output. -/
theorem layer_ends (hp : L.Plain) :
    Ends (fun m => m.Holds L.input.data L.input.size v) (L.layer e) fun r m => r = .ok ∧
      m.Holds L.input.data L.input.size v ∧ m.Holds L.out.data L.out.size (L.output e v) := by
  rw [layer_eq hp]
  refine (setup_ends hp).bind fun _ => (rows_ends hp le_rfl).bind fun _ => Ends.pure fun m hm =>
    ⟨rfl, hm.2.input, ?_⟩
  have hsize : L.outIndex L.out.h 0 0 = L.out.size := by
    rw [outIndex, Nat.add_zero, Nat.add_zero, TmMat.size]
  exact hsize ▸ hm.2.output

/-! ### In the middle of the layer -/

/-- The layer up to the sum of channel `c` of the pixel `(y, x)`. -/
def untilSum (e : Env) (L : Conv) (y x c : Nat) : Eng (Ptr × Ptr) := do
  L.setup e
  let outp ← L.rows e y
  let outp ← L.row e y x outp
  fillSbuf e L.input L.out L.p L.q.inZp (L.p.sy * y - L.p.padTop) (L.p.sx * x - L.p.padLeft)
  sumChannels e L.input L.w L.b c L.p (L.outscale e) L.q.outZp outp

/-- The sum of channel `c`, and the output that is made of it. -/
def sumStep (e : Env) (L : Conv) (c : Nat) (st : Ptr × Ptr) : Eng (Ptr × Ptr) := do
  let sum ← tmDotProd e st.1 (L.kernel c) (L.p.maxk * L.p.chi L.input)
  tmPostprocessSum e 1 (fun _ => sum) (L.b.add (4 * c : Nat)) L.p.act st.2 c (L.outscale e) L.q.outZp
  return (if L.p.dmul ≠ 0 then st.1.add L.p.maxk else st.1, st.2.add 1)

theorem untilSum_ends (hp : L.Plain) (hy : y < L.out.h) (hx : x < L.out.w) (hc : c ≤ L.out.c) :
    Ends (fun m => m.Holds L.input.data L.input.size v) (L.untilSum e y x c) fun st m =>
      st.2 = (outPos L.out y x).add c ∧ Summing e L v y x c m :=
  (setup_ends hp).bind fun _ => (rows_ends hp hy.le).bind_eq ((row_ends hp hy hx.le).bind_eq
    ((fillSbuf_ends hp hy hx).bind fun _ => sumChannels_ends hp hy hx hc))

theorem sumChannels_eq (hp : L.Plain) (n : Nat) (outp : Ptr) :
    sumChannels e L.input L.w L.b n L.p (L.outscale e) L.q.outZp outp =
      foldN n ((⟨.sbuf, 0⟩ : Ptr), outp) (L.sumStep e) :=
  if_neg fun h => h.2 hp.dmul

/-- **The layer can be cut at every sum.** -/
theorem layer_cut (hp : L.Plain) (hy : y < L.out.h) (hx : x < L.out.w) (hc : c < L.out.c) :
    ∃ rest : Ptr × Ptr → Eng TmErr,
      L.layer e = L.untilSum e y x c >>= fun st => L.sumStep e c st >>= rest := by
  obtain ⟨h, hh⟩ : ∃ h, L.out.h = y + 1 + h := ⟨L.out.h - (y + 1), by omega⟩
  obtain ⟨w, hw⟩ : ∃ w, L.out.w = x + 1 + w := ⟨L.out.w - (x + 1), by omega⟩
  obtain ⟨k, hk⟩ : ∃ k, L.out.c = c + 1 + k := ⟨L.out.c - (c + 1), by omega⟩
  refine ⟨fun st => do
    let st ← foldN k st fun i => L.sumStep e (c + 1 + i)
    let outp ← foldN w st.2 fun i => L.pixel e y (x + 1 + i)
    let _ ← foldN h outp fun i => L.row e (y + 1 + i) L.out.w
    return .ok, ?_⟩
  have hrows : L.rows e L.out.h = (do
      let outp ← L.rows e y
      let outp ← L.row e y L.out.w outp
      foldN h outp fun i => L.row e (y + 1 + i) L.out.w) := by
    rw [hh, rows, foldN_add, foldN_succ, bind_assoc]
    rfl
  have hrow : ∀ outp, L.row e y L.out.w outp = (do
      let outp ← L.row e y x outp
      let outp ← L.pixel e y x outp
      foldN w outp fun i => L.pixel e y (x + 1 + i)) := fun outp => by
    rw [hw, row, foldN_add, foldN_succ, bind_assoc]
    rfl
  have hpixel : ∀ outp, L.pixel e y x outp = (do
      fillSbuf e L.input L.out L.p L.q.inZp (L.p.sy * y - L.p.padTop) (L.p.sx * x - L.p.padLeft)
      let st ← sumChannels e L.input L.w L.b c L.p (L.outscale e) L.q.outZp outp
      let st ← L.sumStep e c st
      let st ← foldN k st fun i => L.sumStep e (c + 1 + i)
      return st.2) := fun outp => by
    rw [pixel, convPixel, sumChannels_eq hp, sumChannels_eq hp, hk, foldN_add, foldN_succ]
    simp only [bind_assoc]
  rw [layer_eq hp, hrows, untilSum]
  simp only [hrow, hpixel, bind_assoc, pure_bind]

end Specs

end Conv

end TinyMaix
