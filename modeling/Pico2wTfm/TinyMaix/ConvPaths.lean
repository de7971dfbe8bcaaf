import Pico2wTfm.Support.Convolution
import Pico2wTfm.TinyMaix.LayerValues

/-!
# TinyMaix — ConvPaths

The paths through `tml_conv2d_dwconv2d`: one tap or more, windows inside the input or over its border,
a kernel for each channel or one over all of them, two output channels at a time, nine products
written out.  All of them compute one thing, the convolution of the padded input with the kernel of
the output channel (`Conv.conv`), requantised.

* `Conv.paths_agree`: what a convolution leaves, on every path, when its taps stay inside the scratch
  tables and its output is apart from its input.

The padding is the zero point of the input, narrowed to a byte as `memset` narrows it.
-/

namespace TinyMaix
open Bytes Footprint Convolution

namespace Conv

/-! ### The convolution -/

/-- What the layer has to be for its accesses to be meaningful: the checks pass, the parameters are in
the model, there is an input channel for every output channel, a single tap is inside the input, and
the scratch tables are long enough.  That no `sumscale` is 0 and the sums fit an `int32_t` is left to
`Safe`. -/
structure Sound (L : Conv) : Prop where
  err : L.p.err = .ok
  dmul : 0 ≤ L.p.dmul
  depth : L.p.dmul ≠ 0 → ∀ c < L.out.c, c / L.p.dmul.toNat < L.input.c
  rows : L.p.maxk = 1 → ∀ y < L.out.h, L.p.sy * y < L.input.h
  cols : L.p.maxk = 1 → ∀ x < L.out.w, L.p.sx * x < L.input.w
  scales : L.out.c ≤ tmMaxCsize
  taps : L.p.chans L.input L.out * L.p.maxk ≤ tmMaxKcsize
  w : L.w.region = .model
  b : L.b.region = .model
  ws : L.ws.region = .model
  apart : Apart L.input.data L.input.size L.out.data L.out.size

/-- A convolution without padding, over all channels. -/
theorem Plain.sound {L : Conv} (hp : L.Plain) (hscales : L.out.c ≤ tmMaxCsize)
    (htaps : L.p.chans L.input L.out * L.p.maxk ≤ tmMaxKcsize) : L.Sound where
  err := hp.err
  dmul := hp.dmul.ge
  depth h := absurd hp.dmul h
  rows h := absurd h hp.maxk
  cols h := absurd h hp.maxk
  scales := hscales
  taps := htaps
  w := hp.w
  b := hp.b
  ws := hp.ws
  apart := ⟨hp.input, hp.out, hp.apart⟩

section Values

variable (e : Env) (L : Conv) (v : Nat → Byte)

/-- The input channel behind channel `q` of a window. -/
def chan (q : Nat) : Nat := if L.p.dmul ≠ 0 then q / L.p.dmul.toNat else q

/-- The byte of channel `c` at the pixel `(y, x)` of the input. -/
def pixelOf (y x c : Nat) : Byte := v ((y * L.input.w + x) * L.input.c + c)

/-- The input with its padding, as bytes. -/
def image : ℤ → ℤ → ℕ → Byte :=
  padded L.input.h L.input.w (BitVec.ofInt 8 L.q.inZp) (L.pixelOf v)

/-- The first row and column of a window. -/
def top (y : Nat) : ℤ := (L.p.sy * y : Int) - L.p.padTop
def left (x : Nat) : ℤ := (L.p.sx * x : Int) - L.p.padLeft

/-- Tap `k` of channel `q` of the window of the pixel `(y, x)`. -/
def tap (y x q k : Nat) : Byte :=
  L.image v (L.top y + (k / L.p.kw : Nat)) (L.left x + (k % L.p.kw : Nat)) (L.chan q)

/-- The window of the pixel, as it is in `sbuf`. -/
def patch (y x j : Nat) : Byte := L.tap v y x (j / L.p.maxk) (j % L.p.maxk)

/-- Weight `(i, j)` of channel `cc` of the kernel of `c`. -/
def weight (c cc i j : Nat) : Int :=
  (e.model ((L.kernel c).off + (cc * L.p.maxk + (i * L.p.kw + j) : Nat))).toInt

/-- The channel of the window that is channel `cc` of the kernel of `c`. -/
def seen (c cc : Nat) : Nat := if L.p.dmul ≠ 0 then c else cc

/-- **The convolution** for channel `c` at the pixel `(y, x)`. -/
def conv (y x c : Nat) : Int :=
  Convolution.conv (L.p.chi L.input) L.p.kh L.p.kw
    (fun i j cc => padded L.input.h L.input.w (BitVec.ofInt 8 L.q.inZp).toInt
      (fun y x c => (L.pixelOf v y x c).toInt) i j (L.chan (L.seen c cc)))
    (L.weight e c) (L.top y) (L.left x)

/-- The value of channel `c` at the pixel `(y, x)`, before it is narrowed. -/
def value (y x c : Nat) : Int :=
  requant (applyAct L.p.act (scaleSum (L.conv e v y x c + L.bias e c) (L.scale e c)))
    (L.outscale e) L.q.outZp

/-- The bytes of the output. -/
def result (j : Nat) : Byte :=
  BitVec.ofInt 8 (L.value e v (j / L.out.c / L.out.w) (j / L.out.c % L.out.w) (j % L.out.c))

end Values

section Specs

variable {e : Env} {L : Conv} {v : Nat → Byte} {y x c n q k : Nat}

/-- A dot product is a sum. -/
theorem dotWith_eq_sum (u : Nat → Byte) (p : Ptr) (n : Nat) : e.dotWith u p n =
    ∑ j ∈ Finset.range n, (u j).toInt * (e.model (p.off + j)).toInt := by
  induction n with
  | zero => rfl
  | succ n ih => rw [Env.dotWith, ih, Finset.sum_range_succ]

/-- **The sum over the taps in their order is the convolution.** -/
theorem dotWith_patch : e.dotWith (fun j => L.tap v y x (L.seen c (j / L.p.maxk)) (j % L.p.maxk))
    (L.kernel c) (L.p.maxk * L.p.chi L.input) = L.conv e v y x c := by
  have hmaxk : L.p.maxk = L.p.kh * L.p.kw := Nat.mul_comm _ _
  rw [dotWith_eq_sum, conv, conv_eq_sum_taps, Nat.mul_comm, hmaxk]
  refine Finset.sum_congr rfl fun t _ => ?_
  have hplace : t / (L.p.kh * L.p.kw) * L.p.maxk +
      (t % (L.p.kh * L.p.kw) / L.p.kw * L.p.kw + t % (L.p.kh * L.p.kw) % L.p.kw) = t := by
    rw [Nat.div_add_mod', hmaxk, Nat.div_add_mod']
  rw [weight, hplace, tap, image, map_padded BitVec.toInt]

/-- The input channel of a window. -/
theorem chOft_eq_chan (hs : L.Sound) (q : Nat) : L.p.chOft q = L.chan q := by
  rw [ConvParams.chOft, chan]
  split
  · rw [Int.natCast_ediv, Int.toNat_of_nonneg hs.dmul]
    exact Int.tdiv_eq_ediv_of_nonneg (Int.natCast_nonneg q)
  · rfl

theorem chan_lt (hs : L.Sound) (hq : q < L.p.chans L.input L.out) : L.chan q < L.input.c := by
  rw [ConvParams.chans] at hq
  rw [chan]
  split
  · rename_i hd
    rw [if_pos hd] at hq
    exact hs.depth hd q hq
  · rename_i hd
    rwa [if_neg hd] at hq

/-- The address of a tap. -/
theorem tap_place (hs : L.Sound) (q k : Nat) :
    (tmMatp L.input (L.top y) (L.left x) 0).add (L.p.chOft q + kOftAt L.input L.p k) =
      L.input.data.add (((L.top y + (k / L.p.kw : Nat)) * L.input.w +
        (L.left x + (k % L.p.kw : Nat))) * L.input.c + L.chan q) := by
  rw [chOft_eq_chan hs, tmMatp, kOftAt, Ptr.add_add]
  congr 1
  push_cast
  ring

/-- The tap is one of the input. -/
def InImage (L : Conv) (y x k : Nat) : Prop :=
  0 ≤ L.top y + (k / L.p.kw : Nat) ∧ L.top y + (k / L.p.kw : Nat) < L.input.h ∧
    0 ≤ L.left x + (k % L.p.kw : Nat) ∧ L.left x + (k % L.p.kw : Nat) < L.input.w

theorem pixel_lt (hy : y < L.input.h) (hx : x < L.input.w) (hc : c < L.input.c) :
    (y * L.input.w + x) * L.input.c + c < L.input.size := by
  have hpix : y * L.input.w + x < L.input.h * L.input.w := by
    rw [Nat.mul_comm _ L.input.w]
    exact Nat.mul_add_lt_mul_of_lt_of_lt hy hx
  rw [TmMat.size, Nat.mul_comm _ L.input.c]
  exact Nat.mul_add_lt_mul_of_lt_of_lt hpix hc

/-- A pixel of the input is in the memory. -/
theorem pixelOf_eq {m : Mem} (hs : L.Sound) (hm : m.Holds L.input.data L.input.size v)
    (hy : y < L.input.h) (hx : x < L.input.w) (hc : c < L.input.c) :
    e.byteAt m (L.input.data.add ((y * L.input.w + x) * L.input.c + c : Nat)) =
      L.pixelOf v y x c := by
  rw [e.byteAt_mem (p := L.input.data.add _)]
  · exact hm _ (pixel_lt hy hx hc)
  · rw [Ptr.add_region, hs.apart.left]
    decide
  · rw [Ptr.add_region, hs.apart.left]
    decide

/-- A tap inside the input is copied. -/
theorem tap_inside {m : Mem} (hs : L.Sound) (hm : m.Holds L.input.data L.input.size v)
    (hq : q < L.p.chans L.input L.out) (hk : L.InImage y x k) :
    e.byteAt m ((tmMatp L.input (L.top y) (L.left x) 0).add
      (L.p.chOft q + kOftAt L.input L.p k)) = L.tap v y x q k := by
  obtain ⟨h₁, h₂, h₃, h₄⟩ := hk
  have hrow := Int.toNat_of_nonneg h₁
  have hcol := Int.toNat_of_nonneg h₃
  rw [tap, image, padded, if_pos ⟨h₁, h₂, h₃, h₄⟩,
    ← pixelOf_eq hs hm (by omega) (by omega) (chan_lt hs hq), tap_place hs]
  congr 2
  rw [Nat.cast_add, Nat.cast_mul, Nat.cast_add, Nat.cast_mul, hrow, hcol]

/-- A tap outside is padding. -/
theorem tap_outside (hk : ¬L.InImage y x k) : L.tap v y x q k = BitVec.ofInt 8 L.q.inZp :=
  if_neg hk

/-! ### What is kept from pixel to pixel -/

/-- The scales are in their table, the input is there, and so are the first `n` bytes of the
output. -/
structure Kept (e : Env) (L : Conv) (v : Nat → Byte) (n : Nat) (m : Mem) : Prop where
  scales : ∀ c < L.out.c, m.sumscale c = L.scale e c
  input : m.Holds L.input.data L.input.size v
  output : m.Holds L.out.data n (L.result e v)

theorem result_outIndex (hx : x < L.out.w) (hc : c < L.out.c) :
    L.result e v (L.outIndex y x c) = BitVec.ofInt 8 (L.value e v y x c) := by
  rw [result, outIndex, div_row hc, mod_row hc, div_row hx, mod_row hx]

theorem Kept.setSbuf {m : Mem} (hs : L.Sound) (h : L.Kept e v n m) (j : Int) (b : Byte) :
    L.Kept e v n (m.setByte ⟨.sbuf, j⟩ b) := by
  refine ⟨h.scales, h.input.setByte (Or.inl ?_), h.output.setByte (Or.inl ?_)⟩
  · rw [hs.apart.left]
    exact Region.noConfusion
  · rw [hs.apart.right]
    exact Region.noConfusion

/-- The next byte of the output. -/
theorem Kept.push {m : Mem} (hs : L.Sound) (h : L.Kept e v n m) (hn : n < L.out.size) {b : Byte}
    (hb : b = L.result e v n) : L.Kept e v (n + 1) (m.setByte (L.out.data.add n) b) := by
  refine ⟨h.scales, h.input.setByte (Or.inr ?_), h.output.push hb⟩
  have := hs.apart.apart
  rw [Ptr.add_off]
  omega

/-! ### The window of a pixel -/

/-- Where tap `k` of channel `q` of a window is. -/
theorem patch_tap (hk : k < L.p.maxk) : L.patch v y x (q * L.p.maxk + k) = L.tap v y x q k := by
  rw [patch, div_row hk, mod_row hk]

theorem sbuf_place (q k : Nat) : (⟨.sbuf, (q * L.p.maxk : Nat) + (k : Int)⟩ : Ptr) =
    Ptr.add ⟨.sbuf, 0⟩ (q * L.p.maxk + k : Nat) := by
  rw [Ptr.add, Int.zero_add]
  push_cast
  rfl

/-- A window inside the input has its taps there. -/
theorem inside_of_not_slow (hk : k < L.p.maxk)
    (hslow : L.p.slow L.input (L.top y) (L.left x) = false) : L.InImage y x k := by
  have hkw : 0 < L.p.kw := Nat.pos_of_ne_zero fun h0 => by
    rw [ConvParams.maxk, h0, Nat.zero_mul] at hk
    exact Nat.not_lt_zero k hk
  have hdiv : k / L.p.kw < L.p.kh := Nat.div_lt_of_lt_mul hk
  have hmod : k % L.p.kw < L.p.kw := Nat.mod_lt _ hkw
  simp only [ConvParams.slow, Bool.or_eq_false_iff, decide_eq_false_iff_not] at hslow
  obtain ⟨⟨⟨h₁, h₂⟩, h₃⟩, h₄⟩ := hslow
  rw [InImage]
  generalize k / L.p.kw = i at hdiv ⊢
  generalize k % L.p.kw = j at hmod ⊢
  omega

/-- The valid part of `sbuf`: every tap is copied. -/
theorem fillValid_ends (hs : L.Sound) (hslow : L.p.slow L.input (L.top y) (L.left x) = false) :
    Ends (fun m => KOftTable L.input L.p m ∧ L.Kept e v n m)
      (fillValid e (tmMatp L.input (L.top y) (L.left x) 0) (L.p.chans L.input L.out) L.p)
      fun _ m => (KOftTable L.input L.p m ∧ L.Kept e v n m) ∧
        m.Holds ⟨.sbuf, 0⟩ (L.p.chans L.input L.out * L.p.maxk) (L.patch v y x) := by
  have fill := (@fillValid_runs e L.input L.p
    (fun i m => L.Kept e v n m ∧ m.Holds ⟨.sbuf, 0⟩ i (L.patch v y x))
    (tmMatp L.input (L.top y) (L.left x) 0) (L.p.chans L.input L.out)
    fun q hq k hk m hm => ⟨hm.1.setSbuf hs _ _, by
      rw [sbuf_place, tap_inside hs hm.1.input hq (inside_of_not_slow hk hslow)]
      exact hm.2.push (patch_tap hk).symm⟩).ends
  exact fill.conseq (fun m hm => ⟨hm.1, hm.2, fun i hi => absurd hi (Nat.not_lt_zero i)⟩)
    fun _ m hm => ⟨⟨hm.1, hm.2.1⟩, hm.2.2⟩

/-! ### A window over the border -/

/-- The taps in `T` are copied, and those outside of the input are padding already. -/
structure Padding (e : Env) (L : Conv) (v : Nat → Byte) (y x n : Nat) (T : Nat → Nat → Prop)
    (m : Mem) : Prop where
  table : KOftTable L.input L.p m
  kept : L.Kept e v n m
  taps : ∀ q < L.p.chans L.input L.out, ∀ k < L.p.maxk, T q k ∨ ¬L.InImage y x k →
    m.bytes .sbuf ((q * L.p.maxk + k : Nat) : Int) = L.tap v y x q k

section Padding

variable {T T' : Nat → Nat → Prop} {m : Mem}

/-- Taps outside of the input need no copy. -/
theorem Padding.skip (h : Padding e L v y x n T m)
    (hskip : ∀ q, ∀ k < L.p.maxk, T' q k → L.InImage y x k → T q k) :
    Padding e L v y x n T' m := by
  refine ⟨h.table, h.kept, fun q hq k hk hT => h.taps q hq k hk ?_⟩
  by_cases hin : L.InImage y x k
  · exact Or.inl (hskip q k hk (hT.resolve_right (not_not.mpr hin)) hin)
  · exact Or.inr hin

/-- One tap is copied. -/
theorem Padding.tap (hs : L.Sound) (hq : q < L.p.chans L.input L.out) (hk : k < L.p.maxk)
    (hin : L.InImage y x k) (h : Padding e L v y x n T m) :
    Padding e L v y x n (fun q' k' => T q' k' ∨ q' = q ∧ k' = k)
      (m.setByte ⟨.sbuf, (q * L.p.maxk : Nat) + (k : Int)⟩ (e.byteAt m
        ((tmMatp L.input (L.top y) (L.left x) 0).add
          (L.p.chOft q + kOftAt L.input L.p k)))) := by
  refine ⟨h.table, h.kept.setSbuf hs _ _, fun q' hq' k' hk' hT => ?_⟩
  rw [tap_inside hs h.kept.input hq hin, Mem.setByte]
  by_cases heq : q' * L.p.maxk + k' = q * L.p.maxk + k
  · obtain rfl : q' = q := by rw [← div_row (i := q') hk', heq, div_row hk]
    obtain rfl : k' = k := Nat.add_left_cancel heq
    exact if_pos ⟨rfl, Nat.cast_add _ _⟩
  · refine (if_neg fun hplace => heq ?_).trans (h.taps q' hq' k' hk' ?_)
    · exact_mod_cast hplace.2.trans (Nat.cast_add _ _).symm
    · rcases hT with (hT | ⟨rfl, rfl⟩) | hout
      · exact Or.inl hT
      · exact absurd rfl heq
      · exact Or.inr hout

end Padding

theorem memsetSbuf_ends (hs : L.Sound) :
    Ends (fun m => KOftTable L.input L.p m ∧ L.Kept e v n m)
      (memsetSbuf L.q.inZp (L.p.chans L.input L.out * L.p.maxk))
      fun _ => Padding e L v y x n fun _ _ => False := by
  have key := Ends.forN (n := L.p.chans L.input L.out * L.p.maxk)
    (f := fun i => storeByte ⟨.sbuf, i⟩ (BitVec.ofInt 8 L.q.inZp))
    (J := fun i m => (KOftTable L.input L.p m ∧ L.Kept e v n m) ∧
      m.Holds ⟨.sbuf, 0⟩ i fun _ => BitVec.ofInt 8 L.q.inZp) fun i _ =>
    (storeByte_runs (Q := fun _ m => (KOftTable L.input L.p m ∧ L.Kept e v n m) ∧
      m.Holds ⟨.sbuf, 0⟩ (i + 1) fun _ => BitVec.ofInt 8 L.q.inZp) fun m hm =>
        ⟨⟨hm.1.1, hm.1.2.setSbuf hs _ _⟩, by
          have hplace : (⟨.sbuf, (i : Int)⟩ : Ptr) = Ptr.add ⟨.sbuf, 0⟩ i := by
            rw [Ptr.add, Int.zero_add]
          rw [hplace]
          exact hm.2.push rfl⟩).ends
  refine key.conseq (fun m hm => ⟨hm, fun i hi => absurd hi (Nat.not_lt_zero i)⟩) fun _ m hm =>
    ⟨hm.1.1, hm.1.2, fun q hq k hk hT => ?_⟩
  have hin : q * L.p.maxk + k < L.p.chans L.input L.out * L.p.maxk := by
    rw [Nat.mul_comm q]
    exact Nat.mul_add_lt_mul_of_lt_of_lt hq hk
  have hbyte := hm.2 _ hin
  rw [Int.zero_add] at hbyte
  rw [hbyte, tap_outside (hT.resolve_left id)]

/-- The rows or columns of a kernel that are copied are those inside the input. -/
theorem tap_range {src : Int} {size k r : Nat} (hr : r < k) :
    (tapLo src ≤ r ∧ r < tapLo src + (tapHi src size k - tapLo src).toNat) ↔
      0 ≤ src + r ∧ src + r < size := by
  rw [tapLo, tapHi]
  split
  · split
    · omega
    · omega
  · split
    · omega
    · omega

/-- Row `j` and column `i` of the part of the kernel that is inside the input. -/
def rowOf (L : Conv) (y j : Nat) : Nat := tapLo (L.top y) + j
def colOf (L : Conv) (x i : Nat) : Nat := tapLo (L.left x) + i

/-- How many of them there are. -/
def rowsIn (L : Conv) (y : Nat) : Nat := (tapHi (L.top y) L.input.h L.p.kh - tapLo (L.top y)).toNat
def colsIn (L : Conv) (x : Nat) : Nat := (tapHi (L.left x) L.input.w L.p.kw - tapLo (L.left x)).toNat

theorem inside_iff (hk : k < L.p.maxk) : L.InImage y x k ↔
    (L.rowOf y 0 ≤ k / L.p.kw ∧ k / L.p.kw < L.rowOf y (L.rowsIn y)) ∧
      L.colOf x 0 ≤ k % L.p.kw ∧ k % L.p.kw < L.colOf x (L.colsIn x) := by
  have hkw : 0 < L.p.kw := Nat.pos_of_ne_zero fun h0 => by
    rw [ConvParams.maxk, h0, Nat.zero_mul] at hk
    exact Nat.not_lt_zero k hk
  rw [InImage, rowOf, rowOf, colOf, colOf, Nat.add_zero, Nat.add_zero, rowsIn, colsIn,
    tap_range (Nat.div_lt_of_lt_mul hk), tap_range (Nat.mod_lt _ hkw), and_assoc]

/-- The taps that are copied before row `j` and column `i` of channel `q`. -/
def Before (L : Conv) (y x q j i q' k : Nat) : Prop :=
  q' < q ∨ q' = q ∧ (k / L.p.kw < L.rowOf y j ∨ k / L.p.kw = L.rowOf y j ∧
    k % L.p.kw < L.colOf x i)

section Border

variable {i j : Nat}

/-- A row and a column inside the input are a tap of the kernel. -/
theorem tap_number (hj : j < L.rowsIn y) (hi : i < L.colsIn x) :
    L.rowOf y j * L.p.kw + L.colOf x i < L.p.maxk ∧
      (L.rowOf y j * L.p.kw + L.colOf x i) / L.p.kw = L.rowOf y j ∧
      (L.rowOf y j * L.p.kw + L.colOf x i) % L.p.kw = L.colOf x i := by
  have hrow : L.rowOf y j < L.p.kh := tap_lt hj
  have hcol : L.colOf x i < L.p.kw := tap_lt hi
  refine ⟨?_, div_row hcol, mod_row hcol⟩
  rw [ConvParams.maxk, Nat.mul_comm (L.rowOf y j)]
  exact Nat.mul_add_lt_mul_of_lt_of_lt hrow hcol |>.trans_eq (Nat.mul_comm _ _)

theorem copyTap_ends (hs : L.Sound) (hq : q < L.p.chans L.input L.out) (hj : j < L.rowsIn y)
    (hi : i < L.colsIn x) :
    Ends (Padding e L v y x n (L.Before y x q j i))
      (copyTap e ((tmMatp L.input (L.top y) (L.left x) 0).add (L.p.chOft q)) (q * L.p.maxk : Nat)
        (L.rowOf y j * L.p.kw + L.colOf x i))
      fun _ => Padding e L v y x n (L.Before y x q j (i + 1)) := by
  obtain ⟨hk, hdiv, hmod⟩ := tap_number hj hi
  have hin : L.InImage y x (L.rowOf y j * L.p.kw + L.colOf x i) := by
    rw [inside_iff hk, hdiv, hmod]
    simp only [rowOf, colOf]
    omega
  refine (copyTap_runs e (Q := fun _ => Padding e L v y x n (L.Before y x q j (i + 1)))
    (fun m hm => hm.table _ hk) fun m hm => (hm.tap hs hq hk hin).skip ?_).ends
  -- the only new tap is the one that was copied
  intro q' k' _ hb _
  rcases hb with hlt | ⟨rfl, hlt | ⟨hr, hc⟩⟩
  · exact Or.inl (Or.inl hlt)
  · exact Or.inl (Or.inr ⟨rfl, Or.inl hlt⟩)
  · rcases Nat.lt_succ_iff_lt_or_eq.mp (show k' % L.p.kw < L.colOf x i + 1 from hc) with hc | hc
    · exact Or.inl (Or.inr ⟨rfl, Or.inr ⟨hr, hc⟩⟩)
    · exact Or.inr ⟨rfl, by rw [← hr, ← hc, Nat.div_add_mod']⟩

/-- One row of taps. -/
theorem padRow_ends (hs : L.Sound) (hq : q < L.p.chans L.input L.out) (hj : j < L.rowsIn y) :
    Ends (Padding e L v y x n (L.Before y x q j 0))
      (forN (L.colsIn x) fun i =>
        copyTap e ((tmMatp L.input (L.top y) (L.left x) 0).add (L.p.chOft q)) (q * L.p.maxk : Nat)
          (L.rowOf y j * L.p.kw + L.colOf x i))
      fun _ => Padding e L v y x n (L.Before y x q (j + 1) 0) := by
  refine (Ends.forN (J := fun i => Padding e L v y x n (L.Before y x q j i)) fun i hi =>
    copyTap_ends hs hq hj hi).weaken fun _ m hm => hm.skip ?_
  intro q' k' hk' hb hin
  have hin := (inside_iff hk').mp hin
  rcases hb with hlt | ⟨rfl, hlt | ⟨hr, hc⟩⟩
  · exact Or.inl hlt
  · rcases Nat.lt_succ_iff_lt_or_eq.mp (show k' / L.p.kw < L.rowOf y j + 1 from hlt) with hr | hr
    · exact Or.inr ⟨rfl, Or.inl hr⟩
    · exact Or.inr ⟨rfl, Or.inr ⟨hr, hin.2.2⟩⟩
  · exact absurd hin.2.1 (Nat.not_le.mpr hc)

/-- One channel. -/
theorem padChan_ends (hs : L.Sound) (hq : q < L.p.chans L.input L.out) :
    Ends (Padding e L v y x n (L.Before y x q 0 0))
      (forN (L.rowsIn y) fun j => forN (L.colsIn x) fun i =>
        copyTap e ((tmMatp L.input (L.top y) (L.left x) 0).add (L.p.chOft q)) (q * L.p.maxk : Nat)
          (L.rowOf y j * L.p.kw + L.colOf x i))
      fun _ => Padding e L v y x n (L.Before y x (q + 1) 0 0) := by
  refine (Ends.forN (J := fun j => Padding e L v y x n (L.Before y x q j 0)) fun j hj =>
    padRow_ends hs hq hj).weaken fun _ m hm => hm.skip ?_
  intro q' k' hk' hb hin
  have hin := (inside_iff hk').mp hin
  rcases hb with hlt | ⟨rfl, hlt | ⟨hr, hc⟩⟩
  · rcases Nat.lt_succ_iff_lt_or_eq.mp hlt with hlt | rfl
    · exact Or.inl hlt
    · exact Or.inr ⟨rfl, Or.inl hin.1.2⟩
  · exact absurd hin.1.1 (Nat.not_le.mpr hlt)
  · exact absurd hin.2.1 (Nat.not_le.mpr hc)

/-- **The padded part of `sbuf`**: the taps inside the input are copied over the padding. -/
theorem fillPad_ends (hs : L.Sound) :
    Ends (fun m => KOftTable L.input L.p m ∧ L.Kept e v n m)
      (fillPad e L.input (tmMatp L.input (L.top y) (L.left x) 0) (L.p.chans L.input L.out) L.p
        L.q.inZp (L.top y) (L.left x))
      fun _ m => (KOftTable L.input L.p m ∧ L.Kept e v n m) ∧
        m.Holds ⟨.sbuf, 0⟩ (L.p.chans L.input L.out * L.p.maxk) (L.patch v y x) := by
  have hstart : (((tmMatp L.input (L.top y) (L.left x) 0).add (L.p.chOft 0),
      ((0 * L.p.maxk : Nat) : Int)) : Ptr × Int) = (tmMatp L.input (L.top y) (L.left x) 0, 0) := by
    have hoft : L.p.chOft 0 = 0 := by
      rw [ConvParams.chOft]
      split
      · exact Int.zero_tdiv _
      · rfl
    rw [hoft, Ptr.add_zero, Nat.zero_mul]
    rfl
  have chans := Ends.foldN_val (n := L.p.chans L.input L.out)
    (f := fun q (st : Ptr × Int) => do
      forN (L.rowsIn y) fun j => forN (L.colsIn x) fun i =>
        copyTap e st.1 st.2 (L.rowOf y j * L.p.kw + L.colOf x i)
      return ((tmMatp L.input (L.top y) (L.left x) 0).add (L.p.chOft (q + 1)), st.2 + L.p.maxk))
    (fun q => ((tmMatp L.input (L.top y) (L.left x) 0).add (L.p.chOft q),
      ((q * L.p.maxk : Nat) : Int)))
    (J := fun q => Padding e L v y x n (L.Before y x q 0 0)) fun q hq =>
      (padChan_ends hs hq).bind fun _ => Ends.pure fun m hm => ⟨by rw [Nat.succ_mul]; push_cast; rfl, hm⟩
  rw [hstart] at chans
  -- before the first tap nothing inside the input counts as copied
  have hfirst : ∀ q', ∀ k' < L.p.maxk, L.Before y x 0 0 0 q' k' → L.InImage y x k' → False := by
    intro q' k' hk' hb hin
    have hin := (inside_iff hk').mp hin
    rcases hb with hlt | ⟨-, hlt | ⟨-, hc⟩⟩
    · exact absurd hlt (Nat.not_lt_zero _)
    · exact absurd hin.1.1 (Nat.not_le.mpr hlt)
    · exact absurd hin.2.1 (Nat.not_le.mpr hc)
  refine (memsetSbuf_ends hs).bind fun _ => (chans.conseq (fun m hm => hm.skip hfirst)
    fun _ m hm => hm.2).bind fun _ => Ends.pure fun m hm => ⟨⟨hm.table, hm.kept⟩, ?_⟩
  intro t ht
  have hpos : 0 < L.p.maxk := Nat.pos_of_ne_zero fun h0 => by
    rw [h0, Nat.mul_zero] at ht
    exact Nat.not_lt_zero t ht
  have hq : t / L.p.maxk < L.p.chans L.input L.out :=
    Nat.div_lt_of_lt_mul ((Nat.mul_comm _ _).symm ▸ ht)
  have key := hm.taps _ hq _ (Nat.mod_lt t hpos) (Or.inl (Or.inl hq))
  rw [Nat.div_add_mod'] at key
  rw [Int.zero_add, key]
  rfl

end Border

/-- **The window of a pixel gets into `sbuf`**, on either path. -/
theorem window_ends (hs : L.Sound) :
    Ends (fun m => KOftTable L.input L.p m ∧ L.Kept e v n m)
      (fillSbuf e L.input L.out L.p L.q.inZp (L.top y) (L.left x))
      fun _ m => (KOftTable L.input L.p m ∧ L.Kept e v n m) ∧
        m.Holds ⟨.sbuf, 0⟩ (L.p.chans L.input L.out * L.p.maxk) (L.patch v y x) := by
  by_cases hslow : L.p.slow L.input (L.top y) (L.left x) = true
  · rw [show fillSbuf e L.input L.out L.p L.q.inZp (L.top y) (L.left x) = _ from if_pos hslow]
    exact fillPad_ends hs
  · rw [show fillSbuf e L.input L.out L.p L.q.inZp (L.top y) (L.left x) = _ from if_neg hslow]
    exact fillValid_ends hs (Bool.eq_false_of_not_eq_true hslow)

/-! ### The sums of a pixel -/

/-- The first `c` channels of the pixel are in the output, its window in `sbuf`. -/
def Summed (e : Env) (L : Conv) (v : Nat → Byte) (y x c : Nat) (m : Mem) : Prop :=
  (KOftTable L.input L.p m ∧ L.Kept e v (L.outIndex y x c) m) ∧
    m.Holds ⟨.sbuf, 0⟩ (L.p.chans L.input L.out * L.p.maxk) (L.patch v y x)

/-- What the kernel of channel `c` is multiplied with. -/
theorem holds_sbufAt {m : Mem} (hc : c < L.out.c)
    (hm : m.Holds ⟨.sbuf, 0⟩ (L.p.chans L.input L.out * L.p.maxk) (L.patch v y x)) :
    m.Holds (sbufAt L.p c) (L.p.maxk * L.p.chi L.input)
      fun j => L.tap v y x (L.seen c (j / L.p.maxk)) (j % L.p.maxk) := by
  intro j hj
  rw [ConvParams.chi] at hj
  rw [ConvParams.chans] at hm
  simp only [sbufAt, seen]
  split
  · rename_i hd
    rw [if_pos hd] at hj hm
    have hj : j < L.p.maxk := by rwa [Nat.mul_one] at hj
    have hin : c * L.p.maxk + j < L.out.c * L.p.maxk := by
      rw [Nat.mul_comm c]
      exact Nat.mul_add_lt_mul_of_lt_of_lt hc hj
    have key := hm _ hin
    rw [patch_tap hj, Int.zero_add] at key
    rw [Nat.mod_eq_of_lt hj, ← key]
    push_cast
    rfl
  · rename_i hd
    rw [if_neg hd] at hj hm
    exact hm j (Nat.mul_comm L.p.maxk _ ▸ hj)

/-- The value that the code stores for channel `c`. -/
theorem chanOut_value (hs : L.Sound) (hc : c < L.out.c) {m : Mem} (hm : Summed e L v y x c m) :
    e.chanOut m L.input L.w L.b L.p (L.outscale e) L.q.outZp c = L.value e v y x c := by
  have hdot := @dotAt_eq e m _ (L.kernel c) _ _ hs.w (Or.inr rfl) (holds_sbufAt hc hm.2)
  have hbias : toI32 (e.leAt m 4 ((L.b.add (4 * c : Nat)).add (4 * 0 : Nat))) = L.bias e c := by
    rw [show (((4 * 0 : Nat) : Nat) : Int) = 0 from rfl, Ptr.add_zero,
      leAt_model (p := L.b.add (4 * c : Nat)) hs.b]
    rfl
  have hscale : m.sumscale ((c : Nat) + (0 : Nat)) = L.scale e c := by
    rw [show ((c : Int) + ((0 : Nat) : Int)) = c from Int.add_zero _]
    exact hm.1.2.scales c hc
  rw [kernel] at hdot
  rw [Env.chanOut, Env.outAt, hbias, hscale, hdot, value, ← dotWith_patch]
  rfl

/-- The sums of a pixel. -/
theorem sums_ends (hs : L.Sound) (hy : y < L.out.h) (hx : x < L.out.w) :
    Ends (Summed e L v y x 0)
      (sumChannels e L.input L.w L.b L.out.c L.p (L.outscale e) L.q.outZp (outPos L.out y x))
      fun st m => st.2 = (outPos L.out y x).add L.out.c ∧ Summed e L v y x L.out.c m := by
  refine (sumChannels_runs e (J := Summed e L v y x) fun c hc m hm => ?_).ends
  have hout : BitVec.ofInt 8 (e.chanOut m L.input L.w L.b L.p (L.outscale e) L.q.outZp c) =
      L.result e v (L.outIndex y x c) := by
    rw [chanOut_value hs hc hm, result_outIndex hx hc]
  rw [outPos_eq]
  refine ⟨⟨hm.1.1, hm.1.2.push hs (outIndex_lt hy hx hc) hout⟩, hm.2.setByte (Or.inl ?_)⟩
  rw [Ptr.add_region, hs.apart.right]
  decide

/-! ### Two channels at a time -/

/-- **The rule of a pointwise pixel.**  The dot products `d` of the pixel are known before it is
begun; an invariant that every output extends holds at the end. -/
theorem pwPixel_ends {sptr w b outp : Ptr} {chi cho act : Nat} {outscale outZp : Int}
    {d : Nat → Int} {J : Nat → Mem → Prop}
    (hd : ∀ i m, J i m → ∀ c < cho, e.dotAt m sptr (w.add (chi * c : Nat)) chi = d c)
    (h : ∀ c < cho, ∀ m, J c m → J (c + 1) (m.setByte (outp.add c) (BitVec.ofInt 8
      (e.outAt m (fun _ => d c) (b.add (4 * c : Nat)) act c outscale outZp 0)))) :
    Ends (J 0) (pwPixel e sptr w b chi cho act outscale outZp outp) fun o m =>
      o = outp.add cho ∧ J cho m := by
  -- some outputs from number `c` on
  have post : ∀ k c, c + k ≤ cho → ∀ sums : Nat → Int, (∀ j < k, sums j = d (c + j)) →
      Ends (J c) (tmPostprocessSum e k sums (b.add (4 * c : Nat)) act (outp.add c) c outscale outZp)
        fun _ => J (c + k) := by
    intro k c hk sums hsums
    refine (tmPostprocessSum_runs e (J := fun j => J (c + j)) fun j hj m hm => ?_).ends
    have key := h (c + j) (by omega) m hm
    rw [Env.outAt] at key ⊢
    rw [hsums j hj, Ptr.add_add, Ptr.add_add]
    rw [Ptr.add_add] at key
    simpa only [Nat.cast_add, Nat.cast_mul, Nat.cast_ofNat, Nat.cast_zero, mul_add, mul_zero,
      add_zero, ← Nat.add_assoc] using key
  have pairs := Ends.foldN_val (n := cho / 2)
    (f := fun i (st : Ptr × Ptr) => do
      let sums ← tmDotProdPack2 e sptr st.2 chi
      tmPostprocessSum e 2 (fun j => if j = 0 then sums.1 else sums.2) (b.add (8 * i : Nat)) act
        st.1 (2 * i : Nat) outscale outZp
      return (st.1.add 2, st.2.add (chi * 2 : Nat)))
    (fun i => (outp.add (2 * i : Nat), w.add (chi * (2 * i) : Nat))) (J := fun i => J (2 * i))
    fun i hi => by
      have hle : 2 * i + 2 ≤ cho := by omega
      have dots : Ends (J (2 * i)) (tmDotProdPack2 e sptr (w.add (chi * (2 * i) : Nat)) chi)
          fun sums m => sums = (d (2 * i), d (2 * i + 1)) ∧ J (2 * i) m :=
        ((tmDotProdPack2_reads e sptr _ chi).ends _).weaken fun sums m hm => by
          have h₁ := hd _ m hm.2 (2 * i) (by omega)
          have h₂ := hd _ m hm.2 (2 * i + 1) (by omega)
          rw [Nat.mul_succ, Nat.cast_add, ← Ptr.add_add] at h₂
          exact ⟨hm.1.trans (Prod.ext h₁ h₂), hm.2⟩
      have sums : ∀ j < 2, (if j = 0 then d (2 * i) else d (2 * i + 1)) = d (2 * i + j) := by
        intro j hj
        split
        · rename_i hj
          rw [hj]
          rfl
        · rw [show j = 1 by omega]
      have key := post 2 (2 * i) hle _ sums
      rw [show 4 * (2 * i) = 8 * i by omega] at key
      refine dots.bind_eq (key.bind fun _ => Ends.pure fun m hm => ⟨?_, hm⟩)
      rw [Ptr.add_add, Ptr.add_add]
      push_cast
      ring_nf
  have rest := Ends.foldN_val (n := cho % 2)
    (f := fun i (st : Ptr × Ptr) => do
      let c := 2 * (cho / 2) + i
      let sum ← tmDotProd e sptr st.2 chi
      tmPostprocessSum e 1 (fun _ => sum) (b.add (4 * c : Nat)) act st.1 c outscale outZp
      return (st.1.add 1, st.2.add chi))
    (fun i => (outp.add (2 * (cho / 2) + i : Nat), w.add (chi * (2 * (cho / 2) + i) : Nat)))
    (J := fun i => J (2 * (cho / 2) + i)) fun i hi => by
      have hlt : 2 * (cho / 2) + i < cho := by omega
      have dot : Ends (J (2 * (cho / 2) + i))
          (tmDotProd e sptr (w.add (chi * (2 * (cho / 2) + i) : Nat)) chi) fun sum m =>
            sum = d (2 * (cho / 2) + i) ∧ J (2 * (cho / 2) + i) m :=
        ((tmDotProd_reads e sptr _ chi).ends _).weaken fun sum m hm =>
          ⟨hm.1.trans (hd _ m hm.2 _ hlt), hm.2⟩
      have sums : ∀ j < 1, d (2 * (cho / 2) + i) = d (2 * (cho / 2) + i + j) := fun j hj => by
        rw [Nat.lt_one_iff.mp hj]
        rfl
      have key := post 1 _ hlt _ sums
      refine dot.bind_eq (key.bind fun _ => Ends.pure fun m hm => ⟨?_, hm⟩)
      rw [Ptr.add_add, Ptr.add_add]
      push_cast
      ring_nf
  have hfirst : ((outp.add (2 * 0 : Nat), w.add (chi * (2 * 0) : Nat)) : Ptr × Ptr) = (outp, w) := by
    rw [Nat.mul_zero, Nat.mul_zero, Int.natCast_zero, Ptr.add_zero, Ptr.add_zero]
  rw [hfirst] at pairs
  refine pairs.bind_eq (rest.bind_eq (Ends.pure fun m hm => ?_))
  rw [Nat.div_add_mod] at hm ⊢
  exact ⟨rfl, hm⟩

/-! ### The layer -/

/-- The loop over the pixels, for either way to do a pixel. -/
theorem pixels_ends {J : Nat → Mem → Prop} {pixel : Nat → Nat → Ptr → Eng Ptr}
    (h : ∀ y < L.out.h, ∀ x < L.out.w, Ends (J (L.outIndex y x 0)) (pixel y x (outPos L.out y x))
      fun o m => o = (outPos L.out y x).add L.out.c ∧ J (L.outIndex y x L.out.c) m) :
    Ends (J 0)
      (foldN L.out.h L.out.data fun y outp => foldN L.out.w outp fun x outp => pixel y x outp)
      fun _ => J L.out.size := by
  have row : ∀ y < L.out.h, Ends (J (L.outIndex y 0 0))
      (foldN L.out.w (outPos L.out y 0) fun x outp => pixel y x outp)
      fun o m => o = outPos L.out (y + 1) 0 ∧ J (L.outIndex (y + 1) 0 0) m := by
    intro y hy
    refine (Ends.foldN_val (outPos L.out y) (J := fun x => J (L.outIndex y x 0)) fun x hx =>
      (h y hy x hx).weaken fun o m ho => ⟨ho.1.trans (outPos_succ y x), ?_⟩).weaken
        fun o m ho => ⟨ho.1.trans (outPos_row y), ?_⟩
    · rw [← outIndex_succ]
      exact ho.2
    · rw [← outIndex_row]
      exact ho.2
  have hfirst : outPos L.out 0 0 = L.out.data := by
    rw [outPos, Nat.zero_mul, Nat.add_zero, Nat.zero_mul]
    exact Ptr.add_zero _
  have hzero : L.outIndex 0 0 0 = 0 := by
    rw [outIndex, Nat.zero_mul, Nat.add_zero, Nat.zero_mul]
  have hsize : L.outIndex L.out.h 0 0 = L.out.size := by
    rw [outIndex, Nat.add_zero, Nat.add_zero, TmMat.size]
  have rows := Ends.foldN_val (fun y => outPos L.out y 0) (n := L.out.h)
    (J := fun y => J (L.outIndex y 0 0))
    (f := fun y outp => foldN L.out.w outp fun x outp => pixel y x outp) row
  rw [hfirst, hzero, hsize] at rows
  exact rows.weaken fun _ _ hm => hm.2

theorem scales_ends (hs : L.Sound) :
    Ends (fun m => m.Holds L.input.data L.input.size v) (fillSumscale e L.out.c L.ws L.q.inS)
      fun _ => L.Kept e v 0 := by
  have scales := (@fillSumscale_runs e
    (fun n m => m.Holds L.input.data L.input.size v ∧ ∀ c < n, m.sumscale c = L.scale e c)
    L.out.c L.ws L.q.inS
    fun c _ m hm => ⟨hm.1, fun k hk => by
      rcases Nat.lt_succ_iff_lt_or_eq.mp hk with hk | rfl
      · have hne : ¬((k : Int) = c) := fun h => absurd (by exact_mod_cast h) hk.ne
        exact (if_neg hne).trans (hm.2 k hk)
      · refine (if_pos rfl).trans ?_
        rw [leAt_model (p := L.ws.add (4 * k : Nat)) hs.ws]
        rfl⟩).ends
  exact scales.conseq (fun m hm => ⟨hm, fun c hc => absurd hc (Nat.not_lt_zero c)⟩)
    fun _ m hm => ⟨hm.2, hm.1, fun i hi => absurd hi (Nat.not_lt_zero i)⟩

/-! ### One tap -/

section Pointwise

variable (hs : L.Sound) (h1 : L.p.maxk = 1)
include hs h1

/-- A single tap comes without padding, and with a kernel over all channels. -/
theorem pointwise_params : L.p.kw = 1 ∧ L.p.padTop = 0 ∧ L.p.padLeft = 0 ∧ L.p.dmul = 0 := by
  have herr := hs.err
  rw [ConvParams.err] at herr
  split at herr
  · cases herr
  split at herr
  · cases herr
  split at herr
  · cases herr
  split at herr
  · cases herr
  rename_i hpad
  have hpad : ¬(L.p.padFlag = true) ∧ L.p.dmul = 0 := by
    refine ⟨fun h => hpad ⟨h1, Or.inl h⟩, ?_⟩
    by_contra h
    exact hpad ⟨h1, Or.inr h⟩
  simp only [ConvParams.padFlag, Bool.or_eq_true, bne_iff_ne, not_or, not_not] at hpad
  obtain ⟨⟨⟨⟨htop, -⟩, hleft⟩, -⟩, hdmul⟩ := hpad
  exact ⟨Nat.eq_one_of_mul_eq_one_right h1, htop, hleft, hdmul⟩

/-- The input at the pixel is the window. -/
theorem holds_pixel (hy : y < L.out.h) (hx : x < L.out.w) {m : Mem}
    (hm : m.Holds L.input.data L.input.size v) :
    m.Holds (tmMatp L.input (L.p.sy * y) (L.p.sx * x) 0) (L.p.maxk * L.p.chi L.input)
      fun j => L.tap v y x (L.seen c (j / L.p.maxk)) (j % L.p.maxk) := by
  obtain ⟨hkw, htop, hleft, hdmul⟩ := pointwise_params hs h1
  intro j hj
  have hchi : L.p.chi L.input = L.input.c := if_neg (not_not.mpr hdmul)
  rw [h1, Nat.one_mul, hchi] at hj
  have hrow := hs.rows h1 y hy
  have hcol := hs.cols h1 x hx
  have hchan : L.chan (L.seen c j) = j := by
    rw [chan, seen, if_neg (not_not.mpr hdmul), if_neg (not_not.mpr hdmul)]
  have hplace : (tmMatp L.input (L.p.sy * y) (L.p.sx * x) 0).add j = L.input.data.add
      (((L.p.sy * y) * L.input.w + L.p.sx * x) * L.input.c + j : Nat) := by
    rw [tmMatp, Ptr.add_add]
    push_cast
    rw [Int.add_zero]
  have key := hm _ (pixel_lt hrow hcol hj)
  refine (congrArg (fun p : Ptr => m.bytes p.region p.off) hplace).trans (key.trans ?_)
  show _ = L.tap v y x (L.seen c (j / L.p.maxk)) (j % L.p.maxk)
  rw [h1, Nat.div_one, Nat.mod_one, tap, hchan, top, left, htop, hleft, Nat.zero_div, Nat.zero_mod,
    image, padded, if_pos ⟨by omega, by omega, by omega, by omega⟩, pixelOf]
  congr 1

/-- A pixel of the pointwise path. -/
theorem pwPixel_value (hy : y < L.out.h) (hx : x < L.out.w) :
    Ends (L.Kept e v (L.outIndex y x 0))
      (pwPixel e (tmMatp L.input (L.p.sy * y) (L.p.sx * x) 0) L.w L.b L.input.c L.out.c L.p.act
        (L.outscale e) L.q.outZp (outPos L.out y x))
      fun o m => o = (outPos L.out y x).add L.out.c ∧ L.Kept e v (L.outIndex y x L.out.c) m := by
  have hchi : L.p.chi L.input = L.input.c :=
    if_neg (not_not.mpr (pointwise_params hs h1).2.2.2)
  refine pwPixel_ends (d := L.conv e v y x) (J := fun c => L.Kept e v (L.outIndex y x c))
    (fun i m hm c hc => ?_) fun c hc m hm => ?_
  · have hmain : (tmMatp L.input (L.p.sy * y) (L.p.sx * x) 0).region = .main := hs.apart.left
    have hdot := @dotAt_eq e m _ (L.kernel c) _ _ hs.w (Or.inl hmain)
      (holds_pixel (c := c) hs h1 hy hx hm.input)
    rw [dotWith_patch, kernel, h1, hchi, Nat.one_mul, Nat.mul_one, Nat.mul_comm c] at hdot
    exact hdot
  · have hbias : toI32 (e.leAt m 4 ((L.b.add (4 * c : Nat)).add (4 * 0 : Nat))) = L.bias e c := by
      rw [show (((4 * 0 : Nat) : Nat) : Int) = 0 from rfl, Ptr.add_zero,
        leAt_model (p := L.b.add (4 * c : Nat)) hs.b]
      rfl
    have hscale : m.sumscale ((c : Nat) + (0 : Nat)) = L.scale e c := by
      rw [show ((c : Int) + ((0 : Nat) : Int)) = c from Int.add_zero _]
      exact hm.scales c hc
    rw [outPos_eq, Env.outAt, hbias, hscale]
    exact hm.push hs (outIndex_lt hy hx hc) (result_outIndex hx hc).symm

end Pointwise

/-- What the convolution leaves. -/
def Convolved (e : Env) (L : Conv) (v : Nat → Byte) (r : TmErr) (m : Mem) : Prop :=
  r = .ok ∧ m.Holds L.input.data L.input.size v ∧ m.Holds L.out.data L.out.size (L.result e v)

/-- The path for a single tap. -/
theorem single_ends (hs : L.Sound) (h1 : L.p.maxk = 1) :
    Ends (fun m => m.Holds L.input.data L.input.size v) (L.layer e) (L.Convolved e v) := by
  rw [layer, tmlConv2dDwconv2d, if_neg (not_not.mpr hs.err), if_pos h1]
  exact (scales_ends hs).bind fun _ => (pixels_ends fun y hy x hx =>
    pwPixel_value hs h1 hy hx).bind fun _ => Ends.pure fun m hm => ⟨rfl, hm.input, hm.output⟩

/-- The path with a window for each pixel. -/
theorem windows_ends (hs : L.Sound) (h1 : L.p.maxk ≠ 1) :
    Ends (fun m => m.Holds L.input.data L.input.size v) (L.layer e) (L.Convolved e v) := by
  rw [layer, tmlConv2dDwconv2d, if_neg (not_not.mpr hs.err), if_neg h1]
  have table := (@genKOft_runs L.input L.p (L.Kept e v 0) fun m i w hm =>
    ⟨hm.scales, hm.input, hm.output⟩).ends
  have pixel : ∀ y < L.out.h, ∀ x < L.out.w,
      Ends (fun m => KOftTable L.input L.p m ∧ L.Kept e v (L.outIndex y x 0) m)
        (convPixel e L.input L.out L.w L.b L.p (L.outscale e) L.q y x (outPos L.out y x))
        fun o m => o = (outPos L.out y x).add L.out.c ∧
          KOftTable L.input L.p m ∧ L.Kept e v (L.outIndex y x L.out.c) m := fun y hy x hx =>
    (window_ends hs).bind fun _ => (sums_ends hs hy hx).bind fun st =>
      Ends.pure fun m hm => ⟨hm.1, hm.2.1⟩
  exact (scales_ends hs).bind fun _ => table.bind fun _ => (pixels_ends
    (J := fun n m => KOftTable L.input L.p m ∧ L.Kept e v n m) pixel).bind fun _ =>
      Ends.pure fun m hm => ⟨rfl, hm.2.input, hm.2.output⟩

/-- **All paths compute the convolution.**  Whatever the shape, the stride, the padding, the depth
multiplier and the activation are, the layer returns `TM_OK` and leaves the requantised convolution
of the padded input in its output. -/
theorem paths_agree (hs : L.Sound) :
    Ends (fun m => m.Holds L.input.data L.input.size v) (L.layer e) fun r m => r = .ok ∧
      m.Holds L.input.data L.input.size v ∧ m.Holds L.out.data L.out.size (L.result e v) := by
  by_cases h1 : L.p.maxk = 1
  · exact single_ends hs h1
  · exact windows_ends hs h1

end Specs

/-- A kernel for each of two channels, with every window over the border of the input. -/
def bordered : Conv :=
  ⟨⟨3, 2, 2, 2, ⟨.main, 0⟩⟩, ⟨3, 2, 2, 2, ⟨.main, 8⟩⟩, ⟨.model, 0⟩, ⟨.model, 72⟩,
    ⟨3, 3, 1, 1, 1, 1, 0, 1, 1, 1, 1, 1⟩, ⟨.model, 88⟩, ⟨0x3F800000, 3, 0x3F800000, 0⟩⟩

theorem sound_bordered : bordered.Sound := by
  have hapart : Apart bordered.input.data bordered.input.size bordered.out.data
      bordered.out.size := ⟨rfl, rfl, by decide⟩
  constructor
  case apart => exact hapart
  all_goals decide

/-- All weights are 1, and the input is 1, 2, …, 8. -/
theorem paths_agree_bordered :
    Ends (fun m => m.Holds bordered.input.data bordered.input.size fun i => BitVec.ofNat 8 (i + 1))
      (bordered.layer ⟨fun _ => 1, fun _ => 0, 0, ieee754⟩) fun r m => r = .ok ∧
        m.Holds bordered.input.data bordered.input.size (fun i => BitVec.ofNat 8 (i + 1)) ∧
        m.Holds bordered.out.data bordered.out.size
          (bordered.result ⟨fun _ => 1, fun _ => 0, 0, ieee754⟩ fun i => BitVec.ofNat 8 (i + 1)) :=
  paths_agree sound_bordered

end Conv

end TinyMaix
