import Pico2wTfm.TinyMaix.LayerValues

/-!
# TinyMaix — OutputValues

What softmax computes, and what an output layer leaves behind.  Softmax works in its output alone: it
holds a `float` for every input, which becomes an exponential in place, and at the end the bytes of
the result are written over the floats that they are made of, each behind the last float that is
still to be read (`Softmax.layer_ends`).
-/

namespace TinyMaix
open Bytes Footprint

/-! ### Floats in memory -/

/-- The floats from number `lo` up to number `hi` of the array at `q` are `F`. -/
def Env.Floats (e : Env) (m : Mem) (q : Ptr) (lo hi : Nat) (F : Nat → F32) : Prop :=
  ∀ c, lo ≤ c → c < hi → e.f32At m (q.add (4 * c : Nat)) = F c

section Floats

variable {e : Env} {m : Mem} {p q : Ptr} {lo hi i n : Nat} {F G : Nat → F32} {x : F32}
  {v : Nat → Byte}

/-- A float that is stored, and the others. -/
theorem f32At_store (hq : q.region = .main) (c : Nat) :
    e.f32At (m.setLe 4 (q.add (4 * i : Nat)) x.toNat) (q.add (4 * c : Nat)) =
      if c = i then x else e.f32At m (q.add (4 * c : Nat)) := by
  by_cases hc : c = i
  · rw [if_pos hc, hc]
    exact e.f32At_setLe hq
  · rw [if_neg hc]
    refine e.f32At_congr fun j h₁ h₂ => Mem.setLe_outside (Or.inr ?_)
    rw [Ptr.add_off] at h₁ h₂ ⊢
    omega

theorem Env.Floats.congr (h : e.Floats m q lo hi F) (hF : ∀ c, lo ≤ c → c < hi → F c = G c) :
    e.Floats m q lo hi G := fun c h₁ h₂ => (h c h₁ h₂).trans (hF c h₁ h₂)

theorem Env.Floats.store (hq : q.region = .main) (h : e.Floats m q lo hi F) :
    e.Floats (m.setLe 4 (q.add (4 * i : Nat)) x.toNat) q lo hi (Function.update F i x) := by
  intro c h₁ h₂
  rw [f32At_store hq, Function.update_apply, h c h₁ h₂]

theorem Env.Floats.push (hq : q.region = .main) (h : e.Floats m q 0 hi F) (hx : x = F hi) :
    e.Floats (m.setLe 4 (q.add (4 * hi : Nat)) x.toNat) q 0 (hi + 1) F := by
  intro c _ hc
  rw [f32At_store hq]
  rcases Nat.lt_succ_iff_lt_or_eq.mp hc with hc | rfl
  · rw [if_neg hc.ne]
    exact h c (Nat.zero_le c) hc
  · rw [if_pos rfl, hx]

theorem Mem.Holds.setLe (h : m.Holds p n v) {w k : Nat}
    (hq : q.off + w ≤ p.off ∨ p.off + n ≤ q.off) : (m.setLe w q k).Holds p n v := by
  intro i hi
  rw [Mem.setLe_outside (Or.inr (by omega))]
  exact h i hi

/-- One float is replaced by a function of it. -/
theorem updF32_ends {f : F32 → F32} (hq : q.region = .main) (h₁ : lo ≤ i) (h₂ : i < hi) :
    Ends (fun m => e.Floats m q lo hi F) (updF32 e (q.add (4 * i : Nat)) f)
      fun _ m => e.Floats m q lo hi (Function.update F i (f (F i))) := by
  have load : Ends (fun m => e.Floats m q lo hi F) (loadF32 e (q.add (4 * i : Nat)))
      fun d m => d = F i ∧ e.Floats m q lo hi F :=
    ((loadF32_reads e _).ends _).weaken fun d m hd => ⟨hd.1.trans (hd.2 i h₁ h₂), hd.2⟩
  exact load.bind_eq (storeF32_runs
    (Q := fun _ m => e.Floats m q lo hi (Function.update F i (f (F i))))
      fun m hm => hm.store hq).ends

end Floats

/-! ### Softmax -/

/-- The operands of a call of `tml_softmax`. -/
structure Softmax where
  input : TmMat
  out : TmMat
  q : Quant
deriving DecidableEq, Repr

namespace Softmax

/-- The call. -/
def layer (e : Env) (L : Softmax) : Eng TmErr := tmlSoftmax e L.input L.out L.q

structure Plain (L : Softmax) : Prop where
  apart : Apart L.input.data L.input.c L.out.data (4 * L.input.c)

section Values

variable (e : Env) (L : Softmax) (v : Nat → Byte)

/-- The dequantised inputs. -/
def value (c : Nat) : F32 := e.fl.mul (e.fl.ofInt ((v c).toInt - L.q.inZp)) L.q.inS

/-- The largest of the first `n`. -/
def best : Nat → F32
  | 0 => negFltMax
  | n + 1 => if e.fl.lt (best n) (L.value e v n) then L.value e v n else best n

/-- The exponentials. -/
def expo (c : Nat) : F32 := tmExp e.fl (e.fl.sub (L.value e v c) (L.best e v L.input.c))

/-- The sum of the first `n`. -/
def total : Nat → F32
  | 0 => 0
  | n + 1 => e.fl.add (total n) (L.expo e v n)

/-- An exponential less `0.000001f`. -/
def share (c : Nat) : F32 := e.fl.sub (L.expo e v c) 0x358637BD

def output (c : Nat) : Byte :=
  BitVec.ofInt 8 (e.fl.toI32 (e.fl.add (e.fl.div (e.fl.div (L.share e v c)
    (L.total e v L.input.c)) L.q.outS) (e.fl.ofInt L.q.outZp)))

/-- The floats in the second loop, after `n` rounds. -/
def passed (n c : Nat) : F32 := if c < n then L.share e v c else L.value e v c

end Values

section Specs

variable {e : Env} {L : Softmax} {v : Nat → Byte}

theorem max_ends (hp : L.Plain) :
    Ends (fun m => m.Holds L.input.data L.input.c v)
      (softmaxMax e L.input.data L.out.data L.input.c L.q) fun d m =>
        d = L.best e v L.input.c ∧ e.Floats m L.out.data 0 L.input.c (L.value e v) := by
  have store : ∀ c < L.input.c,
      Ends (fun m => m.Holds L.input.data L.input.c v ∧ e.Floats m L.out.data 0 c (L.value e v))
        (storeF32 (L.out.data.add (4 * c : Nat)) (L.value e v c)) fun _ m =>
          m.Holds L.input.data L.input.c v ∧ e.Floats m L.out.data 0 (c + 1) (L.value e v) := by
    intro c hc
    refine (storeF32_runs (Q := fun _ m => m.Holds L.input.data L.input.c v ∧
      e.Floats m L.out.data 0 (c + 1) (L.value e v)) fun m hm => ⟨hm.1.setLe ?_,
        hm.2.push hp.apart.right rfl⟩).ends
    have := hp.apart.apart
    rw [Ptr.add_off]
    omega
  have load : ∀ c,
      Ends (fun m => m.Holds L.input.data L.input.c v ∧
        e.Floats m L.out.data 0 (c + 1) (L.value e v)) (loadF32 e (L.out.data.add (4 * c : Nat)))
        fun d m => d = L.value e v c ∧ m.Holds L.input.data L.input.c v ∧
          e.Floats m L.out.data 0 (c + 1) (L.value e v) := fun c =>
    ((loadF32_reads e _).ends _).weaken fun d m hd =>
      ⟨hd.1.trans (hd.2.2 c (Nat.zero_le c) (Nat.lt_succ_self c)), hd.2⟩
  have key := Ends.foldN_val (L.best e v) (n := L.input.c)
    (f := fun c dmax => do
      let b ← loadI8 e (L.input.data.add c)
      storeF32 (L.out.data.add (4 * c : Nat)) (e.fl.mul (e.fl.ofInt (b - L.q.inZp)) L.q.inS)
      let d ← loadF32 e (L.out.data.add (4 * c : Nat))
      return if e.fl.lt dmax d then d else dmax)
    (J := fun c m => m.Holds L.input.data L.input.c v ∧ e.Floats m L.out.data 0 c (L.value e v))
    fun c hc => (loadI8_ends e hp.apart.left hc fun m hm => hm.1).bind_eq
      ((store c hc).bind fun _ => (load c).bind_eq (Ends.pure fun m hm => ⟨rfl, hm⟩))
  exact key.conseq (fun m hm => ⟨hm, fun c _ hc => absurd hc (Nat.not_lt_zero c)⟩)
    fun d m hd => ⟨hd.1, hd.2.2⟩

/-- One round of the second loop. -/
theorem exp_round (hp : L.Plain) {c : Nat} (hc : c < L.input.c) :
    Ends (fun m => e.Floats m L.out.data 0 L.input.c (L.passed e v c)) (do
      updF32 e (L.out.data.add (4 * c : Nat)) fun d => e.fl.sub d (L.best e v L.input.c)
      updF32 e (L.out.data.add (4 * c : Nat)) (tmExp e.fl)
      let d ← loadF32 e (L.out.data.add (4 * c : Nat))
      updF32 e (L.out.data.add (4 * c : Nat)) fun d => e.fl.sub d 0x358637BD
      return e.fl.add (L.total e v c) d) fun sum m => sum = L.total e v (c + 1) ∧
        e.Floats m L.out.data 0 L.input.c (L.passed e v (c + 1)) := by
  have hq := hp.apart.right
  have hstart : L.passed e v c c = L.value e v c := if_neg (lt_irrefl c)
  -- the float becomes the exponential
  have expo : Function.update (Function.update (L.passed e v c) c
      (e.fl.sub (L.passed e v c c) (L.best e v L.input.c))) c (tmExp e.fl (Function.update
        (L.passed e v c) c (e.fl.sub (L.passed e v c c) (L.best e v L.input.c)) c)) =
      Function.update (L.passed e v c) c (L.expo e v c) := by
    rw [Function.update_idem, Function.update_self, hstart, Softmax.expo]
  -- and then the share
  have share : Function.update (Function.update (L.passed e v c) c (L.expo e v c)) c
      (e.fl.sub (Function.update (L.passed e v c) c (L.expo e v c) c) 0x358637BD) =
      L.passed e v (c + 1) := by
    rw [Function.update_idem, Function.update_self]
    funext k
    rw [Function.update_apply, passed, passed]
    by_cases hk : k = c
    · rw [if_pos hk, if_pos (hk ▸ Nat.lt_succ_self c), hk]
      rfl
    · rw [if_neg hk]
      exact if_congr ⟨fun h => Nat.lt_succ_of_lt h, fun h => Nat.lt_of_le_of_ne
        (Nat.lt_succ_iff.mp h) hk⟩ rfl rfl
  refine (updF32_ends hq (Nat.zero_le c) hc).bind fun _ =>
    (updF32_ends hq (Nat.zero_le c) hc).bind fun _ => ?_
  rw [expo]
  have load : Ends (fun m => e.Floats m L.out.data 0 L.input.c
      (Function.update (L.passed e v c) c (L.expo e v c))) (loadF32 e (L.out.data.add (4 * c : Nat)))
      fun d m => d = L.expo e v c ∧ e.Floats m L.out.data 0 L.input.c
        (Function.update (L.passed e v c) c (L.expo e v c)) :=
    ((loadF32_reads e _).ends _).weaken fun d m hd =>
      ⟨hd.1.trans ((hd.2 c (Nat.zero_le c) hc).trans (Function.update_self ..)), hd.2⟩
  refine load.bind_eq ((updF32_ends hq (Nat.zero_le c) hc).bind fun _ => ?_)
  rw [share]
  exact Ends.pure fun m hm => ⟨rfl, hm⟩

theorem exp_ends (hp : L.Plain) :
    Ends (fun m => e.Floats m L.out.data 0 L.input.c (L.value e v))
      (softmaxExp e L.out.data L.input.c (L.best e v L.input.c)) fun sum m =>
        sum = L.total e v L.input.c ∧ e.Floats m L.out.data 0 L.input.c (L.share e v) := by
  have key := Ends.foldN_val (L.total e v) (n := L.input.c)
    (f := fun c sum => do
      updF32 e (L.out.data.add (4 * c : Nat)) fun d => e.fl.sub d (L.best e v L.input.c)
      updF32 e (L.out.data.add (4 * c : Nat)) (tmExp e.fl)
      let d ← loadF32 e (L.out.data.add (4 * c : Nat))
      updF32 e (L.out.data.add (4 * c : Nat)) fun d => e.fl.sub d 0x358637BD
      return e.fl.add sum d)
    (J := fun c m => e.Floats m L.out.data 0 L.input.c (L.passed e v c)) fun c hc =>
      exp_round hp hc
  exact key.conseq (fun m hm => hm.congr fun c _ _ => (if_neg (Nat.not_lt_zero c)).symm)
    fun sum m hs => ⟨hs.1, hs.2.congr fun c _ hc => if_pos hc⟩

/-- The bytes of the output are written behind the floats that are still to be read. -/
theorem quant_ends :
    Ends (fun m => e.Floats m L.out.data 0 L.input.c (L.share e v))
      (softmaxQuant e L.out.data L.input.c (L.total e v L.input.c) L.q) fun _ m =>
        m.Holds L.out.data L.input.c (L.output e v) := by
  have key := Ends.forN (n := L.input.c)
    (f := fun c => do
      let d ← loadF32 e (L.out.data.add (4 * c : Nat))
      storeI8 (L.out.data.add c) (e.fl.toI32 (e.fl.add (e.fl.div
        (e.fl.div d (L.total e v L.input.c)) L.q.outS) (e.fl.ofInt L.q.outZp))))
    (J := fun c m => e.Floats m L.out.data c L.input.c (L.share e v) ∧
      m.Holds L.out.data c (L.output e v)) fun c hc => by
      refine (((loadF32_reads e _).ends _).weaken fun d m hd =>
        ⟨hd.1.trans (hd.2.1 c le_rfl hc), hd.2⟩).bind_eq (storeI8_runs
          (Q := fun _ m => e.Floats m L.out.data (c + 1) L.input.c (L.share e v) ∧
            m.Holds L.out.data (c + 1) (L.output e v)) fun m hm => ⟨fun k h₁ h₂ => ?_,
              hm.2.push rfl⟩).ends
      rw [← hm.1 k (Nat.le_of_succ_le h₁) h₂]
      refine e.f32At_congr fun j h₃ _ => if_neg ?_
      rintro ⟨-, hj⟩
      rw [Ptr.add_off] at h₃ hj
      omega
  exact key.conseq (fun m hm => ⟨hm, fun i hi => absurd hi (Nat.not_lt_zero i)⟩)
    fun _ m hm => hm.2

/-- **What the layer leaves.** -/
theorem layer_ends (hp : L.Plain) :
    Ends (fun m => m.Holds L.input.data L.input.c v) (L.layer e) fun r m => r = .ok ∧
      m.Holds L.out.data L.input.c (L.output e v) :=
  (max_ends hp).bind_eq ((exp_ends hp).bind_eq (quant_ends.bind fun _ =>
    Ends.pure fun _ hm => ⟨rfl, hm⟩))

end Specs

end Softmax

/-! ### An output layer -/

/-- The scores of an output layer whose output is `v`. -/
def scoreOf (e : Env) (mdl : TmMdl) (v : Nat → Byte) (i : Nat) : F32 :=
  tmDequant e.fl (v i).toInt (e.f32 (mdl.layerBody.add 40)) (e.i32 (mdl.layerBody.add 44))

section Output

variable {e : Env} {mdl : TmMdl} {v : Nat → Byte} {n : Nat}

theorem dequant_ends {src outf : Ptr} (hl : mdl.layerBody.region = .model)
    (ha : Apart src n outf (4 * n)) :
    Ends (fun m => m.Holds src n v) (dequant e mdl.layerBody src outf n)
      fun _ m => e.Floats m outf 0 n (scoreOf e mdl v) := by
  have zero : ∀ P : Mem → Prop, Ends P (loadI32 e (mdl.layerBody.add 44))
      fun a m => a = e.i32 (mdl.layerBody.add 44) ∧ P m :=
    ((field_reads hl 44 4).map toI32).ends
  have scale : ∀ P : Mem → Prop, Ends P (loadF32 e (mdl.layerBody.add 40))
      fun a m => a = e.f32 (mdl.layerBody.add 40) ∧ P m :=
    ((field_reads hl 40 4).map (BitVec.ofNat 32)).ends
  have store : ∀ i < n, Ends (fun m => m.Holds src n v ∧ e.Floats m outf 0 i (scoreOf e mdl v))
      (storeF32 (outf.add (4 * i : Nat)) (scoreOf e mdl v i)) fun _ m =>
        m.Holds src n v ∧ e.Floats m outf 0 (i + 1) (scoreOf e mdl v) := by
    intro i hi
    refine (storeF32_runs (Q := fun _ m => m.Holds src n v ∧
      e.Floats m outf 0 (i + 1) (scoreOf e mdl v)) fun m hm => ⟨hm.1.setLe ?_,
        hm.2.push ha.right rfl⟩).ends
    have := ha.apart
    rw [Ptr.add_off]
    omega
  have key := Ends.forN (n := n)
    (f := fun i => do
      let b ← loadI8 e (src.add i)
      let outZp ← loadI32 e (mdl.layerBody.add 44)
      let outS ← loadF32 e (mdl.layerBody.add 40)
      storeF32 (outf.add (4 * i : Nat)) (tmDequant e.fl b outS outZp))
    (J := fun i m => m.Holds src n v ∧ e.Floats m outf 0 i (scoreOf e mdl v)) fun i hi =>
      (loadI8_ends e ha.left hi fun m hm => hm.1).bind_eq ((zero _).bind_eq
        ((scale _).bind_eq (store i hi)))
  exact key.conseq (fun m hm => ⟨hm, fun c _ hc => absurd hc (Nat.not_lt_zero c)⟩)
    fun _ m hm => hm.2

/-- **The output layer** leaves its scores where `g_outs` says. -/
theorem layerOutput_ends {outIdx : Nat} (hl : mdl.layerBody.region = .model)
    (hb : mdl.b.region = .model) (ho : isOut e mdl) (hd : e.word 1 (mdl.b.add 5) ≠ 0)
    (ha : Apart (outputAt e mdl).data (outSize (outputAt e mdl)) (outf e (outputAt e mdl))
      (4 * outSize (outputAt e mdl))) :
    Ends (fun m => m.Holds (outputAt e mdl).data (outSize (outputAt e mdl)) v)
      (layerOutput e mdl outIdx) fun _ m => (m.outs outIdx).data = outf e (outputAt e mdl) ∧
        e.Floats m (outf e (outputAt e mdl)) 0 (outSize (outputAt e mdl)) (scoreOf e mdl v) := by
  have hw : e.word 2 (mdl.layerBody.add 2) ≠ 0 := ho
  have mat : ∀ (m : Mem) (o : TmMat), (m.setOut outIdx o).outs outIdx = o := fun m o => if_pos rfl
  refine ((field_reads hl 2 2).ends _).bind_eq ?_
  rw [if_pos hw]
  refine ((field_reads hl 12 4).ends _).bind_eq (((dims_reads hl 24 _).ends _).bind_eq
    (((field_reads hb 5 1).ends _).bind_eq ?_))
  rw [if_neg hd]
  refine (dequant_ends hl ha).bind fun _ => (storeOut_runs (Q := fun _ m =>
    (m.outs outIdx).data = outf e (outputAt e mdl) ∧
      e.Floats m (outf e (outputAt e mdl)) 0 (outSize (outputAt e mdl)) (scoreOf e mdl v))
        fun m hm => ⟨?_, hm⟩).ends.bind fun _ => Ends.pure fun _ hm => hm
  rw [mat]
  rfl

end Output

end TinyMaix
