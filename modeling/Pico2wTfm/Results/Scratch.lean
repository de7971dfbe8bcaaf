import Pico2wTfm.Partition.Inference
import Pico2wTfm.Results.LoadGate

/-!
# Results — Scratch

The scratch tables of the convolutions, `k_oft`, `sbuf` and `sumscale`, have the sizes that the port
header gives them.  A convolution compares the size of its kernel with the first; nothing compares
anything with the other two.

* `scratch_safe_iff`: the tables are safe, and a layer that does not fit them is refused, exactly
  when every convolution that a run reaches, and that passes the check of its kernel, fits the other
  two as well.
-/

namespace Partition
open Bytes Footprint TinyMaix

/-- The layer does not fit the tables. -/
def OverLimits (p : ConvParams) (input out : TmMat) : Prop :=
  tmMaxKsize < p.maxk ∨ tmMaxKcsize < p.maxk * p.chans input out ∨ tmMaxCsize < out.c

instance (p : ConvParams) (input out : TmMat) : Decidable (OverLimits p input out) :=
  inferInstanceAs (Decidable (_ ∨ _ ∨ _))

/-- The run reaches a convolution. -/
structure ReachesConv (e : Env) (k : Nat) : Prop extends ReachesLayer e k where
  conv : TmLayerType.ofCode (e.word 2 (layerAt e k).mdl.layerBody) = some .conv2d ∨
    TmLayerType.ofCode (e.word 2 (layerAt e k).mdl.layerBody) = some .dwconv2d

/-- The parameters of layer `k`, and its tensors. -/
def convParams (e : Env) (k : Nat) : ConvParams := e.convAt (layerAt e k).mdl.layerBody
def convIn (e : Env) (k : Nat) : TmMat := inputAt e (layerAt e k).mdl (layerAt e k).input
def convOut (e : Env) (k : Nat) : TmMat := outputAt e (layerAt e k).mdl

/-- The scratch tables. -/
def IsScratch : Region → Prop
  | .kOft | .sbuf | .sumscale => True
  | _ => False

/-- The stretch is inside its table, if it is one of a table. -/
def InTable (st : Stretch Region) : Prop :=
  IsScratch st.region → st.len = 0 ∨ (0 ≤ st.off ∧ st.off + st.len ≤ objectSize st.region)

/-- **What the tables are meant to be**: every index into one is inside it, and a layer that does not
fit them fails before it does anything. -/
structure ScratchSafe (dev : Device) (f : Outcome) (msg : Msg) (s : Service) : Prop where
  index : ∀ a ∈ (inferred dev f msg s).eng.log, IsScratch a.loc.1 →
    0 ≤ a.loc.2 ∧ a.loc.2 < objectSize a.loc.1
  refused : ∀ k, ReachesConv (s.env dev) k →
    OverLimits (convParams (s.env dev) k) (convIn (s.env dev) k) (convOut (s.env dev) k) →
    replyStatus (serve dev f msg s).trace ≠ some psaSuccess ∧
      ∃ r, r ≠ .ok ∧ ∀ w b ws q, tmlConv2dDwconv2d (s.env dev) (convIn (s.env dev) k)
        (convOut (s.env dev) k) w b (convParams (s.env dev) k) ws q = pure r

section Layers

variable {e : Env} {mdl : TmMdl} {input out : TmMat} {w b ws outp : Ptr} {p : ConvParams}
  {l l' : List (Stretch Region)}

theorem inTable_of_not {st : Stretch Region} (h : ¬IsScratch st.region) : InTable st :=
  fun hs => absurd hs h

theorem inTable_of_le {st : Stretch Region} (h₀ : 0 ≤ st.off)
    (h : st.off + st.len ≤ objectSize st.region) : InTable st := fun _ => Or.inr ⟨h₀, h⟩

/-- The copies of the taps of one channel. -/
theorem tap_inTable {base : Ptr} {n cc k : Nat} (hbase : ¬IsScratch base.region)
    (hk : k < p.maxk) (hcc : cc < n) (hks : p.maxk ≤ tmMaxKsize) (hkc : n * p.maxk ≤ tmMaxKcsize) :
    ∀ st ∈ tapStretches input base p cc k, InTable st := by
  have hidx : cc * p.maxk + k + 1 ≤ n * p.maxk := by
    calc cc * p.maxk + k + 1 ≤ cc * p.maxk + p.maxk := by omega
      _ = (cc + 1) * p.maxk := (Nat.succ_mul _ _).symm
      _ ≤ n * p.maxk := Nat.mul_le_mul_right _ hcc
  simp only [tapStretches, List.forall_mem_cons]
  refine ⟨inTable_of_le ?_ ?_, inTable_of_not hbase, inTable_of_le ?_ ?_,
    fun _ h => absurd h List.not_mem_nil⟩
  · exact Int.natCast_nonneg k
  · show (k : Int) + 1 ≤ tmMaxKsize
    omega
  · show 0 ≤ ((cc * p.maxk : Nat) : Int) + k
    omega
  · show ((cc * p.maxk : Nat) : Int) + k + 1 ≤ tmMaxKcsize
    omega

theorem forall_nil {q : Stretch Region → Prop} : ∀ st ∈ ([] : List (Stretch Region)), q st :=
  fun _ h => absurd h List.not_mem_nil

/-- The window of one pixel. -/
theorem window_inTable {base : Ptr} {n : Nat} {y x : Int} (hbase : ¬IsScratch base.region)
    (hks : p.maxk ≤ tmMaxKsize) (hkc : n * p.maxk ≤ tmMaxKcsize) :
    ∀ st ∈ (if p.slow input y x then padStretches input base n p y x
      else validStretches input base n p), InTable st := by
  split
  · refine List.forall_mem_cons.mpr ⟨inTable_of_le (Int.le_refl 0) ?_, ?_⟩
    · show (0 : Int) + (n * p.maxk : Nat) ≤ tmMaxKcsize
      omega
    · refine forall_mem_rounds.mpr fun cc hcc => forall_mem_rounds.mpr fun j hj =>
        forall_mem_rounds.mpr fun i hi => tap_inTable hbase ?_ hcc hks hkc
      have hy := tap_lt hj
      have hx := tap_lt hi
      calc (tapLo y + j) * p.kw + (tapLo x + i)
          < (tapLo y + j) * p.kw + p.kw := by omega
        _ = (tapLo y + j + 1) * p.kw := (Nat.succ_mul _ _).symm
        _ ≤ p.kh * p.kw := Nat.mul_le_mul_right _ hy
        _ = p.maxk := Nat.mul_comm _ _
  · exact forall_mem_rounds.mpr fun cc hcc => forall_mem_rounds.mpr fun k hk =>
      tap_inTable hbase hk hcc hks hkc

/-- The sum of one channel reads the part of `sbuf` that was filled for it. -/
theorem chan_inTable {c : Nat} (hw : ¬IsScratch w.region) (hb : ¬IsScratch b.region)
    (ho : ¬IsScratch outp.region) (hc : c < out.c) (hkc : p.chans input out * p.maxk ≤ tmMaxKcsize)
    (hcs : out.c ≤ tmMaxCsize) : ∀ st ∈ chanStretches input w b outp p c, InTable st := by
  simp only [chanStretches, List.forall_mem_cons]
  refine ⟨?_, inTable_of_not hw, inTable_of_not hb, inTable_of_le (Int.natCast_nonneg c) ?_,
    inTable_of_not ho, forall_nil⟩
  · by_cases hd : p.dmul ≠ 0
    · have hchans : p.chans input out = out.c := if_pos hd
      have hchi : p.chi input = 1 := if_pos hd
      have hidx : c * p.maxk + p.maxk ≤ tmMaxKcsize := by
        calc c * p.maxk + p.maxk = (c + 1) * p.maxk := (Nat.succ_mul _ _).symm
          _ ≤ out.c * p.maxk := Nat.mul_le_mul_right _ hc
          _ ≤ tmMaxKcsize := hchans ▸ hkc
      rw [if_pos hd, hchi, Nat.mul_one]
      refine inTable_of_le (Int.natCast_nonneg _) ?_
      show ((c * p.maxk : Nat) : Int) + (p.maxk : Nat) ≤ tmMaxKcsize
      omega
    · have hchans : p.chans input out = input.c := if_neg hd
      have hchi : p.chi input = input.c := if_neg hd
      rw [if_neg hd, hchi, Nat.mul_comm]
      refine inTable_of_le (Int.le_refl 0) ?_
      show (0 : Int) + (input.c * p.maxk : Nat) ≤ tmMaxKcsize
      rw [← hchans]
      omega
  · show (c : Int) + 1 ≤ tmMaxCsize
    omega

/-- **A convolution that fits** stays inside the tables. -/
theorem conv_inTable (hin : ¬IsScratch input.data.region) (hout : ¬IsScratch out.data.region)
    (hw : ¬IsScratch w.region) (hb : ¬IsScratch b.region) (hws : ¬IsScratch ws.region)
    (hfit : p.err = .ok → ¬OverLimits p input out) :
    ∀ st ∈ convStretches input out w b p ws, InTable st := by
  unfold convStretches
  by_cases herr : p.err = .ok
  swap
  · rw [if_pos herr]
    exact forall_nil
  obtain ⟨hks, hkc, hcs⟩ : p.maxk ≤ tmMaxKsize ∧ p.chans input out * p.maxk ≤ tmMaxKcsize ∧
      out.c ≤ tmMaxCsize := by
    have h := hfit herr
    simp only [OverLimits, not_or, Nat.not_lt] at h
    exact ⟨h.1, Nat.mul_comm p.maxk _ ▸ h.2.1, h.2.2⟩
  have scales : InTable (.wr .sumscale 0 out.c) := inTable_of_le (Int.le_refl 0) (by
    show (0 : Int) + out.c ≤ tmMaxCsize
    omega)
  rw [if_neg (not_not.mpr herr), List.forall_mem_append]
  refine ⟨List.forall_mem_cons.mpr ⟨inTable_of_not hws,
    List.forall_mem_cons.mpr ⟨scales, forall_nil⟩⟩, ?_⟩
  split
  · refine forall_mem_rounds.mpr fun y _ => forall_mem_rounds.mpr fun x _ => ?_
    simp only [pwStretches, List.forall_mem_cons]
    exact ⟨inTable_of_not hin, inTable_of_not hw, inTable_of_not hb, scales, inTable_of_not hout,
      forall_nil⟩
  · refine List.forall_mem_cons.mpr ⟨inTable_of_le (Int.le_refl 0) ?_, ?_⟩
    · show (0 : Int) + p.maxk ≤ tmMaxKsize
      omega
    · refine forall_mem_rounds.mpr fun y _ => forall_mem_rounds.mpr fun x _ =>
        List.forall_mem_append.mpr ⟨window_inTable hin hks hkc, ?_⟩
      exact forall_mem_rounds.mpr fun c hc => chan_inTable hw hb hout hc hkc hcs

end Layers

/-! ### The run -/

section Walk

variable {e : Env} {q : Walk}

theorem not_scratch_model {p : Ptr} (h : p.region = .model) : ¬IsScratch p.region := by
  rw [h]
  exact id

theorem not_scratch_main {p : Ptr} (h : p.region = .main) : ¬IsScratch p.region := by
  rw [h]
  exact id

/-- The layer of a walk fits the tables, if it is a convolution that passes its checks. -/
def Fits (e : Env) (q : Walk) : Prop :=
  TmLayerType.ofCode (e.word 2 q.mdl.layerBody) = some .conv2d ∨
      TmLayerType.ofCode (e.word 2 q.mdl.layerBody) = some .dwconv2d →
    (e.convAt q.mdl.layerBody).err = .ok →
    ¬OverLimits (e.convAt q.mdl.layerBody) (inputAt e q.mdl q.input) (outputAt e q.mdl)

/-- A layer that fits. -/
theorem layer_inTable (hq : q.InModel) (hfit : Fits e q) :
    ∀ st ∈ layerStretches e q.mdl (inputAt e q.mdl q.input) (outputAt e q.mdl), InTable st := by
  have hl : ∀ off len, InTable (field q.mdl.layerBody off len) := fun off len =>
    inTable_of_not (not_scratch_model hq.layerBody)
  have hin : ¬IsScratch (inputAt e q.mdl q.input).data.region := not_scratch_main hq.next.input
  have hout : ¬IsScratch (outputAt e q.mdl).data.region := not_scratch_main hq.buf
  have hptr : ∀ n : Int, ¬IsScratch (q.mdl.layerBody.add n).region := fun n =>
    not_scratch_model hq.layerBody
  unfold layerStretches
  dsimp only
  split
  · rename_i ht
    refine List.forall_mem_append.mpr ⟨?_, conv_inTable hin hout (hptr _) (hptr _) (hptr _)
      (hfit (Or.inl ht))⟩
    simp only [List.forall_mem_cons]
    exact ⟨hl _ _, hl _ _, hl _ _, hl _ _, hl _ _, forall_nil⟩
  · rename_i ht
    refine List.forall_mem_append.mpr ⟨?_, conv_inTable hin hout (hptr _) (hptr _) (hptr _)
      (hfit (Or.inr ht))⟩
    simp only [List.forall_mem_cons]
    exact ⟨hl _ _, hl _ _, hl _ _, hl _ _, hl _ _, forall_nil⟩
  · refine List.forall_mem_cons.mpr ⟨hl _ _, forall_mem_rounds.mpr fun c _ =>
      List.forall_mem_append.mpr ⟨forall_mem_rounds.mpr fun y _ => forall_mem_rounds.mpr fun x _ =>
        List.forall_mem_cons.mpr ⟨inTable_of_not hin, forall_nil⟩,
        List.forall_mem_cons.mpr ⟨inTable_of_not hout, forall_nil⟩⟩⟩
  · refine List.forall_mem_append.mpr ⟨?_, forall_mem_rounds.mpr fun c _ => ?_⟩
    · simp only [List.forall_mem_cons]
      exact ⟨hl _ _, hl _ _, hl _ _, hl _ _, forall_nil⟩
    · simp only [List.forall_mem_cons]
      have hreg : ¬IsScratch q.mdl.layerBody.region := not_scratch_model hq.layerBody
      exact ⟨inTable_of_not hin, inTable_of_not hreg, inTable_of_not hreg, inTable_of_not hreg,
        inTable_of_not hout, forall_nil⟩
  · simp only [softmaxStretches, List.forall_mem_cons]
    exact ⟨hl _ _, inTable_of_not hin, inTable_of_not hout, inTable_of_not hout,
      inTable_of_not hout, forall_nil⟩
  · exact List.forall_mem_cons.mpr ⟨hl _ _, forall_nil⟩
  · refine List.forall_mem_append.mpr ⟨?_, ?_⟩
    · simp only [List.forall_mem_cons]
      exact ⟨hl _ _, hl _ _, hl _ _, hl _ _, hl _ _, forall_nil⟩
    · simp only [addStretches, List.forall_mem_cons]
      have hreg : ¬IsScratch q.mdl.buf.region := not_scratch_main hq.buf
      exact ⟨inTable_of_not hin, inTable_of_not hreg, inTable_of_not hout, forall_nil⟩
  · exact forall_nil

/-- One round of `tm_run` touches no table but for its layer. -/
theorem one_inTable (hq : q.InModel) (hfit : Fits e q) :
    ∀ st ∈ oneStretches e q.mdl q.input q.outIdx, InTable st := by
  have hl : ∀ off len, InTable (field q.mdl.layerBody off len) := fun off len =>
    inTable_of_not (not_scratch_model hq.layerBody)
  have hout : ¬IsScratch (outputAt e q.mdl).data.region := not_scratch_main hq.buf
  have input : ∀ st ∈ inputStretches q.mdl, InTable st := by
    unfold inputStretches
    split
    · exact List.forall_mem_cons.mpr ⟨hl _ _, List.forall_mem_cons.mpr ⟨hl _ _, forall_nil⟩⟩
    · exact forall_nil
  have scores : ∀ st ∈ scoreStretches e q.mdl, InTable st := by
    unfold scoreStretches
    dsimp only
    split
    · exact forall_nil
    · refine forall_mem_rounds.mpr fun i _ => ?_
      simp only [List.forall_mem_cons]
      exact ⟨inTable_of_not hout, hl _ _, hl _ _, inTable_of_not hout, forall_nil⟩
  have output : ∀ st ∈ outputStretches e q.mdl q.outIdx, InTable st := by
    unfold outputStretches
    split
    · refine List.forall_mem_append.mpr ⟨List.forall_mem_append.mpr ⟨?_, scores⟩, ?_⟩
      · simp only [List.forall_mem_cons]
        exact ⟨hl _ _, hl _ _, inTable_of_not (not_scratch_model hq.b), forall_nil⟩
      · exact List.forall_mem_cons.mpr ⟨inTable_of_not id, forall_nil⟩
    · exact forall_nil
  unfold oneStretches
  refine List.forall_mem_append.mpr ⟨List.forall_mem_append.mpr ⟨List.forall_mem_append.mpr
    ⟨input, ?_⟩, List.forall_mem_cons.mpr ⟨hl _ _, layer_inTable hq hfit⟩⟩, ?_⟩
  · exact List.forall_mem_cons.mpr ⟨hl _ _, List.forall_mem_cons.mpr ⟨hl _ _, forall_nil⟩⟩
  · split
    · exact forall_nil
    · exact List.forall_mem_append.mpr ⟨List.forall_mem_cons.mpr ⟨hl _ _, output⟩,
        List.forall_mem_cons.mpr ⟨hl _ _, forall_nil⟩⟩

/-- **A run whose layers fit** stays inside the tables. -/
theorem run_inTable {n : Nat} (hq : q.InModel)
    (hfit : ∀ k < n, q.Ok e k → Fits e (q.after e k)) :
    ∀ st ∈ q.stretches e n, InTable st := by
  induction n generalizing q with
  | zero => exact forall_nil
  | succ n ih =>
      rw [Walk.stretches, runStretches_succ]
      refine List.forall_mem_append.mpr ⟨one_inTable hq (hfit 0 (Nat.succ_pos n) rfl), ?_⟩
      by_cases herr : layerErr e q.mdl.layerBody = .ok
      · rw [if_neg (not_not.mpr herr)]
        exact ih hq.next fun k hk hok =>
          hfit (k + 1) (Nat.succ_lt_succ hk) (Walk.ok_succ.mpr ⟨herr, hok⟩)
      · rw [if_pos herr]
        exact forall_nil

end Walk

section Request

variable {dev : Device} {h : List (Input × Service)} {s : Service} {f : Outcome} {msg : Msg}

/-- The header and the image of a request are no tables. -/
theorem request_inTable {e : Env} (hfit : ∀ k < layerCnt e loadedMdl, (atStart e).Ok e k →
    Fits e (layerAt e k)) : ∀ st ∈ requestStretches e, InTable st := by
  have run : ∀ st ∈ runStretches e (layerCnt e loadedMdl) loadedMdl (inputMat e) 0, InTable st :=
    run_inTable (q := atStart e) inModel_atStart hfit
  refine List.forall_mem_append.mpr ⟨?_, List.forall_mem_cons.mpr ⟨inTable_of_not id, run⟩⟩
  simp only [preprocessStretches, List.forall_mem_cons]
  exact ⟨inTable_of_not id, inTable_of_not id, inTable_of_not id, inTable_of_not id, forall_nil⟩

/-- **The scratch tables.**  For a loaded model they are safe exactly when every convolution that the
run reaches, and that passes the check of its kernel, fits them. -/
theorem scratch_safe_iff (r : Serves dev h s) (hl : s.gModelLoaded = true)
    (hd : Delivered f msg) :
    ScratchSafe dev f msg s ↔ ∀ k, ReachesConv (s.env dev) k →
      (convParams (s.env dev) k).err = .ok →
      ¬OverLimits (convParams (s.env dev) k) (convIn (s.env dev) k) (convOut (s.env dev) k) := by
  obtain ⟨hmdl, hin⟩ := (r.inStep.2 hl).ready
  constructor
  · rintro ⟨-, refused⟩ k hk herr hover
    obtain ⟨-, c, hc, hcall⟩ := refused k hk hover
    -- a layer that passes its checks returns `ok`
    have runs := @tmlConv2dDwconv2d_runs (s.env dev) (convIn (s.env dev) k) (convOut (s.env dev) k)
      (convParams (s.env dev) k) .null .null (Env.quantAt (s.env dev) .null) .null
    have hres := (runs s.eng trivial).1
    rw [hcall] at hres
    exact hc (hres.trans herr)
  · intro hfit
    have fits : ∀ k < layerCnt (s.env dev) loadedMdl, (atStart (s.env dev)).Ok (s.env dev) k →
        Fits (s.env dev) (layerAt (s.env dev) k) := fun k hk hok hconv =>
      hfit k ⟨⟨hk, hok⟩, hconv⟩
    refine ⟨fun a ha hs => ?_, fun k hk hover => ?_⟩
    · have ha := (mem_inferred_log hmdl hin a).mp ha
      have within : ∀ st ∈ requestStretches (s.env dev), st.Within a.loc.1 (objectSize a.loc.1) := by
        intro st hst hreg
        rw [← hreg] at hs ⊢
        exact request_inTable fits st hst hs
      exact all_cover_within.mpr within a ha rfl
    · have herr : (convParams (s.env dev) k).err ≠ .ok := fun herr => hfit k hk herr hover
      refine ⟨fun hok => ?_, _, herr, fun w b ws q => if_pos herr⟩
      -- the walk does not get past the layer
      have hall := (replyStatus_delivered hl hd hmdl).mp hok
      have hlayer : layerErr (s.env dev) (layerAt (s.env dev) k).mdl.layerBody = .ok :=
        hall.layer hk.lt
      rw [layerErr] at hlayer
      rcases hk.conv with ht | ht
      · rw [ht] at hlayer
        exact herr hlayer
      · rw [ht] at hlayer
        exact herr hlayer

end Request

/-! ### A pointwise convolution -/

/-- A model of one pointwise convolution with `cho` output channels.  The layer has 80 bytes, then
come its scales, its weights and its biases. -/
def pointwiseModel (cho : Nat) : List Byte :=
  [0x4D, 0x41, 0x49, 0x58, 0, 0, 1, 0, 1, 0, 1, 0, 0xB8, 0x05, 0, 0, 0, 0, 0, 0,
    3, 0, 28, 0, 28, 0, 1, 0, 3, 0, 1, 0, 1, 0] ++ leBytes 2 cho ++ List.replicate 28 0 ++
  [0, 0, 1, 0] ++ leBytes 4 (80 + 9 * cho) ++ leBytes 4 0 ++ leBytes 4 784 ++
  [3, 0, 28, 0, 28, 0, 1, 0, 3, 0, 1, 0, 1, 0] ++ leBytes 2 cho ++
  [0, 0, 0x80, 0x3F, 0x80, 0xFF, 0xFF, 0xFF, 0, 0, 0x80, 0x3F, 0x80, 0xFF, 0xFF, 0xFF,
    1, 1, 1, 1, 1, 1, 0, 0, 0, 0, 0, 0, 0, 0, 0, 0, 0, 0, 0, 0] ++
  leBytes 4 80 ++ leBytes 4 (80 + 4 * cho) ++ leBytes 4 (80 + 5 * cho) ++
  (List.replicate cho [0, 0, 0x80, 0x3F]).flatten ++ List.replicate (5 * cho) 0

/-- The service with the model loaded. -/
def pointwiseLoaded (cho : Nat) : Service :=
  serve (deviceWith (pointwiseModel cho)) loadRequest.1 loadRequest.2 boot

theorem delivered_builtIn : Delivered (inferenceRequest 0 []).1 (inferenceRequest 0 []).2 :=
  ⟨rfl, rfl, Or.inr rfl⟩

/-- Sixteen output channels fit. -/
theorem scratch_safe_iff_pointwise :
    (pointwiseLoaded 16).gModelLoaded = true ∧
    ScratchSafe (deviceWith (pointwiseModel 16)) (inferenceRequest 0 []).1
      (inferenceRequest 0 []).2 (pointwiseLoaded 16) := by
  let e := (pointwiseLoaded 16).env (deviceWith (pointwiseModel 16))
  obtain ⟨hl, hcnt, hfit⟩ : (pointwiseLoaded 16).gModelLoaded = true ∧ layerCnt e loadedMdl = 1 ∧
      ¬OverLimits (convParams e 0) (convIn e 0) (convOut e 0) := by decide +kernel
  refine ⟨hl, (scratch_safe_iff (.more rfl (.refl _)) hl delivered_builtIn).mpr ?_⟩
  intro k hk _
  obtain rfl : k = 0 := Nat.lt_one_iff.mp (hcnt ▸ hk.lt)
  exact hfit

/-- **Seventeen do not.**  The layer runs, the request succeeds, and `sumscale` is written behind its
end. -/
theorem sumscale_overrun :
    ∃ s, Reaches (deviceWith (pointwiseModel 17)) [(loadRequest, s)] s ∧
      s.gModelLoaded = true ∧
      Delivered (inferenceRequest 0 []).1 (inferenceRequest 0 []).2 ∧
      replyStatus (serve (deviceWith (pointwiseModel 17)) (inferenceRequest 0 []).1
        (inferenceRequest 0 []).2 s).trace = some psaSuccess ∧
      (∃ a ∈ (inferred (deviceWith (pointwiseModel 17)) (inferenceRequest 0 []).1
        (inferenceRequest 0 []).2 s).eng.log, a.loc.1 = .sumscale ∧
        ¬(0 ≤ a.loc.2 ∧ a.loc.2 < tmMaxCsize)) ∧
      ¬ScratchSafe (deviceWith (pointwiseModel 17)) (inferenceRequest 0 []).1
        (inferenceRequest 0 []).2 s := by
  let e := (pointwiseLoaded 17).env (deviceWith (pointwiseModel 17))
  obtain ⟨hd, hl, hok, hover⟩ : (pointwiseLoaded 17).Defined ∧
      (pointwiseLoaded 17).gModelLoaded = true ∧
      (runResult e (layerCnt e loadedMdl) loadedMdl).1 = .ok ∧
      ¬∀ st ∈ requestStretches e, st.Within .sumscale tmMaxCsize := by decide +kernel
  have r : Reaches (deviceWith (pointwiseModel 17)) [(loadRequest, pointwiseLoaded 17)]
      (pointwiseLoaded 17) := .more (if_pos hd) (.refl _)
  obtain ⟨hmdl, hin⟩ := (r.serves.inStep.2 hl).ready
  obtain ⟨a, ha, hr, hN⟩ := exists_not_within hover
  have ha : a ∈ (inferred (deviceWith (pointwiseModel 17)) (inferenceRequest 0 []).1
      (inferenceRequest 0 []).2 (pointwiseLoaded 17)).eng.log :=
    (mem_inferred_log hmdl hin a).mpr ha
  refine ⟨_, r, hl, delivered_builtIn, (replyStatus_delivered hl delivered_builtIn hmdl).mpr hok,
    ⟨a, ha, hr, hN⟩, fun safe => hN ?_⟩
  have hscratch : IsScratch a.loc.1 := by
    rw [hr]
    exact trivial
  have index := safe.index a ha hscratch
  rw [hr] at index
  exact index

end Partition
