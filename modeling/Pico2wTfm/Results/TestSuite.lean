import Pico2wTfm.Nspe.TinymaixTest
import Pico2wTfm.Results.Contract

/-!
# Results — TestSuite

The test suite of the application, from the contract of the service.  Each of its three calls is a
connection, a call and the end of the connection, with messages of others in between; on the machine
of the contract these are just more messages (`Labels.among_view`).

* `test_suite`: on a device that is built with the shipped model, in every state that the service can
  reach, and whatever others do who send no image and whose calls succeed, the suite loads the model and
  reports the class of the picture, twice: its third test, which draws an image of its own, cannot
  fail on account of that image, nor report it.
-/

namespace Partition
open Bytes TinyMaix

/-! ### The machine -/

section Machine

variable {c : Contract} {v : View} {i : Input} {is : List Input}

/-- If the message is a `LOAD`, it succeeds. -/
def Contract.Loads (c : Contract) (i : Input) : Prop := IsLoad i → c.load i.1 = psaSuccess

/-- The message brings no image. -/
def BringsNone (i : Input) : Prop := i.2.type = tinymaixIpcRunInference → i.2.inSize ≠ 28 * 28

@[simp] theorem Contract.infer_loaded {f : Outcome} {msg : Msg} :
    (c.infer f msg v).loaded = v.loaded := by
  unfold Contract.infer Contract.classified
  dsimp only
  split_ifs <;> rfl

theorem Contract.infer_picture {f : Outcome} {msg : Msg} (hn : msg.inSize ≠ 28 * 28) :
    (c.infer f msg v).picture = v.picture := by
  rw [Contract.infer, if_neg hn]
  unfold Contract.classified
  split_ifs <;> rfl

@[simp] theorem Contract.reveal_loaded {f : Outcome} {msg : Msg} :
    (c.reveal f msg v).loaded = v.loaded := by
  unfold Contract.reveal
  split
  · rfl
  · split <;> rfl

@[simp] theorem Contract.reveal_picture {f : Outcome} {msg : Msg} :
    (c.reveal f msg v).picture = v.picture := by
  unfold Contract.reveal
  split
  · rfl
  · split <;> rfl

/-- A model that is loaded stays loaded. -/
theorem Contract.step_loaded (hi : c.Loads i) (hv : v.loaded = true) :
    (c.step v i).loaded = true := by
  unfold Contract.step
  split_ifs with hget hends hload hrun hkey
  · exact hv
  · exact hv
  · exact decide_eq_true (hi ⟨not_not.mp hget, hload⟩)
  · rwa [Contract.infer_loaded]
  · rwa [Contract.reveal_loaded]
  · exact hv

theorem Contract.run_loaded (hi : ∀ i ∈ is, c.Loads i) (hv : v.loaded = true) :
    (c.run v is).loaded = true := by
  induction is generalizing v with
  | nil => exact hv
  | cons i is ih =>
      obtain ⟨hi, his⟩ := List.forall_mem_cons.mp hi
      exact ih his (c.step_loaded hi hv)

/-- Without an image the picture stays. -/
theorem Contract.step_picture (hi : BringsNone i) : (c.step v i).picture = v.picture := by
  unfold Contract.step
  split_ifs with hget hends hload hrun hkey
  · rfl
  · rfl
  · rfl
  · exact c.infer_picture (hi hrun)
  · exact c.reveal_picture
  · rfl

theorem Contract.run_picture (hi : ∀ i ∈ is, BringsNone i) : (c.run v is).picture = v.picture := by
  induction is generalizing v with
  | nil => rfl
  | cons i is ih =>
      obtain ⟨hi, his⟩ := List.forall_mem_cons.mp hi
      exact (ih his).trans (c.step_picture hi)

end Machine

/-! ### A call, among others -/

/-- What is seen when the message of a call arrives. -/
def Contract.atCall (c : Contract) (w : Link × Others) (v : View) : View :=
  c.run (c.step (c.run v w.2.before) (w.1.connect, connectMsg w.1.handle)) w.2.connected

/-- What is seen when the connection is closed. -/
def Contract.atClose (c : Contract) (w : Link × Others) (v : View) : View :=
  c.step (c.run v w.2.called) (w.1.close, disconnectMsg w.1.handle)

section Calls

variable {dev : Device} {label : (Nat → Byte) → Int} {m : List Byte} {h : List (Input × Service)}
  {s : Service} {w : Link × Others}

/-- The service is in a state that it can reach, and is seen as `v`. -/
def Seen (dev : Device) (v : View) (s : Service) : Prop := (∃ h, Serves dev h s) ∧ s.view = v

variable {v : View} (hc : Labels dev label) (hb : Built dev m) (hlen : 20 ≤ m.length)
include hc hb hlen

theorem Seen.serve (hs : Seen dev v s) (i : Input) :
    Seen dev ((contractOf dev label).step v i) (serve dev i.1 i.2 s) := by
  obtain ⟨⟨h, r⟩, rfl⟩ := hs
  exact ⟨⟨_, r.trans (.more rfl (.refl _))⟩, hc.step_view hb hlen r i⟩

theorem Seen.serveAll (hs : Seen dev v s) (is : List Input) :
    Seen dev ((contractOf dev label).run v is) (serveAll dev s is) := by
  induction is generalizing v s with
  | nil => exact hs
  | cons i is ih => exact ih (hs.serve hc hb hlen i)

/-- **A call, among others**: what the wrapper makes of what the machine answers. -/
theorem Seen.among {α : Type} (hs : Seen dev v s) (hpos : 0 < w.1.handle) {type st : Int}
    {out : List Byte} (k : Int → List Byte → α) (refused : α) {u : View}
    (hu : (contractOf dev label).step ((contractOf dev label).atCall w v)
      (w.1.call, ⟨type, w.1.handle, [], out.length⟩) = u) (hst : u.status = some st) :
    ∃ s', withServiceAmong dev w.1 w.2 type out k refused s =
        some (k st (u.data ++ out.drop u.data.length), s') ∧
      Seen dev ((contractOf dev label).atClose w u) s' := by
  have before := hs.serveAll hc hb hlen w.2.before
  have connected := (before.serve hc hb hlen (w.1.connect, connectMsg w.1.handle)).serveAll hc hb hlen
    w.2.connected
  have called := connected.serve hc hb hlen (w.1.call, ⟨type, w.1.handle, [], out.length⟩)
  rw [← Contract.atCall, hu] at called
  have closed := (called.serveAll hc hb hlen w.2.called).serve hc hb hlen
    (w.1.close, disconnectMsg w.1.handle)
  obtain ⟨-, hview⟩ := called
  have hstatus : replyStatus (Partition.serve dev w.1.call ⟨type, w.1.handle, [], out.length⟩
      (Partition.serveAll dev (Partition.serve dev w.1.connect (connectMsg w.1.handle)
        (Partition.serveAll dev s w.2.before)) w.2.connected)).trace = some st :=
    (congrArg View.status hview).trans hst
  refine ⟨_, ?_, closed⟩
  rw [withServiceAmong]
  dsimp only
  rw [if_neg (not_le.mpr hpos), psaCall, hstatus, ← hview]
  rfl

end Calls

/-! ### The suite -/

/-- The index of a largest score is one of the scores, or -1. -/
theorem argmax_range {α : Type*} {lt : α → α → Bool} {x : α} {score : Nat → α} (n : Nat) :
    -1 ≤ (Argmax.argmax lt x score n).2 ∧ (Argmax.argmax lt x score n).2 < n := by
  induction n with
  | zero => exact ⟨le_rfl, neg_one_lt_zero⟩
  | succ n ih =>
      rw [Argmax.argmax]
      split
      · dsimp only
        omega
      · omega

theorem toI32_mnistClass {fl : FloatOps} {image : Nat → Byte} :
    toI32 (BitVec.ofInt 32 (mnistClass fl image)).toNat = mnistClass fl image := by
  obtain ⟨hlo, hhi⟩ : -1 ≤ mnistClass fl image ∧ mnistClass fl image < (10 : Nat) := argmax_range 10
  rw [toI32, BitVec.ofNat_toNat, BitVec.setWidth_eq, BitVec.toInt_ofInt]
  exact Int.bmod_eq_of_le (by omega) (by omega)

/-- The suite meets a framework that works. -/
structure Meets.Works (w : Meets) : Prop where
  handles : 0 < w.load.1.handle ∧ 0 < w.builtIn.1.handle ∧ 0 < w.custom.1.handle
  gets : w.load.1.call.get = psaSuccess ∧ w.builtIn.1.call.get = psaSuccess ∧
    w.custom.1.call.get = psaSuccess
  decrypts : w.load.1.call.DecryptOk

def Others.all (o : Others) : List Input := o.before ++ o.connected ++ o.called

/-- What others send. -/
def Meets.others (w : Meets) : List Input :=
  w.load.2.all ++ w.builtIn.2.all ++ w.custom.2.all

section Suite

variable {dev : Device} {h : List (Input × Service)} {s : Service} {v : View} {l : Link × Others}

/-- A message of others that is no image, and whose calls succeed if it is a `LOAD`. -/
def Harmless (i : Input) : Prop := (IsLoad i → i.1.DecryptOk) ∧ BringsNone i

theorem harmless_of_type {i : Input} (hl : i.2.type ≠ tinymaixIpcLoadEncryptedModel)
    (hr : i.2.type ≠ tinymaixIpcRunInference) : Harmless i :=
  ⟨fun hi => absurd hi.2 hl, fun ht => absurd ht hr⟩

theorem harmless_connect (f : Outcome) (handle : Int) : Harmless (f, connectMsg handle) :=
  harmless_of_type (show psaIpcConnect ≠ _ by decide) (show psaIpcConnect ≠ _ by decide)

theorem harmless_disconnect (f : Outcome) (handle : Int) : Harmless (f, disconnectMsg handle) :=
  harmless_of_type (show psaIpcDisconnect ≠ _ by decide) (show psaIpcDisconnect ≠ _ by decide)

section Machine

variable {c : Contract} (hload : ∀ f, c.load f = psaSuccess ↔ f.DecryptOk)

theorem atCall_picture (ho : ∀ i ∈ l.2.all, Harmless i) : (c.atCall l v).picture = v.picture := by
  have hin : ∀ is, (∀ i ∈ is, i ∈ l.2.all) → ∀ v : View, (c.run v is).picture = v.picture :=
    fun is his v => c.run_picture fun i hi => (ho i (his i hi)).2
  rw [Contract.atCall, hin _ fun i hi => List.mem_append_left _ (List.mem_append_right _ hi),
    c.step_picture (harmless_connect _ _).2,
    hin _ fun i hi => List.mem_append_left _ (List.mem_append_left _ hi)]

theorem atClose_picture (ho : ∀ i ∈ l.2.all, Harmless i) : (c.atClose l v).picture = v.picture := by
  rw [Contract.atClose, c.step_picture (harmless_disconnect _ _).2]
  exact c.run_picture fun i hi => (ho i (List.mem_append_right _ hi)).2

include hload

theorem Harmless.loads {i : Input} (hi : Harmless i) : c.Loads i := fun h => (hload i.1).mpr (hi.1 h)

theorem atCall_loaded (ho : ∀ i ∈ l.2.all, Harmless i) (hv : v.loaded = true) :
    (c.atCall l v).loaded = true := by
  refine c.run_loaded (fun i hi => ?_) (c.step_loaded ((harmless_connect _ _).loads hload)
    (c.run_loaded (fun i hi => ?_) hv))
  · exact (ho i (List.mem_append_left _ (List.mem_append_right _ hi))).loads hload
  · exact (ho i (List.mem_append_left _ (List.mem_append_left _ hi))).loads hload

theorem atClose_loaded (ho : ∀ i ∈ l.2.all, Harmless i) (hv : v.loaded = true) :
    (c.atClose l v).loaded = true :=
  c.step_loaded ((harmless_disconnect _ _).loads hload)
    (c.run_loaded (fun i hi => (ho i (List.mem_append_right _ hi)).loads hload) hv)

end Machine

/-- How the suite ends with the class `k` for the picture. -/
def verdict (k : Int) : TestResult :=
  if k < 0 then .builtInFailed .errorInferenceFailed else .passed (some k) (some k)

/-- A `LOAD` that reaches the machine. -/
theorem Contract.step_load {c : Contract} {f : Outcome} {msg : Msg} (hget : f.get = psaSuccess)
    (ht : msg.type = tinymaixIpcLoadEncryptedModel) (hok : c.load f = psaSuccess)
    (hroom : 4 ≤ msg.outSize) :
    c.step v (f, msg) = { v with loaded := true }.answer psaSuccess (leBytes 4 0) := by
  have hno : ¬(msg.type = psaIpcConnect ∨ msg.type = psaIpcDisconnect) := by
    rw [ht]
    decide
  rw [Contract.step]
  dsimp only
  rw [if_neg (not_not.mpr hget), if_neg hno, if_pos ht, Contract.reload, hok, if_pos ⟨rfl, hroom⟩]
  rfl

/-- A request without an image that reaches the machine. -/
theorem Contract.step_infer {c : Contract} {f : Outcome} {msg : Msg} (hget : f.get = psaSuccess)
    (ht : msg.type = tinymaixIpcRunInference) (h0 : msg.inSize = 0) (hl : v.loaded = true) :
    c.step v (f, msg) = c.classified msg v := by
  have hno : ¬(msg.type = psaIpcConnect ∨ msg.type = psaIpcDisconnect) := by
    rw [ht]
    decide
  have hl' : ¬v.loaded = false := ne_of_eq_of_ne hl (by decide)
  have hn : ¬msg.inSize = 28 * 28 := by
    rw [h0]
    decide
  rw [Contract.step]
  dsimp only
  rw [if_neg (not_not.mpr hget), if_neg hno, ht, if_neg (by decide), if_pos rfl, Contract.infer,
    if_neg hl', if_neg hn, if_pos h0]

/-- **The call that loads the model.** -/
theorem Seen.load (hb : Built dev mdlData) (hs : Seen dev v s) (hpos : 0 < l.1.handle)
    (hget : l.1.call.get = psaSuccess) (hf : l.1.call.DecryptOk)
    (ho : ∀ i ∈ l.2.all, Harmless i) :
    ∃ v' s', loadAmong dev l.1 l.2 s = some (.success, s') ∧ Seen dev v' s' ∧
      v'.loaded = true ∧ v'.picture = v.picture := by
  have hlen : 20 ≤ mdlData.length := by
    rw [length_mdlData]
    decide
  obtain ⟨c, hc⟩ : ∃ c, c = contractOf dev (mnistClass dev.fl) := ⟨_, rfl⟩
  have hload : ∀ f, c.load f = psaSuccess ↔ f.DecryptOk := hc ▸ load_mnist hb
  have hu := @Contract.step_load (c.atCall l v) c l.1.call
    ⟨tinymaixIpcLoadEncryptedModel, l.1.handle, [], (leBytes 4 1).length⟩ hget rfl
    ((hload _).mpr hf) (length_leBytes 4 1).ge
  rw [hc] at hu
  obtain ⟨s', hcall, seen⟩ := hs.among (labels_mnist hb) hb hlen hpos
    (fun status out => if status ≠ psaSuccess ∨ leValue out ≠ 0 then
      TfmTinymaixStatus.errorModelLoadFailed else .success) .errorGeneric hu rfl
  rw [← hc] at seen
  refine ⟨_, s', hcall.trans ?_, seen, atClose_loaded hload ho rfl, ?_⟩
  · rfl
  · exact (atClose_picture ho).trans (atCall_picture ho)

/-- **A call for a class.** -/
theorem Seen.infer (hb : Built dev mdlData) (hs : Seen dev v s) (hl : v.loaded = true)
    (hpos : 0 < l.1.handle) (hget : l.1.call.get = psaSuccess) (ho : ∀ i ∈ l.2.all, Harmless i)
    (data : Option (List Byte)) (n : Nat) (c₀ : Int) :
    ∃ v' s', inferAmong dev l.1 l.2 data n c₀ s =
        some (apiResult c₀ (some (mnistClass dev.fl fun i => v.picture.getD i 0)), s') ∧
      Seen dev v' s' ∧ v'.loaded = true ∧ v'.picture = v.picture := by
  have hlen : 20 ≤ mdlData.length := by
    rw [length_mdlData]
    decide
  obtain ⟨c, hc⟩ : ∃ c, c = contractOf dev (mnistClass dev.fl) := ⟨_, rfl⟩
  have hload : ∀ f, c.load f = psaSuccess ↔ f.DecryptOk := hc ▸ load_mnist hb
  have hu := @Contract.step_infer (c.atCall l v) c l.1.call
    ⟨tinymaixIpcRunInference, l.1.handle, [], (leBytes 4 (2 ^ 32 - 1)).length⟩ hget rfl rfl
    (atCall_loaded hload ho hl)
  rw [hc] at hu
  obtain ⟨s', hcall, seen⟩ := hs.among (labels_mnist hb) hb hlen hpos
    (inferenceResult (some c₀)) (.errorGeneric, some c₀) hu rfl
  rw [← hc] at seen hcall
  have hdata : ∀ msg : Msg, 4 ≤ msg.outSize → (c.classified msg (c.atCall l v)).data =
      leBytes 4 (BitVec.ofInt 32 (mnistClass dev.fl fun i => v.picture.getD i 0)).toNat := by
    intro msg hroom
    have heq := @classified_eq dev (mnistClass dev.fl) msg _ _ (@atCall_picture v l c ho)
    rw [← hc, if_pos hroom] at heq
    exact congrArg View.data heq
  refine ⟨_, s', hcall.trans ?_, seen, atClose_loaded hload ho (atCall_loaded hload ho hl), ?_⟩
  · rw [hdata _ (length_leBytes 4 _).ge, inferenceResult_success, length_leBytes,
      List.drop_of_length_le (length_leBytes 4 _).le, List.append_nil,
      leValue_leBytes_of_lt (BitVec.isLt _), toI32_mnistClass]
  · exact (atClose_picture ho).trans (atCall_picture ho)

/-- **The test suite of the application.**  On a device that is built with the shipped model, in any
state of the service, among others who send no image and whose `LOAD`s go through: the suite loads the
model, and asks for two classes.  Both times it is that of the picture in the service, whatever image
the suite has drawn; it fails, at the second test, exactly when the picture has no class. -/
theorem test_suite (hb : Built dev mdlData) (r : Serves dev h s) {w : Meets} (hw : w.Works)
    (ho : ∀ i ∈ w.others, Harmless i) :
    ∃ s', testTinymaixBasicFunctionality dev w s =
      some (verdict (mnistClass dev.fl fun i => s.picture.getD i 0), s') := by
  have hs : Seen dev s.view s := ⟨⟨h, r⟩, rfl⟩
  have ho₁ : ∀ i ∈ w.load.2.all, Harmless i := fun i hi =>
    ho i (List.mem_append_left _ (List.mem_append_left _ hi))
  have ho₂ : ∀ i ∈ w.builtIn.2.all, Harmless i := fun i hi =>
    ho i (List.mem_append_left _ (List.mem_append_right _ hi))
  have ho₃ : ∀ i ∈ w.custom.2.all, Harmless i := fun i hi => ho i (List.mem_append_right _ hi)
  obtain ⟨v₁, s₁, h₁, hs₁, hl₁, hp₁⟩ := hs.load hb hw.handles.1 hw.gets.1 hw.decrypts ho₁
  obtain ⟨v₂, s₂, h₂, hs₂, hl₂, hp₂⟩ := hs₁.infer hb hl₁ hw.handles.2.1 hw.gets.2.1 ho₂ none 0 (-1)
  obtain ⟨k, hk⟩ : ∃ k, k = mnistClass dev.fl fun i => s.picture.getD i 0 := ⟨_, rfl⟩
  rw [hp₁, view_picture, ← hk] at h₂
  rw [← hk, testTinymaixBasicFunctionality, h₁, verdict]
  simp only [Option.bind_eq_bind, Option.bind_some]
  rw [if_neg (not_not.mpr rfl), h₂, Option.bind_some, apiResult]
  by_cases hneg : k < 0
  · rw [if_pos hneg, if_pos hneg]
    exact ⟨s₂, rfl⟩
  · obtain ⟨v₃, s₃, h₃, -, -, -⟩ := hs₂.infer hb hl₂ hw.handles.2.2 hw.gets.2.2 ho₃
      (some customImage) customImage.length k
    rw [hp₂, hp₁, view_picture, ← hk, apiResult, if_neg hneg] at h₃
    rw [if_neg hneg, if_neg hneg]
    dsimp only
    rw [if_neg (not_not.mpr rfl), Option.getD_some, h₃, Option.bind_some]
    exact ⟨s₃, rfl⟩

end Suite

/-- The suite on links that work, among others who connect, load the model, ask for its key, and
classify the picture that is there. -/
def crowd : Meets where
  load := (goodLink, ⟨[(.success, connectMsg 2)], [loadRequest], [inferenceRequest 0 []]⟩)
  builtIn := (goodLink, ⟨[(.success, ⟨tinymaixIpcGetModelKey, 2, [], 16⟩)], [],
    [(.success, disconnectMsg 2)]⟩)
  custom := (goodLink, ⟨[], [inferenceRequest 0 [], loadRequest], []⟩)

theorem works_crowd : crowd.Works :=
  ⟨⟨by decide, by decide, by decide⟩, ⟨rfl, rfl, rfl⟩, Outcome.cryptoOk_success.decryptOk⟩

theorem harmless_crowd : ∀ i ∈ crowd.others, Harmless i := by
  have hload : Harmless loadRequest :=
    ⟨fun _ => Outcome.cryptoOk_success.decryptOk, fun ht => absurd ht (by decide)⟩
  have hinfer : Harmless (inferenceRequest 0 []) :=
    ⟨fun hi => absurd hi.2 (by decide), fun _ => by decide⟩
  have hkey : Harmless (.success, ⟨tinymaixIpcGetModelKey, 2, [], 16⟩) :=
    harmless_of_type (show tinymaixIpcGetModelKey ≠ _ by decide)
      (show tinymaixIpcGetModelKey ≠ _ by decide)
  intro i hi
  simp only [crowd, Meets.others, Others.all, List.nil_append, List.append_nil, List.cons_append,
    List.mem_cons, List.not_mem_nil, or_false] at hi
  rcases hi with rfl | rfl | rfl | rfl | rfl | rfl | rfl
  · exact harmless_connect _ _
  · exact hload
  · exact hinfer
  · exact hkey
  · exact harmless_disconnect _ _
  · exact hinfer
  · exact hload

/-- The suite in that crowd, after a client whose image is still there. -/
theorem test_suite_crowd : ∃ s', testTinymaixBasicFunctionality mnistDevice crowd cornerSeen =
    some (verdict (mnistClass mnistDevice.fl fun i => cornerSeen.picture.getD i 0), s') :=
  test_suite built_mnistDevice serves_cornerSeen works_crowd harmless_crowd

end Partition
