import Pico2wTfm.Echo.Service
import Pico2wTfm.Results.LoadGate

/-!
# Results — Discipline

What the framework demands of a service loop: a message that was got is answered once, on its own
handle, and after the reply the message is not touched.  A read fits its buffer and what is written
fits the output vector.  Both services keep to more than that: they write only what they then answer
with success.

Before the reply a message is either only read (`Calm`), or read and then written to once; the
handlers are taken one by one, and the loop is `ipc_discipline`.
-/

namespace Partition
open Bytes TinyMaix

/-- Cryptographic calls, and reads from the message into a buffer of `room` bytes. -/
def CalmEvent (room : Nat) (msg : Msg) : Event → Prop
  | .crypto _ _ => True
  | .read h n got => h = msg.handle ∧ n ≤ room ∧ got ≤ n
  | .write _ _ | .reply _ _ => False

def Calm (room : Nat) (msg : Msg) (l : List Event) : Prop := ∀ ev ∈ l, CalmEvent room msg ev

/-- What may be done for a message before it is answered with `status`. -/
structure InOrder (room : Nat) (msg : Msg) (status : Int) (l : List Event) : Prop where
  reply : ∀ h st, .reply h st ∉ l
  read : ∀ h n got, .read h n got ∈ l → h = msg.handle ∧ n ≤ room ∧ got ≤ n
  write : ∀ h data, .write h data ∈ l → h = msg.handle ∧ status = psaSuccess
  total : (written l).length ≤ msg.outSize

/-- The message is answered once, last, and in order. -/
def Answered (room : Nat) (msg : Msg) (t : List Event) : Prop :=
  ∃ l status, t = l ++ [.reply msg.handle status] ∧ InOrder room msg status l

section Events

variable {room : Nat} {msg : Msg} {status : Int} {l l' : List Event} {data : List Byte}

theorem Calm.nil : Calm room msg [] := fun _ h => absurd h List.not_mem_nil

theorem Calm.append (h : Calm room msg l) (h' : Calm room msg l') : Calm room msg (l ++ l') := by
  intro ev hev
  rcases List.mem_append.mp hev with hev | hev
  · exact h ev hev
  · exact h' ev hev

theorem Calm.one {ev : Event} (h : CalmEvent room msg ev) : Calm room msg [ev] := by
  intro ev' hev
  obtain rfl := List.mem_singleton.mp hev
  exact h

theorem written_append : written (l ++ l') = written l ++ written l' := List.flatMap_append

theorem Calm.written (h : Calm room msg l) : Partition.written l = [] := by
  induction l with
  | nil => rfl
  | cons ev l ih =>
      have hev := h ev List.mem_cons_self
      have hl := ih fun ev' h' => h ev' (List.mem_cons_of_mem _ h')
      cases ev with
      | crypto c st => exact hl
      | read hd n got => exact hl
      | write hd d => exact absurd hev id
      | reply hd st => exact absurd hev id

theorem Calm.inOrder (h : Calm room msg l) : InOrder room msg status l := by
  refine ⟨fun hd st hm => h _ hm, fun hd n got hm => h _ hm, fun hd d hm => absurd (h _ hm) id, ?_⟩
  rw [h.written]
  exact Nat.zero_le _

/-- One write after the reads, answered with success. -/
theorem Calm.inOrder_write (h : Calm room msg l) (hd : data.length ≤ msg.outSize) :
    InOrder room msg psaSuccess (l ++ [.write msg.handle data]) := by
  refine ⟨fun hd st hm => ?_, fun hd n got hm => ?_, fun hd d hm => ?_, ?_⟩
  · rcases List.mem_append.mp hm with hm | hm
    · exact h _ hm
    · cases List.mem_singleton.mp hm
  · rcases List.mem_append.mp hm with hm | hm
    · exact h _ hm
    · cases List.mem_singleton.mp hm
  · rcases List.mem_append.mp hm with hm | hm
    · exact absurd (h _ hm) id
    · cases List.mem_singleton.mp hm
      exact ⟨rfl, rfl⟩
  · rw [written_append, h.written, List.nil_append]
    simpa [Partition.written] using hd

theorem InOrder.answered (h : InOrder room msg status l) :
    Answered room msg (l ++ [.reply msg.handle status]) := ⟨l, status, rfl, h⟩

end Events

/-! ### The inference service -/

section Handlers

variable {dev : Device} {f : Outcome} {msg : Msg} {s t : Service} {status : Int}

/-- From `s` to `t` only calm events happened. -/
def Service.Calms (msg : Msg) (s t : Service) : Prop :=
  ∃ l, t.trace = s.trace ++ l ∧ Calm 784 msg l

/-- From `s` to `t`, what may come before a reply with `status`. -/
def Service.Ordered (msg : Msg) (status : Int) (s t : Service) : Prop :=
  ∃ l, t.trace = s.trace ++ l ∧ InOrder 784 msg status l

theorem calms_refl : s.Calms msg s := ⟨[], (List.append_nil _).symm, Calm.nil⟩

theorem Service.Calms.emit {ev : Event} (h : s.Calms msg t) (he : CalmEvent 784 msg ev) :
    s.Calms msg (t.emit ev) := by
  obtain ⟨l, ht, hl⟩ := h
  refine ⟨l ++ [ev], ?_, hl.append (Calm.one he)⟩
  show t.trace ++ [ev] = _
  rw [ht, List.append_assoc]

theorem Service.Calms.call {c : CryptoCall} {st : Int} (h : s.Calms msg t) :
    s.Calms msg (t.call c st) := h.emit trivial

theorem Service.Calms.ordered (h : s.Calms msg t) : s.Ordered msg status t := by
  obtain ⟨l, ht, hl⟩ := h
  exact ⟨l, ht, hl.inOrder⟩

theorem Service.Calms.writeIfRoom {data : List Byte} (h : s.Calms msg t) :
    s.Ordered msg psaSuccess (t.writeIfRoom msg data) := by
  rw [Service.writeIfRoom]
  by_cases hd : data.length ≤ msg.outSize
  · obtain ⟨l, ht, hl⟩ := h
    refine ⟨l ++ [.write msg.handle data], ?_, hl.inOrder_write hd⟩
    rw [if_pos hd]
    show t.trace ++ [_] = _
    rw [ht, List.append_assoc]
  · rw [if_neg hd]
    exact h.ordered

/-- A reply after what may come before it. -/
theorem Service.Ordered.reply (h : s.Ordered msg status t) (hs : s.trace = []) :
    Answered 784 msg (t.reply msg status).trace := by
  obtain ⟨l, ht, hl⟩ := h
  have htrace : (t.reply msg status).trace = l ++ [.reply msg.handle status] := by
    show t.trace ++ [_] = _
    rw [ht, hs, List.nil_append]
  rw [htrace]
  exact hl.answered

theorem loadPackage_calms : s.Calms msg (loadPackage dev f s).2 := by
  have keeps : s.Calms msg (decryptModel dev f dev.package s).2 :=
    decryptModel_keeps (p := fun t => s.Calms msg t) (fun _ _ _ h => h.call) (fun _ _ _ h => h)
      (fun _ _ h => h) (fun _ _ h => h) calms_refl
  exact guard_keeps (p := fun t => s.Calms msg t) calms_refl keeps

theorem loadModel_calms : s.Calms msg (loadModel dev f s).2 := by
  have key : s.Calms msg (loadPackage dev f s).2 := loadPackage_calms
  rw [loadModel_eq]
  split_ifs
  · exact key
  · exact key
  · exact key

theorem handleLoad_answered (hs : s.trace = []) :
    Answered 784 msg (handleLoad dev f msg s).trace := by
  have key : s.Calms msg (loadModel dev f s).2 := loadModel_calms
  have ordered : s.Ordered msg (loadModel dev f s).1
      (if (loadModel dev f s).1 = psaSuccess then
        (loadModel dev f s).2.writeIfRoom msg (leBytes 4 0) else (loadModel dev f s).2) := by
    by_cases hok : (loadModel dev f s).1 = psaSuccess
    · rw [if_pos hok, hok]
      exact key.writeIfRoom
    · rw [if_neg hok]
      exact key.ordered
  exact ordered.reply hs

theorem runModel_ordered (h : s.Calms msg t) :
    s.Ordered msg (runModel dev msg t).1 (runModel dev msg t).2 := by
  rw [runModel_eq]
  by_cases hrun : (tmRunCall dev t).1.1 ≠ .ok
  · rw [if_pos hrun]
    exact Service.Calms.ordered (t := ran dev t) h
  · rw [if_neg hrun]
    exact Service.Calms.writeIfRoom (t := (parseCall dev (ran dev t)).2) h

theorem classify_ordered (h : s.Calms msg t) :
    s.Ordered msg (classify dev msg t).1 (classify dev msg t).2 := by
  rw [classify_def]
  by_cases hpre : (tmPreprocessCall dev (t.setInUint8 imageMat)).1.1 ≠ .ok
  · rw [if_pos hpre]
    exact Service.Calms.ordered (t := afterPreprocess dev (t.setInUint8 imageMat)) h
  · rw [if_neg hpre]
    exact runModel_ordered (t := afterPreprocess dev (t.setInUint8 imageMat)) h

theorem runInference_ordered :
    s.Ordered msg (runInference dev f msg s).1 (runInference dev f msg s).2 := by
  rw [runInference]
  by_cases hl : s.gModelLoaded = false
  · rw [if_pos hl]
    exact calms_refl.ordered
  rw [if_neg hl]
  by_cases hn : msg.inSize = 28 * 28
  · -- the image goes into `mnist_pic`, which has its size
    have hread : s.Calms msg (readImage msg (min f.readLen msg.inSize) s) :=
      Service.Calms.emit (t := s.writePic _) calms_refl ⟨rfl, hn.le, Nat.min_le_right _ _⟩
    rw [if_pos hn]
    dsimp only
    by_cases hgot : min f.readLen msg.inSize ≠ msg.inSize
    · rw [if_pos hgot]
      exact hread.ordered
    · rw [if_neg hgot]
      exact classify_ordered hread
  rw [if_neg hn]
  by_cases h0 : msg.inSize = 0
  · rw [if_pos h0]
    exact classify_ordered calms_refl
  · rw [if_neg h0]
    exact calms_refl.ordered

theorem handleGetModelKey_answered (hs : s.trace = []) :
    Answered 784 msg (handleGetModelKey dev f msg s).trace := by
  rw [handleGetModelKey]
  by_cases hroom : msg.outSize < derivedKeyLen
  · rw [if_pos hroom]
    exact calms_refl.ordered.reply hs
  have key : s.Calms msg (deriveKeyFromHuk dev f getModelKeyHukLabel (fun _ => 0) s).2.2 :=
    deriveKeyFromHuk_keeps (p := fun t => s.Calms msg t) (fun _ _ _ h => h.call) calms_refl
  rw [if_neg hroom]
  dsimp only
  obtain ⟨r, hr⟩ : ∃ r, r = deriveKeyFromHuk dev f getModelKeyHukLabel (fun _ => 0) s := ⟨_, rfl⟩
  rw [← hr] at key ⊢
  by_cases hok : r.1 = psaSuccess
  · -- the whole key is written, and there is room for it
    have hlen : (List.ofFn r.2.1).length ≤ msg.outSize := by
      rw [List.length_ofFn]
      exact not_lt.mp hroom
    have hw := @Service.Calms.writeIfRoom _ _ _ (List.ofFn r.2.1) key
    rw [Service.writeIfRoom, if_pos hlen] at hw
    rw [if_pos hok, hok]
    exact hw.reply hs
  · rw [if_neg hok]
    exact key.ordered.reply hs

/-- **A round of the inference service.** -/
theorem serve_answered (hget : f.get = psaSuccess) :
    Answered 784 msg (serve dev f msg s).trace := by
  have hs : s.fresh.trace = [] := rfl
  have plain : ∀ st, Answered 784 msg (s.fresh.reply msg st).trace := fun st =>
    Service.Ordered.reply (calms_refl.ordered : s.fresh.Ordered msg st s.fresh) hs
  rw [serve, if_neg (not_not.mpr hget), handle]
  split_ifs
  · exact plain _
  · exact handleLoad_answered hs
  · exact runInference_ordered.reply hs
  · exact handleGetModelKey_answered hs
  · exact plain _
  · exact plain _

end Handlers

end Partition

/-! ### The echo service -/

namespace Echo
open Bytes Partition

/-- **A round of the echo service.** -/
theorem round_answered {f : Delivery} {msg : Msg} (hget : f.get = psaSuccess) :
    Answered tfmEchoMaxDataSize msg (round f msg) := by
  rw [round, if_neg (not_not.mpr hget)]
  by_cases ht : msg.type = psaIpcCall
  swap
  · rw [if_neg ht]
    exact Calm.nil.inOrder.answered
  rw [if_pos ht, echoed]
  by_cases hmax : tfmEchoMaxDataSize < msg.inSize
  · rw [if_pos hmax]
    exact Calm.nil.inOrder.answered
  by_cases hroom : msg.outSize < msg.inSize
  · rw [if_neg hmax, if_pos hroom]
    exact Calm.nil.inOrder.answered
  rw [if_neg hmax, if_neg hroom]
  by_cases hread : f.readLen < msg.inSize
  · rw [if_pos hread]
    have h : Calm tfmEchoMaxDataSize msg [.read msg.handle msg.inSize f.readLen] :=
      Calm.one ⟨rfl, not_lt.mp hmax, hread.le⟩
    exact h.inOrder.answered
  · rw [if_neg hread]
    have h : Calm tfmEchoMaxDataSize msg [.read msg.handle msg.inSize msg.inSize] :=
      Calm.one ⟨rfl, not_lt.mp hmax, le_rfl⟩
    exact (h.inOrder_write (not_lt.mp hroom)).answered

/-- A round of the echo service, whatever is in its buffers. -/
def serveStep (s : EchoService) (i : Delivery × Msg) : Option EchoService :=
  some (serve i.1 i.2 s)

/-- **IPC discipline.**  In every run of either service, with any messages and any outcomes of the
calls, each message that was got is answered once, last, and in order; nothing is done where none
was got. -/
theorem ipc_discipline :
    (∀ (dev : Device) (h : List (Input × Service)) (s : Service), Serves dev h s → ∀ a ∈ h,
      (a.1.1.get ≠ psaSuccess → a.2.trace = []) ∧
      (a.1.1.get = psaSuccess → Answered 784 a.1.2 a.2.trace)) ∧
    (∀ (s s' : EchoService) (h : List ((Delivery × Msg) × EchoService)),
      Run.Steps serveStep s h s' → ∀ a ∈ h,
      (a.1.1.get ≠ psaSuccess → a.2.trace = []) ∧
      (a.1.1.get = psaSuccess → Answered tfmEchoMaxDataSize a.1.2 a.2.trace)) := by
  constructor
  · intro dev h s r
    refine r.forall (I := fun _ => True) (p := fun i s' =>
      (i.1.get ≠ psaSuccess → s'.trace = []) ∧
        (i.1.get = psaSuccess → Answered 784 i.2 s'.trace)) (fun s i s' e _ => ?_) trivial
    obtain rfl := Option.some.inj e
    refine ⟨trivial, fun hget => ?_, fun hget => serve_answered hget⟩
    rw [Partition.serve, if_pos hget]
    rfl
  · intro s s' h r
    refine r.forall (I := fun _ => True) (p := fun i s' =>
      (i.1.get ≠ psaSuccess → s'.trace = []) ∧
        (i.1.get = psaSuccess → Answered tfmEchoMaxDataSize i.2 s'.trace))
      (fun s i s' e _ => ?_) trivial
    obtain rfl := Option.some.inj e
    rw [serve_trace]
    refine ⟨trivial, fun hget => ?_, fun hget => round_answered hget⟩
    rw [round, if_pos hget]

/-- A `LOAD` and an image of bright pixels at the inference service; a call of three bytes and one
that is cut short at the echo service. -/
theorem ipc_discipline_both :
    (∃ s t, Serves (deviceWith reshapeModel)
        [(loadRequest, s), (inferenceRequest 784 (List.replicate 784 200), t)] t ∧
      written t.trace = leBytes 4 0 ∧ Answered 784 loadRequest.2 s.trace ∧
      Answered 784 (inferenceRequest 784 (List.replicate 784 200)).2 t.trace) ∧
    ∃ s t, Run.Steps serveStep ⟨fun _ => 1, fun _ => 2, []⟩
        [((⟨psaSuccess, 3⟩, ⟨psaIpcCall, 1, [7, 8, 9], 3⟩), s),
          ((⟨psaSuccess, 2⟩, ⟨psaIpcCall, 1, [7, 8, 9], 3⟩), t)] t ∧
      written s.trace = [7, 8, 9] ∧ written t.trace = [] ∧
      Answered tfmEchoMaxDataSize ⟨psaIpcCall, 1, [7, 8, 9], 3⟩ s.trace ∧
      Answered tfmEchoMaxDataSize ⟨psaIpcCall, 1, [7, 8, 9], 3⟩ t.trace := by
  obtain ⟨partition, echo⟩ := ipc_discipline
  constructor
  · have run : Serves (deviceWith reshapeModel) _ _ := .more (i := loadRequest) rfl
      (.more (i := inferenceRequest 784 (List.replicate 784 200)) rfl (.refl _))
    have hall := partition _ _ _ run
    refine ⟨_, _, run, by decide +kernel, ?_, ?_⟩
    · exact (hall _ List.mem_cons_self).2 rfl
    · exact (hall _ (List.mem_cons_of_mem _ List.mem_cons_self)).2 rfl
  · have run : Run.Steps serveStep ⟨fun _ => 1, fun _ => 2, []⟩ _ _ := .more
      (i := (⟨psaSuccess, 3⟩, ⟨psaIpcCall, 1, [7, 8, 9], 3⟩)) rfl
      (.more (i := (⟨psaSuccess, 2⟩, ⟨psaIpcCall, 1, [7, 8, 9], 3⟩)) rfl (.refl _))
    have hall := echo _ _ _ run
    refine ⟨_, _, run, ?_, ?_, (hall _ List.mem_cons_self).2 rfl,
      (hall _ (List.mem_cons_of_mem _ List.mem_cons_self)).2 rfl⟩
    · rw [serve_trace]
      rfl
    · rw [serve_trace]
      rfl

end Echo
