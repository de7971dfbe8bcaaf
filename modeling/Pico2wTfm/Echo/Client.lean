import Pico2wTfm.Echo.Service

/-!
# Echo — Client

`tfm_echo_service`, the wrapper in the non-secure client, and the system of the service with any
number of clients.  A call of the wrapper is three messages: a connection, the call, and the end of
the connection.  The service takes one message at a time, but between the messages of one client
those of other clients arrive, and messages of clients that do not use the wrapper.

The framework is taken at its word: a connection is granted, the message of a wrapper arrives whole,
`psa_write` fills the output vector from its start, and `psa_call` sets the length of that vector to
what was written.
-/

namespace Echo
open Bytes Partition

/-- The arguments of `tfm_echo_service` with what the pointers point to; `none` is `NULL`.  The
buffers of a call that the wrapper lets through are as long as the caller says. -/
structure Call where
  data : Option (List Byte)
  dataLen : Nat
  outData : Option (List Byte)
  outLen : Nat
  outSize : Option Nat
  valid : ∀ d o, data = some d → outData = some o → dataLen ≤ tfmEchoMaxDataSize →
    dataLen ≤ outLen → dataLen ≤ d.length ∧ outLen ≤ o.length

/-- What a call returns, and what it leaves at its output pointers. -/
structure Result where
  status : Int
  outData : Option (List Byte)
  outSize : Option Nat
deriving DecidableEq, Repr

namespace Call

variable (a : Call)

/-- The first check of the wrapper. -/
def HasNull : Prop := a.data = none ∨ a.outData = none ∨ a.outSize = none

/-- The second check of the wrapper. -/
def BadSize : Prop := tfmEchoMaxDataSize < a.dataLen ∨ a.outLen < a.dataLen

instance : Decidable a.HasNull := inferInstanceAs (Decidable (_ ∨ _))
instance : Decidable a.BadSize := inferInstanceAs (Decidable (_ ∨ _))

/-- The call returns an error, and nothing is written. -/
def refused : Result := ⟨psaErrorInvalidArgument, a.outData, a.outSize⟩

/-- The message of the call. -/
def msg (handle : Int) : Msg :=
  ⟨psaIpcCall, handle, (a.data.getD []).take a.dataLen, a.outLen⟩

/-- The result of `psa_call`, from what the service did. -/
def result (status : Int) (w : List Byte) : Result :=
  ⟨status, a.outData.map fun o => w ++ o.drop w.length,
    if status = psaSuccess then a.outSize.map fun _ => w.length else a.outSize⟩

end Call

/-- Where a client is in a call of the wrapper. -/
inductive Phase where
  | idle
  | connecting (a : Call)
  | calling (a : Call)
  | closing (a : Call) (r : Result)
  | done (a : Call) (r : Result)

/-- The messages a client has still to send. -/
def Phase.toSend : Phase → Nat
  | .idle | .done _ _ => 0
  | .closing _ _ => 1
  | .calling _ => 2
  | .connecting _ => 3

/-- The wrapper up to `psa_connect`. -/
def tfmEchoService (a : Call) : Phase :=
  if a.HasNull then .done a a.refused
  else if a.BadSize then .done a a.refused
  else .connecting a

/-- The service and its clients. -/
structure System (C : Type) where
  service : EchoService
  client : C → Phase

/-- What may happen next.  `handle` is the handle of the message. -/
inductive Act (C : Type) where
  | start (c : C) (a : Call)
  /-- The next message of `c` arrives. -/
  | next (c : C) (handle : Int)
  /-- A message of a client that does not use the wrapper arrives. -/
  | raw (f : Delivery) (msg : Msg)

section Step

variable {C : Type} [DecidableEq C]

def System.set (S : System C) (c : C) (p : Phase) : System C :=
  { S with client := fun d => if d = c then p else S.client d }

def System.serve (S : System C) (f : Delivery) (msg : Msg) : System C :=
  { S with service := Echo.serve f msg S.service }

/-- A message of a wrapper arrives. -/
def System.deliver (S : System C) (msg : Msg) : System C := S.serve (.full msg) msg

def connectMsg (handle : Int) : Msg := ⟨psaIpcConnect, handle, [], 0⟩
def disconnectMsg (handle : Int) : Msg := ⟨psaIpcDisconnect, handle, [], 0⟩

/-- One step of the system; a step that cannot be taken is undefined. -/
def step (S : System C) : Act C → Option (System C)
  | .start c a =>
      match S.client c with
      | .idle | .done _ _ => some (S.set c (tfmEchoService a))
      | _ => none
  | .next c handle =>
      match S.client c with
      | .connecting a => some ((S.deliver (connectMsg handle)).set c (.calling a))
      | .calling a =>
          let S' := S.deliver (a.msg handle)
          (replyStatus S'.service.trace).map fun status =>
            S'.set c (.closing a (a.result status (written S'.service.trace)))
      | .closing a r => some ((S.deliver (disconnectMsg handle)).set c (.done a r))
      | _ => none
  | .raw f msg => some (S.serve f msg)

/-- The system when the service starts: nobody calls, and anything may be in the buffers. -/
def System.start (C : Type) (s : EchoService) : System C := ⟨s, fun _ => .idle⟩

end Step

/-! ### What a call may rely on -/

/-- A call that the wrapper lets through. -/
structure Call.Accepted (a : Call) : Prop where
  null : ¬a.HasNull
  size : ¬a.BadSize

namespace Call.Accepted

variable {a : Call}

theorem exists_pointers (h : a.Accepted) :
    ∃ d o n, a.data = some d ∧ a.outData = some o ∧ a.outSize = some n ∧
      a.dataLen ≤ d.length ∧ a.outLen ≤ o.length := by
  obtain ⟨hnull, hsize⟩ := h
  obtain ⟨hd, hno⟩ := not_or.mp hnull
  obtain ⟨ho, hn⟩ := not_or.mp hno
  obtain ⟨hmax, hroom⟩ := not_or.mp hsize
  obtain ⟨d, hd⟩ := Option.ne_none_iff_exists'.mp hd
  obtain ⟨o, ho⟩ := Option.ne_none_iff_exists'.mp ho
  obtain ⟨n, hn⟩ := Option.ne_none_iff_exists'.mp hn
  exact ⟨d, o, n, hd, ho, hn, a.valid d o hd ho (not_lt.mp hmax) (not_lt.mp hroom)⟩

theorem inSize_msg (h : a.Accepted) (handle : Int) : (a.msg handle).inSize = a.dataLen := by
  obtain ⟨d, o, n, hd, -, -, hlen, -⟩ := h.exists_pointers
  rw [Msg.inSize, Call.msg, hd, Option.getD_some, List.length_take, min_eq_left hlen]

/-- The messages that the service gets from a wrapper pass its own checks: the two agree. -/
theorem msg_fits (h : a.Accepted) (handle : Int) :
    (a.msg handle).inSize ≤ tfmEchoMaxDataSize ∧
      (a.msg handle).inSize ≤ (a.msg handle).outSize := by
  obtain ⟨hmax, hroom⟩ := not_or.mp h.size
  rw [h.inSize_msg]
  exact ⟨not_lt.mp hmax, not_lt.mp hroom⟩

end Call.Accepted

end Echo
