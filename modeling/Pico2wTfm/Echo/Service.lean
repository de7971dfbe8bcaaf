import Pico2wTfm.Partition.Service

/-!
# Echo — Service

`echo_service_entry`: one round of the service loop for each message.  The two buffers are locals
of a function that never returns, so they live as long as the service and hold what the messages
before left in them; nothing clears them.

A call is answered from its own bytes all the same (`echo_spec`), and what a round does is a function
of its message (`serve_trace`), whatever the buffers held.
-/

namespace Echo
open Bytes Partition

/-- `TFM_ECHO_MAX_DATA_SIZE`; the partition and its client library each define it. -/
def tfmEchoMaxDataSize : Nat := 256

def psaIpcCall : Int := 0

/-- The buffers of `echo_service_entry`, and what was done for the current message. -/
structure EchoService where
  inputBuffer : Int → Byte
  outputBuffer : Int → Byte
  trace : List Event

/-- The outcomes of the calls made for one message: of `psa_get`, and how much `psa_read` can
get. -/
structure Delivery where
  get : Int
  readLen : Nat

/-- A message that arrives, with all its bytes. -/
def Delivery.full (msg : Msg) : Delivery := ⟨psaSuccess, msg.inSize⟩

namespace EchoService

def emit (s : EchoService) (ev : Event) : EchoService := { s with trace := s.trace ++ [ev] }

def reply (s : EchoService) (msg : Msg) (status : Int) : EchoService :=
  s.emit (.reply msg.handle status)

/-- `psa_read` into `input_buffer`; `got` bytes come. -/
def read (s : EchoService) (msg : Msg) (got : Nat) : EchoService :=
  { s with inputBuffer := splice s.inputBuffer 0 (msg.inVec.take got) }.emit
    (.read msg.handle msg.inSize got)

/-- `memcpy(output_buffer, input_buffer, n)`. -/
def copy (s : EchoService) (n : Nat) : EchoService :=
  { s with outputBuffer := splice s.outputBuffer 0 (window s.inputBuffer 0 n) }

/-- `psa_write` of the first `n` bytes of `output_buffer`. -/
def write (s : EchoService) (msg : Msg) (n : Nat) : EchoService :=
  s.emit (.write msg.handle (window s.outputBuffer 0 n))

/-- The state when a message arrives. -/
def fresh (s : EchoService) : EchoService := { s with trace := [] }

end EchoService

/-- The work of a `PSA_IPC_CALL`. -/
def echo (f : Delivery) (msg : Msg) (s : EchoService) : Int × EchoService :=
  if tfmEchoMaxDataSize < msg.inSize then (psaErrorInvalidArgument, s)
  else if msg.outSize < msg.inSize then (psaErrorBufferTooSmall, s)
  else
    let bytesRead := min f.readLen msg.inSize
    let s := s.read msg bytesRead
    if bytesRead ≠ msg.inSize then (psaErrorCommunicationFailure, s)
    else (psaSuccess, (s.copy bytesRead).write msg bytesRead)

def handleCall (f : Delivery) (msg : Msg) (s : EchoService) : EchoService :=
  let r := echo f msg s
  r.2.reply msg r.1

/-- The `switch` of `echo_service_entry`. -/
def handle (f : Delivery) (msg : Msg) (s : EchoService) : EchoService :=
  if msg.type = psaIpcConnect then s.reply msg psaSuccess
  else if msg.type = psaIpcCall then handleCall f msg s
  else if msg.type = psaIpcDisconnect then s.reply msg psaSuccess
  else s.reply msg psaErrorNotSupported

/-- One round of the loop; a failing `psa_get` goes on to the next. -/
def serve (f : Delivery) (msg : Msg) (s : EchoService) : EchoService :=
  if f.get ≠ psaSuccess then s.fresh else handle f msg s.fresh

/-! ### What a call gets back -/

section Echo

variable {f : Delivery} {msg : Msg} {s : EchoService}

/-- What `psa_read` puts into the buffer is what `psa_write` takes out of it. -/
theorem window_copy_read (s : EchoService) (msg : Msg) :
    window ((s.read msg msg.inSize).copy msg.inSize).outputBuffer 0 msg.inSize = msg.inVec := by
  have hin : window (s.read msg msg.inSize).inputBuffer 0 msg.inSize = msg.inVec := by
    have htake : msg.inVec.take msg.inSize = msg.inVec := List.take_length
    show window (splice s.inputBuffer 0 (msg.inVec.take msg.inSize)) 0 msg.inSize = msg.inVec
    rw [htake]
    exact window_splice _ _ _
  show window (splice _ 0 (window (s.read msg msg.inSize).inputBuffer 0 msg.inSize)) 0 msg.inSize =
    msg.inVec
  rw [hin]
  exact window_splice _ _ _

/-- What a call is answered, and what is done for it: it is refused, cut short, or echoed. -/
def echoed (f : Delivery) (msg : Msg) : Int × List Event :=
  if tfmEchoMaxDataSize < msg.inSize then (psaErrorInvalidArgument, [])
  else if msg.outSize < msg.inSize then (psaErrorBufferTooSmall, [])
  else if f.readLen < msg.inSize then
    (psaErrorCommunicationFailure, [.read msg.handle msg.inSize f.readLen])
  else (psaSuccess, [.read msg.handle msg.inSize msg.inSize, .write msg.handle msg.inVec])

/-- **A call is answered from its own bytes.** -/
theorem echo_spec (f : Delivery) (msg : Msg) (s : EchoService) :
    (echo f msg s).1 = (echoed f msg).1 ∧
      (echo f msg s).2.trace = s.trace ++ (echoed f msg).2 := by
  rw [echo, echoed]
  by_cases hmax : tfmEchoMaxDataSize < msg.inSize
  · rw [if_pos hmax, if_pos hmax]
    exact ⟨rfl, (List.append_nil _).symm⟩
  by_cases hroom : msg.outSize < msg.inSize
  · rw [if_neg hmax, if_pos hroom, if_neg hmax, if_pos hroom]
    exact ⟨rfl, (List.append_nil _).symm⟩
  rw [if_neg hmax, if_neg hroom, if_neg hmax, if_neg hroom]
  dsimp only
  rcases Nat.lt_or_ge f.readLen msg.inSize with hlt | hge
  · have hne : f.readLen ≠ msg.inSize := Nat.ne_of_lt hlt
    rw [if_pos hlt, min_eq_left hlt.le, if_pos hne]
    exact ⟨rfl, rfl⟩
  · rw [if_neg (not_lt.mpr hge), min_eq_right hge, if_neg (not_not.mpr rfl)]
    refine ⟨rfl, ?_⟩
    show (s.trace ++ [_]) ++ [Event.write msg.handle _] = _
    rw [window_copy_read, List.append_assoc]
    rfl

/-- The reply to a message that is not a call. -/
def plainReply (type : Int) : Int :=
  if type = psaIpcConnect ∨ type = psaIpcDisconnect then psaSuccess else psaErrorNotSupported

/-- What is done for a message. -/
def round (f : Delivery) (msg : Msg) : List Event :=
  if f.get ≠ psaSuccess then []
  else if msg.type = psaIpcCall then
    (echoed f msg).2 ++ [.reply msg.handle (echoed f msg).1]
  else [.reply msg.handle (plainReply msg.type)]

theorem handle_plain (ht : msg.type ≠ psaIpcCall) :
    handle f msg s = s.reply msg (plainReply msg.type) := by
  rw [handle, if_neg ht, plainReply]
  by_cases hc : msg.type = psaIpcConnect
  · rw [if_pos hc, if_pos (Or.inl hc)]
  · by_cases hd : msg.type = psaIpcDisconnect
    · rw [if_neg hc, if_pos hd, if_pos (Or.inr hd)]
    · rw [if_neg hc, if_neg hd, if_neg (not_or.mpr ⟨hc, hd⟩)]

/-- **A round is a function of its message**; the buffers have no part in it. -/
theorem serve_trace (f : Delivery) (msg : Msg) (s : EchoService) :
    (serve f msg s).trace = round f msg := by
  rw [serve, round]
  by_cases hget : f.get ≠ psaSuccess
  · rw [if_pos hget, if_pos hget]
    rfl
  rw [if_neg hget, if_neg hget]
  by_cases ht : msg.type = psaIpcCall
  · have hc : ¬msg.type = psaIpcConnect := by rw [ht]; decide
    obtain ⟨hstatus, htrace⟩ := echo_spec f msg s.fresh
    rw [if_pos ht, handle, if_neg hc, if_pos ht, handleCall, hstatus]
    show (echo f msg s.fresh).2.trace ++ _ = _
    rw [htrace]
    rfl
  · rw [if_neg ht, handle_plain ht]
    rfl

end Echo

end Echo
