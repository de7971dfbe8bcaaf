import Pico2wTfm.Partition.Inference

/-!
# Partition — Client

`tfm_tinymaix_inference_api.c`, the wrappers in the non-secure client.  A call of a wrapper is three
messages: a connection, the call, and the end of the connection.

The framework is taken at its word: `psa_call` returns the status of the reply, and what the service
wrote is in the output vector, from its start.  A call that is never answered does not return.
-/

namespace Partition
open Bytes TinyMaix

/-- `tfm_tinymaix_status_t`. -/
inductive TfmTinymaixStatus where
  | success | errorInvalidParam | errorModelLoadFailed | errorInferenceFailed | errorGeneric
deriving DecidableEq, Repr

def TfmTinymaixStatus.code : TfmTinymaixStatus → Int
  | .success => 0
  | .errorInvalidParam => -1
  | .errorModelLoadFailed => -3
  | .errorInferenceFailed => -4
  | .errorGeneric => -100

/-- What a call of a wrapper gets from the framework: the result of `psa_connect`, and the outcomes of
the service's calls for each of its messages. -/
structure Link where
  handle : Int
  connect : Outcome
  call : Outcome
  close : Outcome

section Calls

variable (dev : Device) (l : Link)

def connectMsg (handle : Int) : Msg := ⟨psaIpcConnect, handle, [], 0⟩
def disconnectMsg (handle : Int) : Msg := ⟨psaIpcDisconnect, handle, [], 0⟩

/-- `psa_call` without an input vector: the status, and the output vector of `out`. -/
def psaCall (type : Int) (out : List Byte) (s : Service) : Option (Int × List Byte × Service) :=
  let s := serve dev l.call ⟨type, l.handle, [], out.length⟩ s
  let w := written s.trace
  (replyStatus s.trace).map fun status => (status, w ++ out.drop w.length, s)

/-- A wrapper around one call: `psa_connect`, `psa_call` and `psa_close`. -/
def withService {α : Type} (type : Int) (out : List Byte) (k : Int → List Byte → α) (refused : α)
    (s : Service) : Option (α × Service) :=
  if l.handle ≤ 0 then some (refused, s)
  else do
    let r ← psaCall dev l type out (serve dev l.connect (connectMsg l.handle) s)
    return (k r.1 r.2.1, serve dev l.close (disconnectMsg l.handle) r.2.2)

/-- `tfm_tinymaix_load_encrypted_model`. -/
def tfmTinymaixLoadEncryptedModel (s : Service) : Option (TfmTinymaixStatus × Service) :=
  withService dev l tinymaixIpcLoadEncryptedModel (leBytes 4 1)
    (fun status out =>
      if status ≠ psaSuccess ∨ leValue out ≠ 0 then .errorModelLoadFailed else .success)
    .errorGeneric s

/-- What the wrapper makes of the reply to a request for an inference. -/
def inferenceResult (predictedClass : Option Int) (status : Int) (out : List Byte) :
    TfmTinymaixStatus × Option Int :=
  let result := toI32 (leValue out)
  if status ≠ psaSuccess ∨ result < 0 then (.errorInferenceFailed, predictedClass)
  else (.success, some result)

/-- `tfm_tinymaix_run_inference_with_data`; the result has what is at `predicted_class` afterwards. -/
def tfmTinymaixRunInferenceWithData (_imageData : Option (List Byte)) (_imageSize : Nat)
    (predictedClass : Option Int) (s : Service) :
    Option ((TfmTinymaixStatus × Option Int) × Service) :=
  if predictedClass = none then some ((.errorInvalidParam, none), s)
  else
    -- the image is not looked at
    withService dev l tinymaixIpcRunInference (leBytes 4 (2 ^ 32 - 1))
      (inferenceResult predictedClass) (.errorGeneric, predictedClass) s

/-- `tfm_tinymaix_run_inference`. -/
def tfmTinymaixRunInference (predictedClass : Option Int) (s : Service) :
    Option ((TfmTinymaixStatus × Option Int) × Service) :=
  tfmTinymaixRunInferenceWithData dev l none 0 predictedClass s

/-- `tfm_tinymaix_get_model_key`, in a `DEV_MODE` build; the result has what is in `key_buffer`
afterwards. -/
def tfmTinymaixGetModelKey (keyBuffer : Option (List Byte)) (s : Service) :
    Option ((TfmTinymaixStatus × Option (List Byte)) × Service) :=
  match keyBuffer with
  | none => some ((.errorInvalidParam, none), s)
  | some buf =>
      if buf.length < 16 then some ((.errorInvalidParam, some buf), s)
      else withService dev l tinymaixIpcGetModelKey buf
        (fun status out =>
          if status ≠ psaSuccess then (.errorGeneric, some out) else (.success, some out))
        (.errorGeneric, some buf) s

end Calls

section Wrapper

variable {dev : Device} {l : Link} {s : Service}

/-- A round does not depend on what was done for the message before. -/
theorem serve_fresh {s' : Service} (h : s'.fresh = s.fresh) (f : Outcome) (msg : Msg) :
    serve dev f msg s' = serve dev f msg s := by
  rw [serve, serve, h]

theorem serve_connect (f : Outcome) (handle : Int) :
    (serve dev f (connectMsg handle) s).fresh = s.fresh := by
  unfold serve
  split <;> rfl

/-- **What a wrapper returns**, from the round of its call. -/
theorem withService_eq {α : Type} {type status : Int} {out : List Byte}
    (k : Int → List Byte → α) (refused : α) (hpos : 0 < l.handle)
    (hr : replyStatus (serve dev l.call ⟨type, l.handle, [], out.length⟩ s).trace = some status) :
    ∃ s', withService dev l type out k refused s = some (k status
      (written (serve dev l.call ⟨type, l.handle, [], out.length⟩ s).trace ++ out.drop
        (written (serve dev l.call ⟨type, l.handle, [], out.length⟩ s).trace).length), s') := by
  rw [withService, if_neg (not_le.mpr hpos), psaCall,
    serve_fresh (serve_connect l.connect l.handle), hr]
  exact ⟨_, rfl⟩

end Wrapper

/-! ### The class of a reply -/

/-- The class that a reply brings: the status and the integer written. -/
def classOf (t : List Event) : Option Int :=
  if replyStatus t = some psaSuccess then some (toI32 (leValue (written t))) else none

/-- **The custom-image path**: the class of `image` in the state `s`. -/
def customClass (dev : Device) (f : Outcome) (image : List Byte) (s : Service) : Option Int :=
  classOf (serve dev f ⟨tinymaixIpcRunInference, 0, image, 4⟩ s).trace

/-- The class that `tm_run` and `parse_output` come to. -/
def answer (dev : Device) (s : Service) : Option Int :=
  if (tmRunCall dev s).1.1 ≠ .ok then none
  else some (toI32 (BitVec.ofInt 32 (parseCall dev (ran dev s)).1).toNat)

section Answers

variable {dev : Device} {f : Outcome} {msg : Msg} {s : Service}

theorem written_emit {ev : Event} :
    written (s.emit ev).trace = written s.trace ++ written [ev] := List.flatMap_append

theorem received_written : written (received f msg s.fresh).trace = [] := by
  unfold received
  split
  · exact written_emit
  · rfl

theorem written_reply {st : Int} : written (s.reply msg st).trace = written s.trace :=
  written_emit.trans (List.append_nil _)

/-- A request whose run succeeds: the class is written if there is room for it. -/
theorem delivered_ok (hl : s.gModelLoaded = true) (hd : Delivered f msg)
    (hb : s.gMdl.b.region = .model) {u : Service}
    (hu : u = preprocessed dev (received f msg s.fresh)) (hok : (tmRunCall dev u).1.1 = .ok) :
    replyStatus (serve dev f msg s).trace = some psaSuccess ∧
      written (serve dev f msg s).trace = if 4 ≤ msg.outSize then
        leBytes 4 (BitVec.ofInt 32 (parseCall dev (ran dev u)).1).toNat else [] := by
  have hnone : replyStatus (runModel dev msg u).2.trace = none :=
    runModel_trace.trans (hu ▸ preprocessed_trace)
  have hnil : written (parseCall dev (ran dev u)).2.trace = [] := by
    have hnil : written u.trace = [] := by
      rw [hu]
      exact received_written
    exact hnil
  rw [serve_delivered_eq hl hd hb, ← hu, replyStatus_reply hnone, written_reply, runModel_eq,
    if_neg (not_not.mpr hok), Service.writeIfRoom, length_leBytes]
  refine ⟨rfl, ?_⟩
  by_cases hroom : 4 ≤ msg.outSize
  · rw [if_pos hroom, if_pos hroom, written_emit, hnil, List.nil_append]
    exact List.append_nil _
  · rw [if_neg hroom, if_neg hroom]
    exact hnil

/-- **What a delivered request leaves**, from the service as `tm_run` finds it. -/
theorem delivered_trace (hl : s.gModelLoaded = true) (hd : Delivered f msg)
    (hb : s.gMdl.b.region = .model) (hroom : msg.outSize = 4) {u : Service}
    (hu : u = preprocessed dev (received f msg s.fresh)) :
    ((tmRunCall dev u).1.1 ≠ .ok ∧
        replyStatus (serve dev f msg s).trace = some psaErrorGenericError) ∨
      ((tmRunCall dev u).1.1 = .ok ∧ replyStatus (serve dev f msg s).trace = some psaSuccess ∧
        written (serve dev f msg s).trace =
          leBytes 4 (BitVec.ofInt 32 (parseCall dev (ran dev u)).1).toNat) := by
  have hnone : replyStatus (runModel dev msg u).2.trace = none :=
    runModel_trace.trans (hu ▸ preprocessed_trace)
  by_cases hok : (tmRunCall dev u).1.1 = .ok
  · obtain ⟨hr, hw⟩ := delivered_ok hl hd hb hu hok
    rw [if_pos hroom.ge] at hw
    exact Or.inr ⟨hok, hr, hw⟩
  · rw [serve_delivered_eq hl hd hb, ← hu, replyStatus_reply hnone, runModel_eq, if_pos hok]
    exact Or.inl ⟨hok, rfl⟩

/-- **What a delivered request brings** is the answer to the preprocessed image. -/
theorem classOf_delivered (hl : s.gModelLoaded = true) (hd : Delivered f msg)
    (hb : s.gMdl.b.region = .model) (hroom : msg.outSize = 4) :
    classOf (serve dev f msg s).trace =
      answer dev (preprocessed dev (received f msg s.fresh)) := by
  rw [classOf, answer]
  rcases delivered_trace hl hd hb hroom rfl with ⟨hno, hr⟩ | ⟨hok, hr, hw⟩
  · rw [if_pos hno]
    exact if_neg fun h => psaErrorGenericError_ne (Option.some.inj (hr.symm.trans h))
  · rw [if_pos hr, hw, leValue_leBytes_of_lt (BitVec.isLt _)]
    exact (if_neg (not_not.mpr hok)).symm

end Answers

end Partition
