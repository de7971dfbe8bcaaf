import Pico2wTfm.Partition.Decrypt
import Pico2wTfm.Partition.TestImage
import Pico2wTfm.Support.Run

/-!
# Partition — Service

`tinymaix_inference_entry`: one round of the service loop for each message, as a step of a state
machine.  The state is never cleared between messages except for the trace and the log of engine
accesses, which are about the message at hand.

`serve` is the round as the code computes it on unbounded objects.  A round that reads or writes
outside an object has no meaning in C; `step` is `serve` where every access is inside its object
(`Service.Defined`), and undefined elsewhere.  It excludes nothing else that C leaves undefined: sums
that overflow an `int32_t`, a division by a `sumscale` of 0, and the conversion of a float that is out
of range have a value here.
-/

namespace Partition
open Bytes Footprint TinyMaix

/-! ### Objects -/

def gDecryptedModelPtr : Ptr := ⟨.model, 0⟩
def staticMainBuf : Ptr := ⟨.main, 0⟩
def mnistPicPtr : Ptr := ⟨.pic, 0⟩

/-- The cells of a static object; the null pointer points to none. -/
def objectSize : Region → Nat
  | .null => 0
  | .main => mdlBufLen
  | .model => tfmTinymaixMaxModelSize
  | .pic => 784
  | .sbuf => tmMaxKcsize
  | .kOft => tmMaxKsize
  | .sumscale => tmMaxCsize
  | .outs => 1

/-- Every engine access made for the current message is inside its object.  Nothing is said about the
arithmetic. -/
def Service.Defined (s : Service) : Prop :=
  ∀ a ∈ s.eng.log, 0 ≤ a.loc.2 ∧ a.loc.2 < objectSize a.loc.1

instance (s : Service) : Decidable s.Defined := inferInstanceAs (Decidable (∀ a ∈ _, _))

/-! ### Requests -/

/-- `parse_output`: ten scores, from `maxp = 0` and `maxi = -1`. -/
def parseOutput (e : Env) : Eng Int := do
  let out ← loadOut 0
  let st ← foldN 10 ((0 : F32), (-1 : Int)) fun i st => do
    let d ← loadF32 e (out.data.add (4 * i : Nat))
    return if e.fl.lt st.1 d then (d, (i : Int)) else st
  return st.2

def Service.reply (s : Service) (msg : Msg) (status : Int) : Service :=
  s.emit (.reply msg.handle status)

/-- `psa_write` of `data`, if the output vector has room for it. -/
def Service.writeIfRoom (s : Service) (msg : Msg) (data : List Byte) : Service :=
  if data.length ≤ msg.outSize then s.emit (.write msg.handle data) else s

/-- The work of a `TINYMAIX_IPC_LOAD_ENCRYPTED_MODEL` request. -/
def loadModel (dev : Device) (f : Outcome) (s : Service) : Int × Service :=
  let r :=
    if tfmTinymaixMaxModelSize < dev.package.length then (psaErrorInsufficientMemory, s)
    else decryptModel dev f dev.package s
  if r.1 = psaSuccess then
    let s := r.2
    let t := s.run (tmLoad (s.env dev) s.gMdl gDecryptedModelPtr staticMainBuf true s.gIn)
    let s := (t.2.setMdl t.1.2.1).setIn t.1.2.2
    if t.1.1 ≠ .ok then (psaErrorGenericError, s.setLoaded false)
    else (psaSuccess, s.setLoaded true)
  else (r.1, r.2.setLoaded false)

def handleLoad (dev : Device) (f : Outcome) (msg : Msg) (s : Service) : Service :=
  let r := loadModel dev f s
  let s := if r.1 = psaSuccess then r.2.writeIfRoom msg (leBytes 4 0) else r.2
  s.reply msg r.1

/-- `tm_run` and `parse_output` on the preprocessed image, and the class written. -/
def runModel (dev : Device) (msg : Msg) (s : Service) : Int × Service :=
  let r := s.run (tmRun (s.env dev) s.gMdl s.gIn)
  let s := r.2.setMdl r.1.2
  if r.1.1 ≠ .ok then (psaErrorGenericError, s)
  else
    let c := s.run (parseOutput (s.env dev))
    (psaSuccess, c.2.writeIfRoom msg (leBytes 4 (BitVec.ofInt 32 c.1).toNat))

/-- `g_in_uint8` as every request sets it. -/
def imageMat : TmMat := ⟨3, 28, 28, 1, mnistPicPtr⟩

/-- The classification of `mnist_pic`; the source has it twice, for a custom image and for the
built-in one. -/
def classify (dev : Device) (msg : Msg) (s : Service) : Int × Service :=
  let s := s.setInUint8 imageMat
  let p := s.run (tmPreprocess (s.env dev) s.gMdl .uint2int s.gInUint8 s.gIn)
  let s := p.2.setIn p.1.2
  if p.1.1 ≠ .ok then (psaErrorGenericError, s) else runModel dev msg s

/-- `psa_read` into `mnist_pic`; `got` bytes come. -/
def readImage (msg : Msg) (got : Nat) (s : Service) : Service :=
  (s.writePic (msg.inVec.take got)).emit (.read msg.handle msg.inSize got)

/-- The work of a `TINYMAIX_IPC_RUN_INFERENCE` request. -/
def runInference (dev : Device) (f : Outcome) (msg : Msg) (s : Service) : Int × Service :=
  if s.gModelLoaded = false then (psaErrorBadState, s)
  else if msg.inSize = 28 * 28 then
    let got := min f.readLen msg.inSize
    let s := readImage msg got s
    if got ≠ msg.inSize then (psaErrorCommunicationFailure, s) else classify dev msg s
  else if msg.inSize = 0 then classify dev msg s
  else (psaErrorInvalidArgument, s)

def handleRunInference (dev : Device) (f : Outcome) (msg : Msg) (s : Service) : Service :=
  let r := runInference dev f msg s
  r.2.reply msg r.1

/-- The label of the `TINYMAIX_IPC_GET_MODEL_KEY` handler. -/
def getModelKeyHukLabel : String := "pico2w-tinymaix-model-aes128-v1.0"

/-- A `TINYMAIX_IPC_GET_MODEL_KEY` request, in a `DEV_MODE` build.  The key goes through a buffer
on the stack. -/
def handleGetModelKey (dev : Device) (f : Outcome) (msg : Msg) (s : Service) : Service :=
  if msg.outSize < derivedKeyLen then s.reply msg psaErrorBufferTooSmall
  else
    let r := deriveKeyFromHuk dev f getModelKeyHukLabel (fun _ => 0) s
    let s := if r.1 = psaSuccess then r.2.2.emit (.write msg.handle (List.ofFn r.2.1)) else r.2.2
    s.reply msg r.1

/-- The `switch` of `tinymaix_inference_entry`. -/
def handle (dev : Device) (f : Outcome) (msg : Msg) (s : Service) : Service :=
  if msg.type = psaIpcConnect then s.reply msg psaSuccess
  else if msg.type = tinymaixIpcLoadEncryptedModel then handleLoad dev f msg s
  else if msg.type = tinymaixIpcRunInference then handleRunInference dev f msg s
  else if dev.devMode ∧ msg.type = tinymaixIpcGetModelKey then handleGetModelKey dev f msg s
  else if msg.type = psaIpcDisconnect then s.reply msg psaSuccess
  else s.reply msg psaErrorNotSupported

/-! ### The loop -/

/-- The state when a message arrives: nothing has been done for it. -/
def Service.fresh (s : Service) : Service := { s with eng := ⟨s.eng.mem, []⟩, trace := [] }

/-- One round of the loop; a failing `psa_get` goes on to the next. -/
def serve (dev : Device) (f : Outcome) (msg : Msg) (s : Service) : Service :=
  if f.get ≠ psaSuccess then s.fresh else handle dev f msg s.fresh

/-- What a round is given: the outcomes of its calls and the message. -/
abbrev Input := Outcome × Msg

/-- A round whose engine accesses are all inside their objects. -/
def step (dev : Device) (s : Service) (i : Input) : Option Service :=
  if (serve dev i.1 i.2 s).Defined then some (serve dev i.1 i.2 s) else none

/-- The static objects as they are compiled in. -/
def image : Service where
  gMdl := .zero
  gInUint8 := .zero
  gIn := .zero
  gModelLoaded := false
  gDecryptedModel := fun _ => 0
  gDecryptedSize := 0
  encryptionKey := fun _ => 0
  mnistPic := splice (fun _ => 0) 0 testImage
  eng := ⟨⟨fun _ _ => 0, fun _ => 0, fun _ => 0, fun _ => .zero⟩, []⟩
  trace := []

/-- `tinymaix_inference_init`. -/
def tinymaixInferenceInit (s : Service) : Service :=
  { s with gModelLoaded := false, gMdl := .zero }

/-- The service when its loop starts. -/
def boot : Service := tinymaixInferenceInit image

/-- The state `s` is reached by the history `h`. -/
def Reaches (dev : Device) (h : List (Input × Service)) (s : Service) : Prop :=
  Run.Steps (step dev) boot h s

/-- A round, whether C defines it or not; what C leaves undefined is what `serve` computes on
unbounded objects. -/
def serveStep (dev : Device) (s : Service) (i : Input) : Option Service :=
  some (serve dev i.1 i.2 s)

/-- The state `s` is reached by the history `h`, and every history reaches a state. -/
def Serves (dev : Device) (h : List (Input × Service)) (s : Service) : Prop :=
  Run.Steps (serveStep dev) boot h s

theorem Reaches.serves {dev : Device} {h : List (Input × Service)} {s : Service}
    (r : Reaches dev h s) : Serves dev h s :=
  r.mono fun s i s' e => by
    unfold step at e
    split at e
    · exact e
    · cases e

/-! ### What a client sees -/

/-- The status of the reply. -/
def replyStatus (t : List Event) : Option Int :=
  t.findSome? fun
    | .reply _ status => some status
    | _ => none

/-- The bytes written to the client. -/
def written (t : List Event) : List Byte :=
  t.flatMap fun
    | .write _ data => data
    | _ => []

end Partition
