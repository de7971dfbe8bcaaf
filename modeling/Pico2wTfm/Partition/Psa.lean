import Pico2wTfm.Tools.Encryptor
import Pico2wTfm.TinyMaix.Engine

/-!
# Partition — Psa

What the TinyMAIX partition sees of the PSA framework: status codes, messages, and the outcome of
every call it makes.  An outcome may be any status; a call that succeeds has its documented
effect.  HKDF and AES are those of the device (`Device`), a fixed function and a family of
permutations.

`Service` is the state of the partition, the globals of `tinymaix_inference.c` and the static
objects of the engine.  What a message made it do is in `trace`: the client vectors it read and
wrote, the cryptographic calls with their statuses, and the replies.
-/

namespace Partition
open Bytes Footprint TinyMaix

/-! ### Status codes -/

def psaSuccess : Int := 0
def psaErrorGenericError : Int := -132
def psaErrorNotSupported : Int := -134
def psaErrorInvalidArgument : Int := -135
def psaErrorBadState : Int := -137
def psaErrorBufferTooSmall : Int := -138
def psaErrorAlreadyExists : Int := -139
def psaErrorInsufficientMemory : Int := -141
def psaErrorCommunicationFailure : Int := -145

/-! ### Messages -/

def psaIpcConnect : Int := -1
def psaIpcDisconnect : Int := -2
def tinymaixIpcLoadEncryptedModel : Int := 0x1002
def tinymaixIpcRunInference : Int := 0x1003
def tinymaixIpcGetModelKey : Int := 0x1004

/-- `psa_msg_t`, with the content of the first input vector. -/
@[ext]
structure Msg where
  type : Int
  handle : Int
  inVec : List Byte
  outSize : Nat
deriving DecidableEq, Repr

/-- `msg.in_size[0]`. -/
def Msg.inSize (msg : Msg) : Nat := msg.inVec.length

/-! ### Calls -/

/-- The cryptographic calls of the partition. -/
inductive CryptoCall where
  | init
  | kdfSetup | kdfInputSalt | kdfInputKey | kdfInputInfo | kdfOutput | kdfAbort
  | importKey | destroyKey (id : Nat)
  | cipherSetup (id : Nat) | cipherSetIv | cipherUpdate | cipherFinish | cipherAbort
deriving DecidableEq, Repr

/-- What the partition did. -/
inductive Event where
  /-- `psa_read` of `n` bytes was asked for and `got` bytes came. -/
  | read (handle : Int) (n got : Nat)
  | write (handle : Int) (data : List Byte)
  | reply (handle status : Int)
  | crypto (call : CryptoCall) (status : Int)
deriving DecidableEq, Repr

/-- The outcome of each call made for one message.  A call site is reached at most once for a
message.  `spill` is what a failing decryption leaves in its output buffer, and `keySpill` what a
failing key derivation leaves in its own. -/
structure Outcome where
  get : Int
  readLen : Nat
  cryptoInit : Int
  kdfSetup : Int
  kdfInputSalt : Int
  kdfInputKey : Int
  kdfInputInfo : Int
  kdfOutput : Int
  importKey : Int
  keyId : Nat
  cipherSetup : Int
  cipherSetIv : Int
  cipherUpdate : Int
  cipherFinish : Int
  spill : List Byte
  keySpill : Cbc.Block 16

/-- Every call succeeds, and a read gets everything. -/
def Outcome.success : Outcome :=
  ⟨0, 784, 0, 0, 0, 0, 0, 0, 0, 1, 0, 0, 0, 0, [], fun _ => 0⟩

/-- Every cryptographic call succeeds. -/
structure Outcome.CryptoOk (f : Outcome) : Prop where
  cryptoInit : f.cryptoInit = psaSuccess
  kdfSetup : f.kdfSetup = psaSuccess
  kdfInputSalt : f.kdfInputSalt = psaSuccess
  kdfInputKey : f.kdfInputKey = psaSuccess
  kdfInputInfo : f.kdfInputInfo = psaSuccess
  kdfOutput : f.kdfOutput = psaSuccess
  importKey : f.importKey = psaSuccess
  cipherSetup : f.cipherSetup = psaSuccess
  cipherSetIv : f.cipherSetIv = psaSuccess
  cipherUpdate : f.cipherUpdate = psaSuccess
  cipherFinish : f.cipherFinish = psaSuccess

theorem Outcome.cryptoOk_success : Outcome.success.CryptoOk :=
  ⟨rfl, rfl, rfl, rfl, rfl, rfl, rfl, rfl, rfl, rfl, rfl⟩

/-! ### The device -/

/-- A device and its build: the hardware unique key, the functions of its cryptographic service,
the package built in, the address of `static_main_buf`, the floating-point unit. -/
structure Device where
  devMode : Bool
  huk : List Byte
  hkdf : List Byte → String → (n : Nat) → Cbc.Block n
  aes : Encryptor.Cipher
  /-- `encrypted_mdl_data_data`. -/
  package : List Byte
  mainAddr : Nat
  fl : FloatOps

/-! ### The state -/

def tfmTinymaixMaxModelSize : Nat := 4096
def mdlBufLen : Nat := 1464
def derivedKeyLen : Nat := 16

/-- The globals of the partition. -/
structure Service where
  gMdl : TmMdl
  gInUint8 : TmMat
  gIn : TmMat
  gModelLoaded : Bool
  gDecryptedModel : Int → Byte
  gDecryptedSize : Nat
  encryptionKey : Cbc.Block 16
  mnistPic : Int → Byte
  /-- `static_main_buf`, `g_outs` and the tables of the engine, with the accesses made for the
  current message. -/
  eng : Logged Mem Cell
  trace : List Event

namespace Service

def emit (s : Service) (ev : Event) : Service := { s with trace := s.trace ++ [ev] }

/-- A cryptographic call and its status. -/
def call (s : Service) (c : CryptoCall) (status : Int) : Service := s.emit (.crypto c status)

/-- A write into `g_decrypted_model`. -/
def writeModel (s : Service) (off : Nat) (bs : List Byte) : Service :=
  { s with gDecryptedModel := splice s.gDecryptedModel off bs }

def setSize (s : Service) (n : Nat) : Service := { s with gDecryptedSize := n }

def setKey (s : Service) (k : Cbc.Block 16) : Service := { s with encryptionKey := k }

def setMdl (s : Service) (mdl : TmMdl) : Service := { s with gMdl := mdl }
def setIn (s : Service) (mat : TmMat) : Service := { s with gIn := mat }
def setInUint8 (s : Service) (mat : TmMat) : Service := { s with gInUint8 := mat }
def setLoaded (s : Service) (b : Bool) : Service := { s with gModelLoaded := b }

/-- A write into `mnist_pic`. -/
def writePic (s : Service) (bs : List Byte) : Service :=
  { s with mnistPic := splice s.mnistPic 0 bs }

@[simp] theorem setSize_gDecryptedSize (s : Service) (n : Nat) :
    (s.setSize n).gDecryptedSize = n := rfl
@[simp] theorem setSize_gDecryptedModel (s : Service) (n : Nat) :
    (s.setSize n).gDecryptedModel = s.gDecryptedModel := rfl

/-- What an engine call reads. -/
def env (dev : Device) (s : Service) : Env := ⟨s.gDecryptedModel, s.mnistPic, dev.mainAddr, dev.fl⟩

/-- A call of the engine. -/
def run {α : Type} (s : Service) (c : Eng α) : α × Service :=
  ((c s.eng).1, { s with eng := (c s.eng).2 })

section Run

variable {α : Type} (s : Service) (c : Eng α)

@[simp] theorem run_fst : (s.run c).1 = (c s.eng).1 := rfl
@[simp] theorem run_eng : (s.run c).2.eng = (c s.eng).2 := rfl
@[simp] theorem run_gMdl : (s.run c).2.gMdl = s.gMdl := rfl
@[simp] theorem run_gIn : (s.run c).2.gIn = s.gIn := rfl
@[simp] theorem run_gModelLoaded : (s.run c).2.gModelLoaded = s.gModelLoaded := rfl
@[simp] theorem run_gDecryptedModel : (s.run c).2.gDecryptedModel = s.gDecryptedModel := rfl
@[simp] theorem run_gDecryptedSize : (s.run c).2.gDecryptedSize = s.gDecryptedSize := rfl
@[simp] theorem run_mnistPic : (s.run c).2.mnistPic = s.mnistPic := rfl
@[simp] theorem run_env (dev : Device) : (s.run c).2.env dev = s.env dev := rfl
@[simp] theorem run_trace : (s.run c).2.trace = s.trace := rfl

end Run

end Service

end Partition
