import Pico2wTfm.Partition.Client

/-!
# Nspe — TinymaixTest

`tinymaix_inference_test.c`: the test suite that the non-secure application runs.  The service takes
messages of anyone, so between the messages of the suite those of other clients may arrive (`Others`).
-/

namespace Partition
open Bytes TinyMaix

/-- Messages of other clients: before a call connects, before it is made, and before it is closed. -/
structure Others where
  before : List Input
  connected : List Input
  called : List Input

/-- Nobody else. -/
def Others.nobody : Others := ⟨[], [], []⟩

section Calls

variable (dev : Device) (l : Link) (o : Others)

def serveAll (s : Service) (is : List Input) : Service :=
  is.foldl (fun s i => serve dev i.1 i.2 s) s

/-- `withService`, among others. -/
def withServiceAmong {α : Type} (type : Int) (out : List Byte) (k : Int → List Byte → α)
    (refused : α) (s : Service) : Option (α × Service) :=
  let s := serveAll dev s o.before
  if l.handle ≤ 0 then some (refused, s)
  else do
    let s := serveAll dev (serve dev l.connect (connectMsg l.handle) s) o.connected
    let r ← psaCall dev l type out s
    return (k r.1 r.2.1, serve dev l.close (disconnectMsg l.handle) (serveAll dev r.2.2 o.called))

/-- `tfm_tinymaix_load_encrypted_model`, among others. -/
def loadAmong (s : Service) : Option (TfmTinymaixStatus × Service) :=
  withServiceAmong dev l o tinymaixIpcLoadEncryptedModel (leBytes 4 1)
    (fun status out =>
      if status ≠ psaSuccess ∨ leValue out ≠ 0 then .errorModelLoadFailed else .success)
    .errorGeneric s

/-- `tfm_tinymaix_run_inference_with_data`, among others, with the variable for the class. -/
def inferAmong (_imageData : Option (List Byte)) (_imageSize : Nat) (predictedClass : Int)
    (s : Service) : Option ((TfmTinymaixStatus × Option Int) × Service) :=
  withServiceAmong dev l o tinymaixIpcRunInference (leBytes 4 (2 ^ 32 - 1))
    (inferenceResult (some predictedClass)) (.errorGeneric, some predictedClass) s

/-- Among nobody, these are the wrappers. -/
theorem loadAmong_nobody (s : Service) :
    loadAmong dev l .nobody s = tfmTinymaixLoadEncryptedModel dev l s := rfl

theorem inferAmong_nobody (data : Option (List Byte)) (n : Nat) (c : Int) (s : Service) :
    inferAmong dev l .nobody data n c s =
      tfmTinymaixRunInferenceWithData dev l data n (some c) s := rfl

end Calls

/-! ### The suite -/

/-- How the suite ends: at the first test that fails, with its status, or with the two classes. -/
inductive TestResult where
  | loadFailed (status : TfmTinymaixStatus)
  | builtInFailed (status : TfmTinymaixStatus)
  | customFailed (status : TfmTinymaixStatus)
  | passed (builtIn custom : Option Int)
deriving DecidableEq, Repr

/-- The simple "7" of the third test. -/
def customImage : List Byte := (List.range (28 * 28)).map fun i =>
  let y := i / 28
  let x := i % 28
  if (y = 0 ∧ 10 ≤ x ∧ x ≤ 17) ∨ (y = 1 ∧ x = 17) ∨ (2 ≤ y ∧ y ≤ 6 ∧ x = 17) ∨
      (y = 7 ∧ 10 ≤ x ∧ x ≤ 17) then 255 else 0

/-- What the suite meets at each of its three calls. -/
structure Meets where
  load : Link × Others
  builtIn : Link × Others
  custom : Link × Others

/-- `test_tinymaix_basic_functionality`. -/
def testTinymaixBasicFunctionality (dev : Device) (w : Meets) (s : Service) :
    Option (TestResult × Service) := do
  let r ← loadAmong dev w.load.1 w.load.2 s
  if r.1 ≠ .success then return (.loadFailed r.1, r.2)
  else
    let r ← inferAmong dev w.builtIn.1 w.builtIn.2 none 0 (-1) r.2
    if r.1.1 ≠ .success then return (.builtInFailed r.1.1, r.2)
    else
      let predictedClass := r.1.2
      let r ← inferAmong dev w.custom.1 w.custom.2 (some customImage) customImage.length
        (predictedClass.getD (-1)) r.2
      if r.1.1 ≠ .success then return (.customFailed r.1.1, r.2)
      else return (.passed predictedClass r.1.2, r.2)

end Partition
