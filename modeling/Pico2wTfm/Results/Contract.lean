import Pico2wTfm.Results.Deployment

/-!
# Results — Contract

The service as its clients see it.  In front of the buffers of the partition, the key derivation and
the six layers of a network there is a small machine: a model is loaded or not, there is a picture, and
each message is answered from these two (`Contract.step`).

* `shipped_contract`: on a device that is built with the shipped model, every history of messages is
  seen as a run of that machine, message by message and byte by byte.

What a `LOAD` is answered is the only thing that depends on the cryptographic calls, and it depends on
nothing that happened before (`loadModel_status`).
-/

namespace Partition
open Bytes Footprint TinyMaix

/-! ### The machine -/

/-- What clients see of the service: is a model loaded, the picture, and what the last message was
answered: the status of the reply, if there was one, and what was written. -/
@[ext]
structure View where
  loaded : Bool
  picture : List Byte
  status : Option Int
  data : List Byte
deriving DecidableEq, Repr

def Service.view (s : Service) : View :=
  ⟨s.gModelLoaded, s.picture, replyStatus s.trace, written s.trace⟩

theorem view_picture {s : Service} : s.view.picture = s.picture := by
  rw [Service.view]

def View.answer (v : View) (status : Int) (data : List Byte) : View :=
  { v with status := some status, data := data }

/-- What the service is built for. -/
structure Contract where
  /-- The class of a picture. -/
  label : (Nat → Byte) → Int
  /-- The status of a `LOAD`. -/
  load : Outcome → Int
  /-- The model key, where a client may ask for it. -/
  key : Option (Cbc.Block derivedKeyLen)

namespace Contract

variable (c : Contract)

/-- A class, if there is room for it. -/
def classified (msg : Msg) (v : View) : View :=
  v.answer psaSuccess (if 4 ≤ msg.outSize then
    leBytes 4 (BitVec.ofInt 32 (c.label fun i => v.picture.getD i 0)).toNat else [])

/-- A request for a class. -/
def infer (f : Outcome) (msg : Msg) (v : View) : View :=
  if v.loaded = false then v.answer psaErrorBadState []
  else if msg.inSize = 28 * 28 then
    -- what arrives of an image stays, even if it is not all of it
    let v := { v with picture := msg.inVec.take f.readLen ++ v.picture.drop f.readLen }
    if f.readLen < 28 * 28 then v.answer psaErrorCommunicationFailure [] else c.classified msg v
  else if msg.inSize = 0 then c.classified msg v
  else v.answer psaErrorInvalidArgument []

/-- The status of a key derivation: that of the first call that fails. -/
def derivation (f : Outcome) : Int :=
  ([f.kdfSetup, f.kdfInputSalt, f.kdfInputKey, f.kdfInputInfo, f.kdfOutput].find?
    (· ≠ psaSuccess)).getD psaSuccess

/-- A request for the key. -/
def reveal (f : Outcome) (msg : Msg) (v : View) : View :=
  match c.key with
  | none => v.answer psaErrorNotSupported []
  | some key =>
      if msg.outSize < derivedKeyLen then v.answer psaErrorBufferTooSmall []
      else v.answer (derivation f) (if derivation f = psaSuccess then List.ofFn key else [])

/-- A `LOAD`. -/
def reload (f : Outcome) (msg : Msg) (v : View) : View :=
  { v with loaded := decide (c.load f = psaSuccess) }.answer (c.load f)
    (if c.load f = psaSuccess ∧ 4 ≤ msg.outSize then leBytes 4 0 else [])

/-- **One message.** -/
def step (v : View) (i : Input) : View :=
  if i.1.get ≠ psaSuccess then { v with status := none, data := [] }
  else if i.2.type = psaIpcConnect ∨ i.2.type = psaIpcDisconnect then v.answer psaSuccess []
  else if i.2.type = tinymaixIpcLoadEncryptedModel then c.reload i.1 i.2 v
  else if i.2.type = tinymaixIpcRunInference then c.infer i.1 i.2 v
  else if i.2.type = tinymaixIpcGetModelKey then c.reveal i.1 i.2 v
  else v.answer psaErrorNotSupported []

/-- What is seen after some messages. -/
def run (v : View) (is : List Input) : View := is.foldl c.step v

theorem run_concat {v : View} {is : List Input} {i : Input} :
    c.run v (is ++ [i]) = c.step (c.run v is) i := List.foldl_concat ..

end Contract

/-- What a device is built for, if it classifies by `label`. -/
def contractOf (dev : Device) (label : (Nat → Byte) → Int) : Contract where
  label := label
  load f := (loadModel dev f boot).1
  key := if dev.devMode = true then
    some (dev.hkdf dev.huk getModelKeyHukLabel derivedKeyLen) else none

/-- The class of an image is `label` of it, whatever happened before. -/
def Labels (dev : Device) (label : (Nat → Byte) → Int) : Prop :=
  ∀ h s f msg, Serves dev h s → s.gModelLoaded = true → Delivered f msg → msg.inSize = 28 * 28 →
    replyStatus (serve dev f msg s).trace = some psaSuccess ∧
      written (serve dev f msg s).trace = if 4 ≤ msg.outSize then
        leBytes 4 (BitVec.ofInt 32 (label fun i => msg.inVec.getD i 0)).toNat else []

/-! ### A `LOAD` -/

section Load

variable {dev : Device} {f : Outcome} {P m : List Byte} {s t : Service}

theorem removePadding_cases {o n : Nat} :
    (removePadding o n s).1 = psaSuccess ∨ (removePadding o n s).1 = psaErrorGenericError := by
  unfold removePadding
  dsimp only
  split_ifs
  all_goals first
    | exact Or.inl rfl
    | exact Or.inr rfl

/-- The checks at the end of a decryption look at the plaintext only. -/
theorem removePadding_status {o n : Nat}
    (h : window s.gDecryptedModel 0 n = window t.gDecryptedModel 0 n) :
    (removePadding o n s).1 = (removePadding o n t).1 := by
  by_cases hn : n = 0
  · rw [removePadding, removePadding, if_pos hn, if_pos hn]
  · have hiff : (removePadding o n s).1 = psaSuccess ↔ (removePadding o n t).1 = psaSuccess := by
      rw [removePadding_spec hn, removePadding_spec hn, h]
    rcases @removePadding_cases s o n with hs | hs
    · rw [hs, hiff.mp hs]
    · rcases @removePadding_cases t o n with ht | ht
      · exact absurd (hs.symm.trans (hiff.mpr ht)) psaErrorGenericError_ne
      · rw [hs, ht]

/-- The status of a check, and of what follows it. -/
theorem guard_status {α : Type} {c : Prop} [Decidable c] {e : Int} {x x' : α} {y y' : Int × α}
    (h : y.1 = y'.1) : (if c then (e, x) else y).1 = (if c then (e, x') else y').1 := by
  split
  · rfl
  · exact h

theorem cipherDecrypt_status (h : s.encryptionKey = t.encryptionKey) :
    (cipherDecrypt dev f P s).1 = (cipherDecrypt dev f P t).1 := by
  unfold cipherDecrypt
  rw [h]
  refine guard_status (guard_status (removePadding_status ?_))
  show window (splice _ 0 _) 0 _ = window (splice _ 0 _) 0 _
  rw [window_splice, window_splice]

theorem deriveKeyFromHuk_status {l : String} {derived : Cbc.Block 16} :
    (deriveKeyFromHuk dev f l derived s).1 = Contract.derivation f := by
  unfold deriveKeyFromHuk Contract.derivation
  dsimp only
  split_ifs <;> simp_all

theorem decryptModel_status : (decryptModel dev f P s).1 = (decryptModel dev f P t).1 := by
  refine guard_status (guard_status (guard_status (guard_status (guard_status ?_))))
  by_cases hk : Contract.derivation f = psaSuccess
  · have key : ∀ u : Service, (keyed dev f u).encryptionKey = deviceKey dev := fun u =>
      keyed_key (deriveKeyFromHuk_status.trans hk)
    rw [deriveKeyFromHuk_status, deriveKeyFromHuk_status]
    refine guard_status (guard_status (guard_status (guard_status (cipherDecrypt_status ?_))))
    exact (key s).trans (key t).symm
  · rw [deriveKeyFromHuk_status, deriveKeyFromHuk_status, if_pos hk, if_pos hk]

theorem loadPackage_status : (loadPackage dev f s).1 = (loadPackage dev f t).1 :=
  guard_status decryptModel_status

/-- **The status of a `LOAD`** does not depend on the state. -/
theorem loadModel_status (hb : Built dev m) (hlen : 20 ≤ m.length) :
    (loadModel dev f s).1 = (loadModel dev f t).1 := by
  have hpkg := @loadPackage_status dev f s t
  rw [loadModel_eq, loadModel_eq]
  by_cases hp : (loadPackage dev f s).1 = psaSuccess
  · have hp' := hpkg.symm.trans hp
    have hload : (tmLoadCall dev (loadPackage dev f s).2).1.1 = .ok ↔
        (tmLoadCall dev (loadPackage dev f t).2).1.1 = .ok := by
      rw [tmLoadCall_ok, tmLoadCall_ok, loads_window (window_built hb hp).1 hlen,
        loads_window (window_built hb hp').1 hlen]
    rw [if_pos hp, if_pos hp']
    by_cases hok : (tmLoadCall dev (loadPackage dev f s).2).1.1 = .ok
    · rw [if_neg (not_not.mpr hok), if_neg (not_not.mpr (hload.mp hok))]
    · rw [if_pos hok, if_pos fun h => hok (hload.mpr h)]
  · rw [if_neg hp, if_neg fun h => hp (hpkg.trans h)]
    exact hpkg

theorem loadModel_written : written (loadModel dev f s).2.trace = written s.trace := by
  have key : written (loadPackage dev f s).2.trace = written s.trace :=
    guard_keeps (p := fun t : Service => written t.trace = written s.trace) rfl
      (decryptModel_keeps (p := fun t => written t.trace = written s.trace)
        (fun _ _ _ h => (written_emit.trans (List.append_nil _)).trans h)
        (fun _ _ _ h => h) (fun _ _ h => h) (fun _ _ h => h) rfl)
  rw [loadModel_eq]
  split_ifs <;> exact key

end Load

/-! ### One message -/

section Step

variable {dev : Device} {label : (Nat → Byte) → Int} {f : Outcome} {msg : Msg} {s : Service}
  {h : List (Input × Service)}

/-- What is seen of a step that leaves the gate alone. -/
theorem view_eq {s' : Service} {pic data : List Byte} {st : Int} (hg : s'.gate = s.gate)
    (hp : s'.picture = pic) (hr : replyStatus s'.trace = some st) (hw : written s'.trace = data) :
    s'.view = { s.view with picture := pic }.answer st data := by
  have hl : s'.gModelLoaded = s.gModelLoaded := congrArg Gate.loaded hg
  rw [Service.view, Service.view, hl, hp, hr, hw, View.answer]

theorem view_fresh : s.fresh.view = { s.view with status := none, data := [] } := by
  have hp : s.fresh.view.picture = s.view.picture := by
    rw [view_picture, view_picture]
    exact congrArg (window · 0 784) (show s.fresh.mnistPic = s.mnistPic from rfl)
  refine View.ext rfl ?_ rfl rfl
  rw [hp]

/-- A reply, and nothing else. -/
theorem view_reply {st : Int} : (s.fresh.reply msg st).view = s.view.answer st [] :=
  view_eq rfl rfl (replyStatus_reply rfl) written_reply

/-- The picture after a read. -/
theorem picture_readImage (hn : msg.inSize = 28 * 28) :
    (readImage msg (min f.readLen msg.inSize) s).picture =
      msg.inVec.take f.readLen ++ s.picture.drop f.readLen := by
  have hlen : (msg.inVec.take (min f.readLen msg.inSize)).length = min f.readLen 784 := by
    rw [List.length_take, show msg.inVec.length = 784 from hn, hn]
    exact min_eq_left (min_le_right _ _)
  have htake : msg.inVec.take (min f.readLen msg.inSize) = msg.inVec.take f.readLen :=
    List.take_eq_take_min.symm
  have hdrop : s.picture.drop (min f.readLen 784) = s.picture.drop f.readLen := by
    have hp : s.picture.length = 784 := length_picture
    rw [← hp, List.drop_eq_drop_iff]
    omega
  have hsplice : (readImage msg (min f.readLen msg.inSize) s).picture =
      window (splice s.mnistPic 0 (msg.inVec.take (min f.readLen msg.inSize))) 0 784 := rfl
  rw [hsplice, window_splice_append (hlen.trans_le (min_le_right _ _)), hlen, htake]
  exact congrArg (_ ++ ·) hdrop

theorem handleLoad_view : (handleLoad dev f msg s.fresh).view =
    { s.view with loaded := decide ((loadModel dev f s.fresh).1 = psaSuccess) }.answer
      (loadModel dev f s.fresh).1
      (if (loadModel dev f s.fresh).1 = psaSuccess ∧ 4 ≤ msg.outSize then leBytes 4 0 else []) := by
  have hstatus := @handleLoad_reply dev f msg s.fresh rfl
  have hpic : (handleLoad dev f msg s.fresh).mnistPic = s.mnistPic := by
    rw [handleLoad, Service.reply]
    show (if _ then _ else _ : Service).mnistPic = _
    split
    · exact writeIfRoom_mnistPic.trans loadModel_mnistPic
    · exact loadModel_mnistPic
  have hloaded : (handleLoad dev f msg s.fresh).gModelLoaded =
      decide ((loadModel dev f s.fresh).1 = psaSuccess) := by
    rw [show (handleLoad dev f msg s.fresh).gModelLoaded = (loadModel dev f s.fresh).2.gModelLoaded
      from congrArg Gate.loaded handleLoad_gate]
    by_cases hok : (loadModel dev f s.fresh).1 = psaSuccess
    · rw [decide_eq_true hok]
      exact congrArg Gate.loaded (loadModel_gate hok)
    · rw [decide_eq_false hok, loadModel_fails hok]
  have hnil : written (loadModel dev f s.fresh).2.trace = [] := loadModel_written
  have hwritten : written (handleLoad dev f msg s.fresh).trace =
      if (loadModel dev f s.fresh).1 = psaSuccess ∧ 4 ≤ msg.outSize then leBytes 4 0 else [] := by
    rw [handleLoad]
    refine written_reply.trans ?_
    by_cases hok : (loadModel dev f s.fresh).1 = psaSuccess
    · rw [if_pos hok, Service.writeIfRoom, length_leBytes]
      by_cases hroom : 4 ≤ msg.outSize
      · rw [if_pos hroom, if_pos ⟨hok, hroom⟩, written_emit, hnil, List.nil_append]
        exact List.append_nil _
      · rw [if_neg hroom, if_neg fun h => hroom h.2, hnil]
    · rw [if_neg hok, if_neg fun h => hok h.1, hnil]
  rw [Service.view, Service.view, Service.picture, Service.picture, hpic, hloaded, hstatus, hwritten,
    View.answer]

theorem toI32_toNat_inj {x y : BitVec 32} (h : toI32 x.toNat = toI32 y.toNat) : x = y := by
  rw [toI32, toI32, BitVec.ofNat_toNat, BitVec.ofNat_toNat] at h
  exact BitVec.eq_of_toInt_eq h

/-- A request without an image gets the class of the picture. -/
theorem Labels.builtIn (hc : Labels dev label) (r : Serves dev h s) (hl : s.gModelLoaded = true)
    (hget : f.get = psaSuccess) (ht : msg.type = tinymaixIpcRunInference) (h0 : msg.inSize = 0) :
    replyStatus (serve dev f msg s).trace = some psaSuccess ∧
      written (serve dev f msg s).trace = if 4 ≤ msg.outSize then
        leBytes 4 (BitVec.ofInt 32 (label fun i => s.picture.getD i 0)).toNat else [] := by
  have hb : s.gMdl.b.region = .model := r.mdl hl
  -- a request that brings the picture itself
  obtain ⟨f', hf'⟩ : ∃ f' : Outcome, f' = { f with readLen := 784 } := ⟨_, rfl⟩
  obtain ⟨pic, hpic⟩ : ∃ pic : Msg, pic = ⟨tinymaixIpcRunInference, 0, s.picture, 4⟩ := ⟨_, rfl⟩
  have hsize : pic.inSize = 28 * 28 := by rw [hpic, Msg.inSize, length_picture]
  have hread : 784 ≤ f'.readLen := by rw [hf']
  have hd' : Delivered f' pic := ⟨by rw [hf']; exact hget, by rw [hpic], Or.inl ⟨hsize, hread⟩⟩
  obtain ⟨hstatus, hwritten⟩ := hc h s f' pic r hl hd' hsize
  have hclass := @classOf_delivered dev f' pic s hl hd' hb (by rw [hpic])
  rw [classOf, if_pos hstatus, hwritten, if_pos (by rw [hpic]),
    leValue_leBytes_of_lt (BitVec.isLt _)] at hclass
  have hd : Delivered f msg := ⟨hget, ht, Or.inr h0⟩
  have hsame : received f' msg s.fresh = received f msg s.fresh := by
    have hno : ¬msg.inSize = 28 * 28 := by rw [h0]; decide
    rw [received, received, if_neg hno, if_neg hno]
  have hanswer : answer dev (preprocessed dev (received f msg s.fresh)) =
      answer dev (preprocessed dev (received f' pic s.fresh)) := by
    rw [← hsame]
    exact answer_received_nil hread (List.length_eq_zero_iff.mp h0) (by rw [hpic])
  rw [← hclass, answer] at hanswer
  by_cases hok : (tmRunCall dev (preprocessed dev (received f msg s.fresh))).1.1 = .ok
  · rw [if_neg (not_not.mpr hok)] at hanswer
    have hvalue := toI32_toNat_inj (Option.some.inj hanswer)
    obtain ⟨status, class_⟩ := delivered_ok hl hd hb rfl hok
    rw [hvalue, show pic.inVec = s.picture by rw [hpic]] at class_
    exact ⟨status, class_⟩
  · rw [if_pos hok] at hanswer
    cases hanswer

/-- Only a `LOAD` changes the gate. -/
theorem Serves.gate_eq (r : Serves dev h s) (ht : msg.type ≠ tinymaixIpcLoadEncryptedModel) :
    (serve dev f msg s).gate = s.gate := by
  have hb : s.fresh.gModelLoaded = true → s.fresh.gMdl.b.region = .model := r.mdl
  rw [serve]
  split
  · rfl
  · exact handle_gate hb ht

theorem classified_eq {v : View} {pic : List Byte} (hp : v.picture = pic) :
    (contractOf dev label).classified msg v = v.answer psaSuccess (if 4 ≤ msg.outSize then
      leBytes 4 (BitVec.ofInt 32 (label fun i => pic.getD i 0)).toNat else []) := by
  rw [Contract.classified, hp]
  rfl

/-- What is left of the image of a request. -/
theorem runInference_mnistPic (hl : s.gModelLoaded = true) :
    (runInference dev f msg s).2.mnistPic = if msg.inSize = 28 * 28 then
      (readImage msg (min f.readLen msg.inSize) s).mnistPic else s.mnistPic := by
  rw [runInference, if_neg (ne_of_eq_of_ne hl (by decide))]
  dsimp only
  split_ifs
  · rfl
  · exact classify_mnistPic
  · exact classify_mnistPic
  · rfl

/-- **A request for a class.** -/
theorem Labels.infer_view (hc : Labels dev label) (r : Serves dev h s) (hget : f.get = psaSuccess)
    (ht : msg.type = tinymaixIpcRunInference) :
    (serve dev f msg s).view = (contractOf dev label).infer f msg s.view := by
  have hgate : (serve dev f msg s).gate = s.gate := r.gate_eq (by rw [ht]; decide)
  have hserve : serve dev f msg s = (runInference dev f msg s.fresh).2.reply msg
      (runInference dev f msg s.fresh).1 := by
    rw [serve, if_neg (not_not.mpr hget), handle, ht, if_neg (by decide), if_neg (by decide),
      if_pos rfl, handleRunInference]
  rw [Contract.infer]
  by_cases hl : s.fresh.gModelLoaded = false
  · rw [if_pos (show s.view.loaded = false from hl), @serve_badState dev s f msg hl hget ht, view_reply]
  have hl' : s.gModelLoaded = true := Bool.not_eq_false _ ▸ hl
  have hpic : (serve dev f msg s).mnistPic = (runInference dev f msg s.fresh).2.mnistPic := by
    rw [hserve]
    rfl
  rw [@runInference_mnistPic dev f msg s.fresh hl'] at hpic
  rw [if_neg (show ¬s.view.loaded = false from hl)]
  by_cases hn : msg.inSize = 28 * 28
  · have hpicture : (serve dev f msg s).picture =
        msg.inVec.take f.readLen ++ s.picture.drop f.readLen := by
      rw [Service.picture, hpic, if_pos hn]
      exact picture_readImage (s := s.fresh) hn
    rw [if_pos hn, view_picture]
    by_cases hread : f.readLen < 28 * 28
    · -- not all of the image arrives
      have hgot : min f.readLen msg.inSize ≠ msg.inSize := by omega
      have hrun : runInference dev f msg s.fresh = (psaErrorCommunicationFailure,
          readImage msg (min f.readLen msg.inSize) s.fresh) := by
        rw [runInference, if_neg hl, if_pos hn]
        exact if_pos hgot
      have hstatus : replyStatus (serve dev f msg s).trace = some psaErrorCommunicationFailure := by
        rw [hserve, hrun]
        exact replyStatus_reply rfl
      have hwritten : written (serve dev f msg s).trace = [] := by
        rw [hserve, hrun]
        exact written_reply
      rw [view_eq hgate hpicture hstatus hwritten]
      exact (if_pos hread).symm
    · have hd : Delivered f msg := ⟨hget, ht, Or.inl ⟨hn, not_lt.mp hread⟩⟩
      obtain ⟨hstatus, hwritten⟩ := hc h s f msg r hl' hd hn
      have hwhole : msg.inVec.take f.readLen ++ s.picture.drop f.readLen = msg.inVec := by
        rw [List.take_of_length_le (hn.trans_le (not_lt.mp hread)),
          List.drop_of_length_le (length_picture.trans_le (not_lt.mp hread)), List.append_nil]
      rw [view_eq hgate hpicture hstatus hwritten, ← classified_eq hwhole]
      exact (if_neg hread).symm
  · rw [if_neg hn] at hpic ⊢
    by_cases h0 : msg.inSize = 0
    · obtain ⟨hstatus, hwritten⟩ := hc.builtIn r hl' hget ht h0
      have hpicture : (serve dev f msg s).picture = s.picture := by
        rw [Service.picture, hpic]
        rfl
      rw [if_pos h0, classified_eq view_picture]
      exact view_eq hgate hpicture hstatus hwritten
    · have hrun : runInference dev f msg s.fresh = (psaErrorInvalidArgument, s.fresh) := by
        rw [runInference, if_neg hl, if_neg hn, if_neg h0]
      rw [if_neg h0, hserve, hrun, view_reply]

/-- **A request for the key**, where it is handled. -/
theorem handleGetModelKey_view (hmode : dev.devMode = true) :
    (handleGetModelKey dev f msg s.fresh).view = (contractOf dev label).reveal f msg s.view := by
  have hkey : (contractOf dev label).key =
      some (dev.hkdf dev.huk getModelKeyHukLabel derivedKeyLen) := if_pos hmode
  rw [handleGetModelKey, Contract.reveal, hkey]
  dsimp only
  by_cases hroom : msg.outSize < derivedKeyLen
  · rw [if_pos hroom, if_pos hroom, view_reply]
  rw [if_neg hroom, if_neg hroom]
  obtain ⟨k, hk⟩ : ∃ k, k = deriveKeyFromHuk dev f getModelKeyHukLabel (fun _ => 0) s.fresh :=
    ⟨_, rfl⟩
  have hstatus : k.1 = Contract.derivation f := hk ▸ deriveKeyFromHuk_status
  have hgate : k.2.2.gate = s.gate := hk ▸ deriveKeyFromHuk_keeps
    (p := fun t => t.gate = s.gate) (fun _ _ _ h => h) rfl
  have hpic : k.2.2.mnistPic = s.mnistPic := hk ▸ deriveKeyFromHuk_keeps
    (p := fun t => t.mnistPic = s.mnistPic) (fun _ _ _ h => h) rfl
  have hreply : replyStatus k.2.2.trace = none := hk ▸ deriveKeyFromHuk_keeps
    (p := fun t => replyStatus t.trace = none)
    (fun _ _ _ h => (replyStatus_emit fun _ _ => Event.noConfusion).trans h) rfl
  have hnil : written k.2.2.trace = [] := hk ▸ deriveKeyFromHuk_keeps
    (p := fun t => written t.trace = [])
    (fun _ _ _ h => (written_emit.trans (List.append_nil _)).trans h) rfl
  rw [← hk, hstatus]
  by_cases hok : Contract.derivation f = psaSuccess
  · have hkey : k.2.1 = dev.hkdf dev.huk getModelKeyHukLabel derivedKeyLen := by
      rw [hk]
      exact deriveKeyFromHuk_key (deriveKeyFromHuk_status.trans hok)
    rw [if_pos hok, if_pos hok, hkey]
    refine view_eq hgate (congrArg (window · 0 784) hpic) (replyStatus_reply ?_) ?_
    · exact (replyStatus_emit fun _ _ => Event.noConfusion).trans hreply
    · rw [written_reply, written_emit, hnil]
      exact List.append_nil _
  · rw [if_neg hok, if_neg hok]
    exact view_eq hgate (congrArg (window · 0 784) hpic) (replyStatus_reply hreply)
      (written_reply.trans hnil)

/-- **One message**, as it is seen. -/
theorem Labels.step_view {m : List Byte} (hc : Labels dev label) (hb : Built dev m)
    (hlen : 20 ≤ m.length) (r : Serves dev h s) (i : Input) :
    (serve dev i.1 i.2 s).view = (contractOf dev label).step s.view i := by
  rw [Contract.step]
  by_cases hget : i.1.get ≠ psaSuccess
  · rw [serve, if_pos hget, if_pos hget, view_fresh]
  rw [if_neg hget]
  have hserve : serve dev i.1 i.2 s = handle dev i.1 i.2 s.fresh := if_neg hget
  by_cases hends : i.2.type = psaIpcConnect ∨ i.2.type = psaIpcDisconnect
  · rw [if_pos hends, hserve]
    have hreply : handle dev i.1 i.2 s.fresh = s.fresh.reply i.2 psaSuccess := by
      rw [handle]
      rcases hends with ht | ht
      · rw [if_pos ht]
      · rw [ht, if_neg (by decide), if_neg (by decide), if_neg (by decide),
          if_neg fun h => absurd h.2 (by decide), if_pos rfl]
    rw [hreply, view_reply]
  obtain ⟨hconnect, hdisconnect⟩ := not_or.mp hends
  rw [if_neg hends]
  by_cases hload : i.2.type = tinymaixIpcLoadEncryptedModel
  · have hstatus : (loadModel dev i.1 s.fresh).1 = (contractOf dev label).load i.1 :=
      loadModel_status hb hlen
    rw [if_pos hload, hserve, handle, if_neg hconnect, if_pos hload, handleLoad_view, hstatus,
      Contract.reload]
  rw [if_neg hload]
  by_cases hrun : i.2.type = tinymaixIpcRunInference
  · rw [if_pos hrun]
    exact hc.infer_view r (not_not.mp hget) hrun
  rw [if_neg hrun, hserve, handle, if_neg hconnect, if_neg hload, if_neg hrun, if_neg hdisconnect]
  by_cases ht : i.2.type = tinymaixIpcGetModelKey
  · rw [if_pos ht]
    by_cases hmode : dev.devMode = true
    · rw [if_pos ⟨hmode, ht⟩, handleGetModelKey_view hmode]
    · have hkey : (contractOf dev label).key = none := if_neg hmode
      rw [if_neg fun h => hmode h.1, view_reply, Contract.reveal, hkey]
  · rw [if_neg fun h => ht h.2, if_neg ht, view_reply]

/-- **A whole history**, as it is seen. -/
theorem Labels.run_view {m : List Byte} (hc : Labels dev label) (hb : Built dev m)
    (hlen : 20 ≤ m.length) (r : Serves dev h s) :
    s.view = (contractOf dev label).run boot.view (h.map Prod.fst) := by
  have key : Serves dev ([] ++ h) s ∧
      s.view = (contractOf dev label).run boot.view (([] ++ h).map Prod.fst) :=
    r.history (J := fun h s => Serves dev h s ∧
        s.view = (contractOf dev label).run boot.view (h.map Prod.fst))
      (fun h s i s' e J => by
        obtain ⟨r, hv⟩ := J
        have hs' : serve dev i.1 i.2 s = s' := Option.some.inj e
        refine ⟨r.trans (.more e (.refl s')), ?_⟩
        rw [List.map_append, List.map_singleton, Contract.run_concat, ← hv, ← hs']
        exact hc.step_view hb hlen r i)
      ⟨.refl boot, rfl⟩
  exact key.2

end Step

/-! ### The shipped model -/

section Shipped

variable {dev : Device}

theorem labels_mnist (hb : Built dev mdlData) : Labels dev (mnistClass dev.fl) :=
  fun _ _ _ _ r hl hd hn => shipped_reply r ⟨hl, (window_loaded hb r hl).2⟩ hd hn

/-- A `LOAD` of the shipped model succeeds when its calls do. -/
theorem load_mnist (hb : Built dev mdlData) (f : Outcome) :
    (contractOf dev (mnistClass dev.fl)).load f = psaSuccess ↔ f.DecryptOk := by
  have hload : (contractOf dev (mnistClass dev.fl)).load f = (loadModel dev f boot).1 := rfl
  rw [hload, loadModel_success, loadPackage_success]
  constructor
  · rintro ⟨⟨-, hok⟩, -⟩
    exact (decryptModel_success_iff.mp hok).1
  · intro hf
    obtain ⟨iv, hp⟩ := hb
    have hlen : dev.package.length ≤ tfmTinymaixMaxModelSize := by
      rw [hp, length_packageBytes, Pkcs7.length_pad, length_mdlData]
      decide
    have ho : Opens dev dev.package mdlData := by
      rw [hp]
      refine opens_package rfl ?_
      rw [Pkcs7.length_pad, length_mdlData]
      decide
    have hpkg : (loadPackage dev f boot).1 = psaSuccess :=
      loadPackage_success.mpr ⟨hlen, decryptModel_success_iff.mpr ⟨hf, mdlData, ho⟩⟩
    refine ⟨⟨hlen, (loadPackage_success.mp hpkg).2⟩, loads_ships ?_⟩
    exact (window_built ⟨iv, hp⟩ hpkg).1

/-- **The contract of the service.**  A device that is built with the shipped model is seen by its
clients as the machine of its contract: after every history of messages, whatever the outcomes of
the calls, the model is there or not, the picture is, and the last message was answered, as the machine
says.  A `LOAD` succeeds exactly when its cryptographic calls do. -/
theorem shipped_contract (hb : Built dev mdlData) :
    (∀ f, (contractOf dev (mnistClass dev.fl)).load f = psaSuccess ↔ f.DecryptOk) ∧
      ∀ h s, Serves dev h s →
        s.view = (contractOf dev (mnistClass dev.fl)).run boot.view (h.map Prod.fst) := by
  have hlen : 20 ≤ mdlData.length := by
    rw [length_mdlData]
    decide
  exact ⟨load_mnist hb, fun h s r => (labels_mnist hb).run_view hb hlen r⟩

theorem built_mnistDevice : Built mnistDevice mdlData := ⟨fun _ => 0, rfl⟩

/-- A `LOAD` on a device. -/
theorem shipped_contract_load :
    (contractOf mnistDevice (mnistClass mnistDevice.fl)).load .success = psaSuccess ∧
      mnistLoaded.view = (contractOf mnistDevice (mnistClass mnistDevice.fl)).run boot.view
        ([(loadRequest, mnistLoaded)].map Prod.fst) := by
  obtain ⟨load, seen⟩ := shipped_contract built_mnistDevice
  exact ⟨(load .success).mpr Outcome.cryptoOk_success.decryptOk, seen _ _ serves_mnistLoaded⟩

end Shipped

end Partition
