import Pico2wTfm.Partition.Client
import Pico2wTfm.Partition.Shipped
import Pico2wTfm.Results.LoadGate

/-!
# Results — ClientImages

`tfm_tinymaix_run_inference_with_data` does not look at the image it is given.  It asks for the class
of what is in `mnist_pic`: the built-in test image, or the last image that some client sent by hand.

* `images_classified_iff`: when the class that comes back is that of the image all the same, and when
  an image of another size is refused.
-/

namespace Partition
open Bytes TinyMaix

/-- The picture that is in `mnist_pic`. -/
def Service.picture (s : Service) : List Byte := window s.mnistPic 0 784

/-- The messages of a call arrive, with room for an image. -/
structure Link.Works (l : Link) : Prop where
  connected : 0 < l.handle
  get : l.call.get = psaSuccess
  readLen : 784 ≤ l.call.readLen

/-- The API gives the image the class that the service gives it. -/
def Classifies (dev : Device) (l : Link) (s : Service) (image : List Byte) : Prop :=
  ∃ c, customClass dev l.call image s = some c ∧ ∀ c₀, ∃ s',
    tfmTinymaixRunInferenceWithData dev l (some image) 784 (some c₀) s =
      some ((.success, some c), s')

/-- The API refuses an image of `n` bytes and leaves the class alone. -/
def Refuses (dev : Device) (l : Link) (s : Service) (n : Nat) : Prop :=
  ∀ image c₀, ∃ status s', status ≠ .success ∧
    tfmTinymaixRunInferenceWithData dev l (some image) n (some c₀) s =
      some ((status, some c₀), s')

section Images

variable {dev : Device} {l : Link} {h : List (Input × Service)} {s : Service} {image : List Byte}

/-- What the model is when it is loaded. -/
theorem Serves.mdl (r : Serves dev h s) (hl : s.gModelLoaded = true) :
    s.gMdl.b.region = .model := by
  rw [(r.inStep.2 hl).b]
  rfl

theorem length_picture : s.picture.length = 28 * 28 := by
  rw [Service.picture, length_window]

/-- A request that brings no image, and one that brings the picture, are answered alike. -/
theorem answer_received_nil {f : Outcome} (hread : 784 ≤ f.readLen) {msg msg' : Msg}
    (hnil : msg.inVec = []) (hpic : msg'.inVec = s.picture) :
    answer dev (preprocessed dev (received f msg s.fresh)) =
      answer dev (preprocessed dev (received f msg' s.fresh)) := by
  have hsize : ¬msg.inSize = 28 * 28 := by
    rw [Msg.inSize, hnil]
    decide
  have hsize' : msg'.inSize = 28 * 28 := by
    rw [Msg.inSize, hpic, length_picture]
  have hgot : min f.readLen msg'.inSize = 28 * 28 := by
    rw [hsize']
    exact min_eq_right hread
  have hall : msg'.inVec.take (28 * 28) = s.picture := by
    rw [hpic]
    exact List.take_of_length_le length_picture.le
  have hsame : s.fresh.writePic s.picture = s.fresh := by
    have key : splice s.fresh.mnistPic 0 s.picture = s.fresh.mnistPic :=
      splice_window s.mnistPic 784
    rw [Service.writePic, key]
  rw [received, received, if_neg hsize, if_pos hsize', readImage, hgot, hall, hsame]
  rfl

/-- The class that the API comes back with: that of the picture. -/
def apiResult (c₀ : Int) : Option Int → TfmTinymaixStatus × Option Int
  | some c => if c < 0 then (.errorInferenceFailed, some c₀) else (.success, some c)
  | none => (.errorInferenceFailed, some c₀)

theorem inferenceResult_error {c₀ status : Int} {out : List Byte} (h : status ≠ psaSuccess) :
    inferenceResult (some c₀) status out = apiResult c₀ none := if_pos (Or.inl h)

theorem inferenceResult_success {c₀ : Int} {out : List Byte} :
    inferenceResult (some c₀) psaSuccess out = apiResult c₀ (some (toI32 (leValue out))) := by
  rw [inferenceResult, apiResult]
  by_cases hneg : toI32 (leValue out) < 0
  · rw [if_pos hneg]
    exact if_pos (Or.inr hneg)
  · rw [if_neg hneg]
    exact if_neg (not_or.mpr ⟨not_not.mpr rfl, hneg⟩)

/-- **What the API does**, whatever image it is given. -/
theorem runInferenceWithData_eq (r : Serves dev h s) (hl : s.gModelLoaded = true) (hw : l.Works)
    (data : Option (List Byte)) (n : Nat) (c₀ : Int) : ∃ s',
      tfmTinymaixRunInferenceWithData dev l data n (some c₀) s =
        some (apiResult c₀ (customClass dev l.call s.picture s), s') := by
  have hb := r.mdl hl
  obtain ⟨msg, hmsg⟩ : ∃ msg : Msg, msg = ⟨tinymaixIpcRunInference, l.handle, [], 4⟩ := ⟨_, rfl⟩
  have hd : Delivered l.call msg := ⟨hw.get, by rw [hmsg], Or.inr (by rw [hmsg]; rfl)⟩
  obtain ⟨pic, hpic⟩ : ∃ pic : Msg, pic = ⟨tinymaixIpcRunInference, 0, s.picture, 4⟩ := ⟨_, rfl⟩
  have hsize : pic.inSize = 28 * 28 := by rw [hpic, Msg.inSize, length_picture]
  have hd' : Delivered l.call pic := ⟨hw.get, by rw [hpic], Or.inl ⟨hsize, hw.readLen⟩⟩
  obtain ⟨u, hu⟩ : ∃ u, u = preprocessed dev (received l.call msg s.fresh) := ⟨_, rfl⟩
  -- the picture has the class that the call comes back with
  have hclass : customClass dev l.call s.picture s = answer dev u := by
    rw [customClass, ← hpic, classOf_delivered hl hd' hb (by rw [hpic]), hu]
    exact (answer_received_nil hw.readLen (by rw [hmsg]) (by rw [hpic])).symm
  have hout : (⟨tinymaixIpcRunInference, l.handle, [], (leBytes 4 (2 ^ 32 - 1)).length⟩ : Msg) =
      msg := by rw [hmsg, length_leBytes]
  rw [tfmTinymaixRunInferenceWithData, if_neg (Option.some_ne_none c₀), hclass, answer]
  rcases delivered_trace hl hd hb (by rw [hmsg]) hu with ⟨hno, hr⟩ | ⟨hok, hr, hwr⟩
  · obtain ⟨s', hs'⟩ := withService_eq (inferenceResult (some c₀)) (.errorGeneric, some c₀) hw.connected
      (hout ▸ hr)
    rw [hs', if_pos hno, inferenceResult_error psaErrorGenericError_ne]
    exact ⟨s', rfl⟩
  · obtain ⟨s', hs'⟩ := withService_eq (inferenceResult (some c₀)) (.errorGeneric, some c₀) hw.connected
      (hout ▸ hr)
    rw [hs', hout, hwr, if_neg (not_not.mpr hok), inferenceResult_success, length_leBytes,
      List.drop_of_length_le (length_leBytes _ _).le, List.append_nil,
      leValue_leBytes_of_lt (BitVec.isLt _)]
    exact ⟨s', rfl⟩

/-- **When the API classifies the image it is given**: the picture in `mnist_pic` happens to have the
class of the image.  Another size is refused only if the picture has no class. -/
theorem images_classified_iff (r : Serves dev h s) (hl : s.gModelLoaded = true) (hw : l.Works) :
    (∀ image, Classifies dev l s image ↔
      customClass dev l.call s.picture s = customClass dev l.call image s ∧
        ∃ c, 0 ≤ c ∧ customClass dev l.call image s = some c) ∧
    ∀ n, Refuses dev l s n ↔ ¬∃ c, 0 ≤ c ∧ customClass dev l.call s.picture s = some c := by
  have api := runInferenceWithData_eq r hl hw
  constructor
  · intro image
    constructor
    · rintro ⟨c, hc, hapi⟩
      obtain ⟨s₁, h₁⟩ := hapi 0
      obtain ⟨s₂, h₂⟩ := api (some image) 784 0
      have he : (TfmTinymaixStatus.success, some c) =
          apiResult 0 (customClass dev l.call s.picture s) :=
        congrArg Prod.fst (Option.some.inj (h₁.symm.trans h₂))
      cases hp : customClass dev l.call s.picture s with
      | none =>
          rw [hp] at he
          cases he
      | some c' =>
          rw [hp, apiResult] at he
          by_cases hneg : c' < 0
          · rw [if_pos hneg] at he
            cases he
          · rw [if_neg hneg] at he
            obtain rfl : c = c' := Option.some.inj (congrArg Prod.snd he)
            exact ⟨hc.symm, c, not_lt.mp hneg, hc⟩
    · rintro ⟨hp, c, hpos, hc⟩
      refine ⟨c, hc, fun c₀ => ?_⟩
      obtain ⟨s', h'⟩ := api (some image) 784 c₀
      rw [hp, hc, apiResult, if_neg (not_lt.mpr hpos)] at h'
      exact ⟨s', h'⟩
  · intro n
    constructor
    · rintro href ⟨c, hpos, hc⟩
      obtain ⟨status, s₁, hne, h₁⟩ := href [] 0
      obtain ⟨s₂, h₂⟩ := api (some []) n 0
      rw [hc, apiResult, if_neg (not_lt.mpr hpos)] at h₂
      have he : (status, some 0) = (TfmTinymaixStatus.success, some c) :=
        congrArg Prod.fst (Option.some.inj (h₁.symm.trans h₂))
      exact hne (congrArg Prod.fst he)
    · intro hno image c₀
      obtain ⟨s', h'⟩ := api (some image) n c₀
      refine ⟨.errorInferenceFailed, s', TfmTinymaixStatus.noConfusion, ?_⟩
      cases hp : customClass dev l.call s.picture s with
      | none =>
          rw [hp] at h'
          exact h'
      | some c =>
          have hneg : c < 0 := not_le.mp fun hpos => hno ⟨c, hpos, hp⟩
          rw [hp, apiResult, if_pos hneg] at h'
          exact h'

end Images

/-! ### The shipped model -/

/-- A device with the shipped model built in. -/
def mnistDevice : Device := deviceWith mdlData

/-- The shipped model is loaded there. -/
def mnistLoaded : Service := serve mnistDevice loadRequest.1 loadRequest.2 boot

theorem serves_mnistLoaded : Serves mnistDevice [(loadRequest, mnistLoaded)] mnistLoaded :=
  .more rfl (.refl _)

theorem shipped_mnistLoaded : Shipped mnistLoaded :=
  @shipped_load mnistDevice (fun _ => 0) _ _ _ rfl rfl Outcome.cryptoOk_success rfl

/-- A link on which everything arrives. -/
def goodLink : Link := ⟨1, .success, .success, .success⟩

theorem works_goodLink : goodLink.Works := ⟨by decide, rfl, le_rfl⟩

/-- Five bytes are refused only if the picture has no class. -/
theorem five_bytes_refused_iff : Refuses mnistDevice goodLink mnistLoaded 5 ↔
    ¬∃ c, 0 ≤ c ∧ customClass mnistDevice .success mnistLoaded.picture mnistLoaded = some c :=
  (images_classified_iff serves_mnistLoaded shipped_mnistLoaded.loaded works_goodLink).2 5

/-- **The black image is not classified, or five bytes are not refused.** -/
theorem image_or_size_ignored : Shipped mnistLoaded ∧
    Serves mnistDevice [(loadRequest, mnistLoaded)] mnistLoaded ∧
    ¬(Classifies mnistDevice goodLink mnistLoaded (List.replicate 784 0) ∧
      Refuses mnistDevice goodLink mnistLoaded 5) := by
  refine ⟨shipped_mnistLoaded, serves_mnistLoaded, ?_⟩
  rintro ⟨⟨c, -, hclass⟩, hrefuse⟩
  have api := runInferenceWithData_eq serves_mnistLoaded shipped_mnistLoaded.loaded works_goodLink
  -- the API cannot tell the two calls from each other
  obtain ⟨s₁, h₁⟩ := hclass 0
  obtain ⟨s₂, h₂⟩ := api (some (List.replicate 784 0)) 784 0
  obtain ⟨status, s₃, hne, h₃⟩ := hrefuse [] 0
  obtain ⟨s₄, h₄⟩ := api (some []) 5 0
  have e₁ := congrArg Prod.fst (Option.some.inj (h₁.symm.trans h₂))
  have e₂ := congrArg Prod.fst (Option.some.inj (h₃.symm.trans h₄))
  exact hne (congrArg Prod.fst (e₂.trans e₁.symm))

end Partition
