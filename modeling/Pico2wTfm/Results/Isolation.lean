import Pico2wTfm.Results.LoadGate

/-!
# Results — Isolation

A request without an image is answered for the image that is compiled in.  But the service has one
image buffer: `psa_read` puts the image of a client into `mnist_pic` itself, over the compiled-in
image, and the next request without an image finds it there.

* `isolated_of_keepsImage`: as long as no request delivers bytes that differ from those `mnist_pic`
  holds, two histories that differ only in images lead to the same state, with the compiled-in
  image in place, and to the same replies;
* `isolation_fails`: two histories that differ in one image, and a request without an image that is
  answered differently after them.
-/

namespace Partition
open Bytes Footprint TinyMaix

/-- The inputs differ at most in an image of 784 bytes. -/
structure SameButImage (i j : Input) : Prop where
  outcome : i.1 = j.1
  type : i.2.type = j.2.type
  handle : i.2.handle = j.2.handle
  outSize : i.2.outSize = j.2.outSize
  inSize : i.2.inSize = j.2.inSize
  image : i.2.inVec = j.2.inVec ∨ i.2.type = tinymaixIpcRunInference ∧ i.2.inSize = 28 * 28

/-- A request for an inference on the compiled-in image. -/
structure BuiltIn (i : Input) : Prop where
  get : i.1.get = psaSuccess
  type : i.2.type = tinymaixIpcRunInference
  inSize : i.2.inSize = 0

/-- The bytes of an image that arrive are those `mnist_pic` holds. -/
def KeepsImage (s : Service) (i : Input) : Prop :=
  i.1.get = psaSuccess → i.2.type = tinymaixIpcRunInference → s.gModelLoaded = true →
    i.2.inSize = 28 * 28 → i.2.inVec.take i.1.readLen = window s.mnistPic 0 (min i.1.readLen 784)

instance (s : Service) (i : Input) : Decidable (KeepsImage s i) :=
  inferInstanceAs (Decidable (_ → _ → _ → _ → _))

section Image

variable {dev : Device} {f : Outcome} {msg msg' : Msg} {s : Service} {i j : Input}

/-! ### What becomes of the image -/

theorem loadModel_mnistPic : (loadModel dev f s).2.mnistPic = s.mnistPic := by
  have key : (loadPackage dev f s).2.mnistPic = s.mnistPic :=
    guard_keeps (p := fun t : Service => t.mnistPic = s.mnistPic) rfl decryptModel_frame.mnistPic
  rw [loadModel_eq]
  split_ifs <;> exact key

theorem writeIfRoom_mnistPic {data : List Byte} :
    (s.writeIfRoom msg data).mnistPic = s.mnistPic := by
  unfold Service.writeIfRoom
  split <;> rfl

theorem ran_mnistPic : (ran dev s).mnistPic = s.mnistPic := rfl

theorem runModel_mnistPic : (runModel dev msg s).2.mnistPic = s.mnistPic := by
  rw [runModel_eq]
  split
  · exact ran_mnistPic
  · rw [writeIfRoom_mnistPic, parseCall, Service.run_mnistPic, ran_mnistPic]

theorem classify_mnistPic : (classify dev msg s).2.mnistPic = s.mnistPic := by
  rw [classify_def]
  split
  · rfl
  · exact runModel_mnistPic

/-- Reading what is there changes nothing. -/
theorem writePic_window {bs : List Byte} (h : bs = window s.mnistPic 0 bs.length) :
    s.writePic bs = s := by
  have key : splice s.mnistPic 0 bs = s.mnistPic := by
    funext k
    by_cases hk : 0 ≤ k ∧ k < 0 + (bs.length : Int)
    · have hn : k.toNat < bs.length := by omega
      have hk' : k = 0 + (k.toNat : Int) := by omega
      rw [hk', splice_inside hn, h, getD_window hn]
    · exact splice_outside (by omega)
  rw [Service.writePic, key]

theorem readImage_of_keeps (h : KeepsImage s i) (hget : i.1.get = psaSuccess)
    (ht : i.2.type = tinymaixIpcRunInference) (hl : s.gModelLoaded = true)
    (hn : i.2.inSize = 28 * 28) :
    readImage i.2 (min i.1.readLen i.2.inSize) s =
      s.emit (.read i.2.handle 784 (min i.1.readLen 784)) := by
  have hlen : i.2.inVec.length = 784 := hn
  have htake : i.2.inVec.take (min i.1.readLen 784) = i.2.inVec.take i.1.readLen := by
    rw [← hlen, ← List.take_eq_take_min]
  have hw := h hget ht hl hn
  rw [readImage, hn, htake, writePic_window]
  rw [hw, length_window]

/-! ### What a request depends on -/

section Same

variable (hh : msg.handle = msg'.handle) (ho : msg.outSize = msg'.outSize)
include hh ho

theorem writeIfRoom_same {data : List Byte} : s.writeIfRoom msg data = s.writeIfRoom msg' data := by
  rw [Service.writeIfRoom, Service.writeIfRoom, hh, ho]

theorem runModel_same : runModel dev msg s = runModel dev msg' s := by
  rw [runModel_eq, runModel_eq, writeIfRoom_same hh ho]

theorem classify_same : classify dev msg s = classify dev msg' s := by
  rw [classify_def, classify_def, runModel_same hh ho]

end Same

/-- Two requests that differ in their images, and deliver nothing new, are served alike. -/
theorem handleRunInference_same (hs : SameButImage i j) (hi : KeepsImage s i)
    (hj : KeepsImage s j) (hget : i.1.get = psaSuccess)
    (ht : i.2.type = tinymaixIpcRunInference) :
    handleRunInference dev i.1 i.2 s = handleRunInference dev j.1 j.2 s := by
  have hinf : runInference dev i.1 i.2 s = runInference dev j.1 j.2 s := by
    unfold runInference
    rw [← hs.inSize]
    split_ifs with hl hn h0
    · rfl
    · have hl' : s.gModelLoaded = true := by simpa using hl
      have ri := readImage_of_keeps hi hget ht hl' hn
      have rj := readImage_of_keeps hj (hs.outcome ▸ hget) (hs.type ▸ ht) hl' (hs.inSize ▸ hn)
      rw [← hs.inSize, ← hs.outcome, ← hs.handle] at rj
      dsimp only
      rw [← hs.outcome, ri, rj, classify_same hs.handle hs.outSize]
    · exact classify_same hs.handle hs.outSize
    · rfl
  rw [handleRunInference, handleRunInference, hinf, Service.reply, Service.reply, hs.handle]

theorem serve_same (hs : SameButImage i j) (hi : KeepsImage s i) (hj : KeepsImage s j) :
    serve dev i.1 i.2 s = serve dev j.1 j.2 s := by
  rcases hs.image with hv | ⟨ht, -⟩
  · rw [show i = j from Prod.ext hs.outcome (Msg.ext hs.type hs.handle hv hs.outSize)]
  · by_cases hget : i.1.get = psaSuccess
    · have hget' : j.1.get = psaSuccess := hs.outcome ▸ hget
      have run : ∀ k : Input, k.2.type = tinymaixIpcRunInference →
          handle dev k.1 k.2 s.fresh = handleRunInference dev k.1 k.2 s.fresh := fun k hk => by
        rw [handle, hk, if_neg (by decide), if_neg (by decide), if_pos rfl]
      rw [serve, serve, if_neg (not_not.mpr hget), if_neg (not_not.mpr hget'), run i ht,
        run j (hs.type ▸ ht)]
      exact handleRunInference_same (s := s.fresh) hs hi hj hget ht
    · rw [serve, serve, if_pos hget, if_pos (hs.outcome ▸ hget)]

/-- No request that keeps the image changes `mnist_pic`. -/
theorem serve_mnistPic (hi : KeepsImage s i) : (serve dev i.1 i.2 s).mnistPic = s.mnistPic := by
  rw [serve]
  split_ifs with hget
  · rfl
  rw [handle]
  split_ifs with hc hload hrun hkey hd
  · rfl
  · have hl := @loadModel_mnistPic dev i.1 s.fresh
    have hw : (if (loadModel dev i.1 s.fresh).1 = psaSuccess then
        (loadModel dev i.1 s.fresh).2.writeIfRoom i.2 (leBytes 4 0)
        else (loadModel dev i.1 s.fresh).2).mnistPic = s.mnistPic := by
      split
      · exact writeIfRoom_mnistPic.trans hl
      · exact hl
    exact hw
  · show (runInference dev i.1 i.2 s.fresh).2.mnistPic = s.mnistPic
    unfold runInference
    split_ifs with hl hn h0
    · rfl
    · dsimp only
      have hl' : s.fresh.gModelLoaded = true := by simpa using hl
      have key : (readImage i.2 (min i.1.readLen i.2.inSize) s.fresh).mnistPic = s.mnistPic := by
        rw [readImage_of_keeps (s := s.fresh) hi (not_not.mp hget) hrun hl' hn]
        rfl
      split_ifs
      · exact key
      · exact classify_mnistPic.trans key
    · exact classify_mnistPic
    · rfl
  · show (handleGetModelKey dev i.1 i.2 s.fresh).mnistPic = s.mnistPic
    have key : (deriveKeyFromHuk dev i.1 getModelKeyHukLabel (fun _ => 0) s.fresh).2.2.mnistPic =
        s.mnistPic :=
      deriveKeyFromHuk_keeps (p := fun t => t.mnistPic = s.mnistPic) (fun _ _ _ h => h) rfl
    unfold handleGetModelKey
    dsimp only
    split_ifs
    · rfl
    · exact key
    · exact key
  · rfl
  · rfl

end Image

/-- **Isolation**, as long as the image is kept. -/
theorem isolated_of_keepsImage {dev : Device} {h k : List (Input × Service)} {s t : Service}
    (r : Run.Steps (Run.restrict KeepsImage (serveStep dev)) boot h s)
    (r' : Run.Steps (Run.restrict KeepsImage (serveStep dev)) boot k t)
    (hk : List.Forall₂ (fun a b => SameButImage a.1 b.1) h k) :
    List.Forall₂ (fun a b => a.2 = b.2) h k ∧ s = t ∧ s.mnistPic = boot.mnistPic ∧
      ∀ i, BuiltIn i → replyStatus (serve dev i.1 i.2 s).trace =
          replyStatus (serve dev i.1 i.2 t).trace ∧
        written (serve dev i.1 i.2 s).trace = written (serve dev i.1 i.2 t).trace := by
  obtain ⟨hall, heq⟩ := r.lockstep (R := fun s t => s = t) (fun s t i j s' t' e e' hs he => by
    subst he
    obtain ⟨hi, e⟩ := Run.restrict_eq_some.mp e
    obtain ⟨hj, e'⟩ := Run.restrict_eq_some.mp e'
    rw [← Option.some.inj e, ← Option.some.inj e']
    exact serve_same hs hi hj) r' hk rfl
  have hpic : s.mnistPic = boot.mnistPic :=
    r.invariant (I := fun s => s.mnistPic = boot.mnistPic) (fun s i s' e hs => by
      obtain ⟨hi, e⟩ := Run.restrict_eq_some.mp e
      rw [← Option.some.inj e, serve_mnistPic hi, hs]) rfl
  subst heq
  exact ⟨hall, rfl, hpic, fun _ _ => ⟨rfl, rfl⟩⟩

/-- A request before any `LOAD` is refused, and no image read. -/
theorem keepsImage_of_unloaded {s : Service} {i : Input} (h : s.gModelLoaded = false) :
    KeepsImage s i := fun _ _ hl => absurd (h.symm.trans hl) Bool.false_ne_true

theorem inferenceRequest_same {n : Nat} {img img' : List Byte} (h : img.length = 784)
    (h' : img'.length = 784) :
    SameButImage (inferenceRequest n img) (inferenceRequest n img') :=
  ⟨rfl, rfl, rfl, rfl, h.trans h'.symm, Or.inr ⟨rfl, h⟩⟩

/-- An image with one bright pixel. -/
def dotImage (n : Nat) : List Byte := List.replicate n 0 ++ 200 :: List.replicate (783 - n) 0

theorem length_dotImage {n : Nat} (h : n ≤ 783) : (dotImage n).length = 784 := by
  simp only [dotImage, List.length_append, List.length_replicate, List.length_cons]
  omega

/-- Two clients whose images come too early: what the built-in picture is answered then. -/
theorem isolated_of_keepsImage_refused :
    let dev := deviceWith reshapeModel
    let i := inferenceRequest 784 (dotImage 3)
    let j := inferenceRequest 784 (dotImage 5)
    let s := serve dev .success loadRequest.2 (serve dev i.1 i.2 boot)
    let t := serve dev .success loadRequest.2 (serve dev j.1 j.2 boot)
    s.gModelLoaded = true ∧
      replyStatus (serve dev .success (inferenceRequest 0 []).2 s).trace = some psaSuccess ∧
      replyStatus (serve dev .success (inferenceRequest 0 []).2 s).trace =
        replyStatus (serve dev .success (inferenceRequest 0 []).2 t).trace ∧
      written (serve dev .success (inferenceRequest 0 []).2 s).trace =
        written (serve dev .success (inferenceRequest 0 []).2 t).trace := by
  intro dev i j s t
  have run : ∀ i : Input, Run.Steps (Run.restrict KeepsImage (serveStep dev)) boot
      [(i, serve dev i.1 i.2 boot), (loadRequest, serve dev .success loadRequest.2
        (serve dev i.1 i.2 boot))] (serve dev .success loadRequest.2 (serve dev i.1 i.2 boot)) :=
    fun i => .more (Run.restrict_eq_some.mpr ⟨keepsImage_of_unloaded rfl, rfl⟩)
      (.more (Run.restrict_eq_some.mpr ⟨fun _ ht => absurd ht (by decide), rfl⟩) (.refl _))
  have same : SameButImage i j :=
    inferenceRequest_same (length_dotImage (by decide)) (length_dotImage (by decide))
  obtain ⟨hl, hr⟩ : s.gModelLoaded = true ∧
      replyStatus (serve dev .success (inferenceRequest 0 []).2 s).trace = some psaSuccess := by
    decide +kernel
  obtain ⟨-, -, -, hbuilt⟩ := isolated_of_keepsImage (run i) (run j)
    (.cons same (.cons ⟨rfl, rfl, rfl, rfl, rfl, Or.inl rfl⟩ .nil))
  exact ⟨hl, hr, hbuilt (.success, (inferenceRequest 0 []).2) ⟨rfl, rfl, rfl⟩⟩

/-! ### Where it fails -/

/-- A `LOAD`, a request with the image, and one without: is the model loaded before the last
request, and how is that answered? -/
def builtInAfter (dev : Device) (img : List Byte) : Option (Bool × Option Int × List Byte) :=
  (step dev boot loadRequest).bind fun s₁ =>
    (step dev s₁ (inferenceRequest 784 img)).bind fun s =>
      (step dev s (inferenceRequest 0 [])).map fun s' =>
        (s.gModelLoaded, replyStatus s'.trace, written s'.trace)

theorem builtInAfter_spec {dev : Device} {img : List Byte} {l : Bool} {r : Option Int}
    {w : List Byte} (h : builtInAfter dev img = some (l, r, w)) :
    ∃ s₁ s s', Reaches dev [(loadRequest, s₁), (inferenceRequest 784 img, s)] s ∧
      s.gModelLoaded = l ∧ step dev s (inferenceRequest 0 []) = some s' ∧
      replyStatus s'.trace = r ∧ written s'.trace = w := by
  rw [builtInAfter] at h
  obtain ⟨s₁, e₁, h⟩ := Option.bind_eq_some_iff.mp h
  obtain ⟨s, e, h⟩ := Option.bind_eq_some_iff.mp h
  obtain ⟨s', e', h⟩ := Option.map_eq_some_iff.mp h
  simp only [Prod.mk.injEq] at h
  obtain ⟨hl, hr, hw⟩ := h
  exact ⟨s₁, s, s', .more e₁ (.more e (.refl _)), hl, e', hr, hw⟩

/-- **Isolation fails.**  Two histories differ in one image.  The request without an image that
follows is answered with the class of that image. -/
theorem isolation_fails :
    ∃ h k s t s' t', Reaches (deviceWith reshapeModel) h s ∧
      Reaches (deviceWith reshapeModel) k t ∧
      h.map Prod.fst = [loadRequest, inferenceRequest 784 (dotImage 3)] ∧
      k.map Prod.fst = [loadRequest, inferenceRequest 784 (dotImage 5)] ∧
      List.Forall₂ (fun a b => SameButImage a.1 b.1) h k ∧
      s.gModelLoaded = true ∧ t.gModelLoaded = true ∧ BuiltIn (inferenceRequest 0 []) ∧
      step (deviceWith reshapeModel) s (inferenceRequest 0 []) = some s' ∧
      step (deviceWith reshapeModel) t (inferenceRequest 0 []) = some t' ∧
      replyStatus s'.trace = some psaSuccess ∧ replyStatus t'.trace = some psaSuccess ∧
      written s'.trace = leBytes 4 3 ∧ written t'.trace = leBytes 4 5 := by
  obtain ⟨h3, h5⟩ : builtInAfter (deviceWith reshapeModel) (dotImage 3) =
        some (true, some psaSuccess, leBytes 4 3) ∧
      builtInAfter (deviceWith reshapeModel) (dotImage 5) =
        some (true, some psaSuccess, leBytes 4 5) := by decide +kernel
  obtain ⟨s₁, s, s', r, hs, e, hr, hw⟩ := builtInAfter_spec h3
  obtain ⟨t₁, t, t', r', ht, e', hr', hw'⟩ := builtInAfter_spec h5
  have same : SameButImage (inferenceRequest 784 (dotImage 3))
      (inferenceRequest 784 (dotImage 5)) :=
    inferenceRequest_same (length_dotImage (by decide)) (length_dotImage (by decide))
  exact ⟨_, _, s, t, s', t', r, r', rfl, rfl,
    .cons ⟨rfl, rfl, rfl, rfl, rfl, Or.inl rfl⟩ (.cons same .nil), hs, ht, ⟨rfl, rfl, rfl⟩,
    e, e', hr, hr', hw, hw'⟩

end Partition
