import Pico2wTfm.Results.LoadGate

/-!
# Results — Resources

What the partition holds of the cryptographic service: imported keys, a cipher operation, a key
derivation.  `Holdings.call` is the service's side of a call: a call that it does not allow in a
state is undefined there.  A failing setup or import allocates nothing; an operation that was set up
is held until it is aborted, also after a failing call, and `psa_cipher_finish` ends it.

`decrypt_model` releases by hand at each of its early exits.  `serve_holds`: on every path of every
request the calls are allowed, and what is held afterwards is what was held before.
-/

namespace Partition
open Bytes TinyMaix

/-- The state of an operation object.  An ended operation may still be aborted. -/
inductive OpState where
  | idle
  | active (key : Nat)
  | ended
deriving DecidableEq, Repr

/-- What is allocated in the cryptographic service.  A derivation uses no imported key. -/
structure Holdings where
  keys : List Nat
  cipher : OpState
  kdf : Bool
deriving DecidableEq, Repr

namespace Holdings

/-- The cipher operation is set up, and its key is not destroyed. -/
def Ready (k : Holdings) : Prop := ∃ i ∈ k.keys, k.cipher = .active i

instance (k : Holdings) : Decidable k.Ready := by
  unfold Ready
  infer_instance

/-- A call with its status; `id` is the key that an import yields. -/
def call (id : Nat) (k : Holdings) (c : CryptoCall) (status : Int) : Option Holdings :=
  match c with
  | .init => some k
  | .kdfSetup =>
      if k.kdf then none else some { k with kdf := status = psaSuccess }
  | .kdfInputSalt | .kdfInputKey | .kdfInputInfo | .kdfOutput => if k.kdf then some k else none
  | .kdfAbort => if k.kdf then some { k with kdf := false } else none
  | .importKey => if status = psaSuccess then some { k with keys := id :: k.keys } else some k
  | .destroyKey i => if i ∈ k.keys then some { k with keys := k.keys.erase i } else none
  | .cipherSetup i =>
      if i ∈ k.keys ∧ k.cipher = .idle then
        if status = psaSuccess then some { k with cipher := .active i } else some k
      else none
  | .cipherSetIv | .cipherUpdate => if k.Ready then some k else none
  | .cipherFinish =>
      if k.Ready then
        if status = psaSuccess then some { k with cipher := .ended } else some k
      else none
  | .cipherAbort => if k.cipher = .idle then none else some { k with cipher := .idle }

/-- An event; only calls of the cryptographic service matter. -/
def event (id : Nat) (k : Option Holdings) : Event → Option Holdings
  | .crypto c status => k.bind fun k => k.call id c status
  | _ => k

/-- What is held after a trace. -/
def after (id : Nat) (k : Holdings) (t : List Event) : Option Holdings :=
  t.foldl (event id) (some k)

/-- No operation is under way. -/
structure Idle (k : Holdings) : Prop where
  cipher : k.cipher = .idle
  kdf : k.kdf = false

/-- Nothing is allocated. -/
def empty : Holdings := ⟨[], .idle, false⟩

theorem idle_empty : empty.Idle := ⟨rfl, rfl⟩

end Holdings

/-- What is held in the state `s`, when the current message started from `k`. -/
def Service.held (f : Outcome) (k : Holdings) (s : Service) : Option Holdings :=
  k.after f.keyId s.trace

section Held

variable {dev : Device} {f : Outcome} {msg : Msg} {s : Service} {k k' : Holdings}
  {P : List Byte}

theorem held_emit {ev : Event} : (s.emit ev).held f k = Holdings.event f.keyId (s.held f k) ev := by
  rw [Service.held, Holdings.after, show (s.emit ev).trace = s.trace ++ [ev] from rfl,
    List.foldl_append]
  rfl

/-- A call that the service allows. -/
theorem held_call {c : CryptoCall} {st : Int} {k₁ : Holdings} (h : s.held f k = some k')
    (hc : k'.call f.keyId c st = some k₁) : (s.call c st).held f k = some k₁ := by
  rw [Service.call, held_emit, h]
  exact hc

/-- **A key derivation** ends what it starts. -/
theorem deriveKeyFromHuk_held {label : String} {derived : Cbc.Block 16}
    (h : s.held f k = some k') (hk : k'.kdf = false) :
    (deriveKeyFromHuk dev f label derived s).2.2.held f k = some k' := by
  have setup : ∀ st, k'.call f.keyId .kdfSetup st = some { k' with kdf := st = psaSuccess } := by
    intro st
    rw [Holdings.call, hk]
    rfl
  obtain ⟨u, hu⟩ : ∃ u : Holdings, u = { k' with kdf := true } := ⟨_, rfl⟩
  have active : u.kdf = true := by rw [hu]
  have abort : ∀ st, u.call f.keyId .kdfAbort st = some k' := by
    intro st
    rw [Holdings.call, if_pos active, hu, ← hk]
  have use : ∀ {c : CryptoCall} (st : Int), c = .kdfInputSalt ∨ c = .kdfInputKey ∨
      c = .kdfInputInfo ∨ c = .kdfOutput → u.call f.keyId c st = some u := by
    intro c st hc
    rcases hc with rfl | rfl | rfl | rfl <;> exact if_pos active
  rw [deriveKeyFromHuk]
  dsimp only
  by_cases h₁ : f.kdfSetup ≠ psaSuccess
  · rw [if_pos h₁]
    refine held_call h ((setup _).trans ?_)
    rw [decide_eq_false h₁, ← hk]
  have s₁ := held_call h ((setup f.kdfSetup).trans (by rw [decide_eq_true (not_not.mp h₁), ← hu]))
  have s₂ := held_call s₁ (use f.kdfInputSalt (Or.inl rfl))
  have s₃ := held_call s₂ (use f.kdfInputKey (Or.inr (Or.inl rfl)))
  have s₄ := held_call s₃ (use f.kdfInputInfo (Or.inr (Or.inr (Or.inl rfl))))
  have s₅ := held_call s₄ (use f.kdfOutput (Or.inr (Or.inr (Or.inr rfl))))
  rw [if_neg h₁]
  by_cases h₂ : f.kdfInputSalt ≠ psaSuccess
  · rw [if_pos h₂]
    exact held_call s₂ (abort _)
  rw [if_neg h₂]
  by_cases h₃ : f.kdfInputKey ≠ psaSuccess
  · rw [if_pos h₃]
    exact held_call s₃ (abort _)
  rw [if_neg h₃]
  by_cases h₄ : f.kdfInputInfo ≠ psaSuccess
  · rw [if_pos h₄]
    exact held_call s₄ (abort _)
  rw [if_neg h₄]
  by_cases h₅ : f.kdfOutput ≠ psaSuccess
  · rw [if_pos h₅]
    exact held_call s₅ (abort _)
  · rw [if_neg h₅]
    exact held_call s₅ (abort _)

/-- The state between the import of the key and its destruction. -/
def Holdings.withKey (k : Holdings) (id : Nat) (c : OpState) : Holdings :=
  { k with keys := id :: k.keys, cipher := c }

section Calls

variable {id : Nat} (st : Int)

theorem call_importKey (hk : k.cipher = .idle) (h : st = psaSuccess) :
    k.call id .importKey st = some (k.withKey id .idle) := by
  rw [Holdings.call, if_pos h, Holdings.withKey, ← hk]

theorem call_destroyKey (hk : k.cipher = .idle) :
    (k.withKey id .idle).call id (.destroyKey id) st = some k := by
  have mem : id ∈ (k.withKey id .idle).keys := List.mem_cons_self
  rw [Holdings.call, if_pos mem]
  show some { k with keys := (id :: k.keys).erase id, cipher := .idle } = some k
  rw [List.erase_cons_head, ← hk]

theorem known_withKey : id ∈ (k.withKey id .idle).keys ∧ (k.withKey id .idle).cipher = .idle :=
  ⟨List.mem_cons_self, rfl⟩

theorem ready_withKey : (k.withKey id (.active id)).Ready := ⟨id, List.mem_cons_self, rfl⟩

theorem call_cipherSetup (h : st = psaSuccess) :
    (k.withKey id .idle).call id (.cipherSetup id) st = some (k.withKey id (.active id)) :=
  (if_pos known_withKey).trans (if_pos h)

theorem call_cipherSetup_fails (h : st ≠ psaSuccess) :
    (k.withKey id .idle).call id (.cipherSetup id) st = some (k.withKey id .idle) :=
  (if_pos known_withKey).trans (if_neg h)

theorem call_cipherSetIv :
    (k.withKey id (.active id)).call id .cipherSetIv st = some (k.withKey id (.active id)) :=
  if_pos ready_withKey

theorem call_cipherUpdate :
    (k.withKey id (.active id)).call id .cipherUpdate st = some (k.withKey id (.active id)) :=
  if_pos ready_withKey

theorem call_cipherFinish (h : st = psaSuccess) :
    (k.withKey id (.active id)).call id .cipherFinish st = some (k.withKey id .ended) :=
  (if_pos ready_withKey).trans (if_pos h)

theorem call_cipherFinish_fails (h : st ≠ psaSuccess) :
    (k.withKey id (.active id)).call id .cipherFinish st = some (k.withKey id (.active id)) :=
  (if_pos ready_withKey).trans (if_neg h)

theorem call_cipherAbort {c : OpState} (hc : c ≠ .idle) :
    (k.withKey id c).call id .cipherAbort st = some (k.withKey id .idle) := if_neg hc

end Calls

theorem active_ne_idle (i : Nat) : OpState.active i ≠ .idle := fun h => by cases h

theorem ended_ne_idle : OpState.ended ≠ .idle := fun h => by cases h

/-- The operation and the key are released. -/
theorem release_held {c : OpState} (hk : k'.cipher = .idle) (hc : c ≠ .idle)
    (h : s.held f k = some (k'.withKey f.keyId c)) : (s.release f).held f k = some k' :=
  held_call (held_call h (call_cipherAbort _ hc)) (call_destroyKey _ hk)

theorem removePadding_held {o n : Nat} (h : s.held f k = some k') :
    (removePadding o n s).2.held f k = some k' :=
  removePadding_keeps (p := fun t => t.held f k = some k') (fun _ _ h => h) h

theorem writeModel_held {off : Nat} {bs : List Byte} :
    (s.writeModel off bs).held f k = s.held f k := rfl

/-- **The cipher calls.** -/
theorem cipherDecrypt_held (hk : k'.cipher = .idle)
    (h : s.held f k = some (k'.withKey f.keyId (.active f.keyId))) :
    (cipherDecrypt dev f P s).2.held f k = some k' := by
  rw [cipherDecrypt]
  dsimp only
  obtain ⟨plain, hp⟩ : ∃ p, p = Cbc.decryptBytes (dev.aes s.encryptionKey) (headerIv P)
    (ciphertext P) := ⟨_, rfl⟩
  rw [← hp]
  have updated := held_call h (call_cipherUpdate (updateStatus f plain.length))
  by_cases hu : updateStatus f plain.length ≠ psaSuccess
  · rw [if_pos hu]
    exact release_held hk (active_ne_idle _) (writeModel_held.trans updated)
  rw [if_neg hu]
  have written := (@writeModel_held f _ k 0 plain).trans updated
  by_cases hf : finishStatus f (ciphertext P).length ≠ psaSuccess
  · -- the operation is still there
    rw [if_pos hf]
    have finished := held_call written (call_cipherFinish_fails _ hf)
    exact release_held hk (active_ne_idle _) (writeModel_held.trans finished)
  · -- the operation has ended, and aborting it is allowed
    rw [if_neg hf]
    have finished := held_call written (call_cipherFinish _ (not_not.mp hf))
    exact removePadding_held (release_held hk ended_ne_idle finished)

theorem importAndDecrypt_held (hk : k'.cipher = .idle) (h : s.held f k = some k') :
    (importAndDecrypt dev f P s).2.held f k = some k' := by
  rw [importAndDecrypt]
  dsimp only
  by_cases h₁ : f.importKey ≠ psaSuccess
  · rw [if_pos h₁]
    exact held_call h (if_neg h₁)
  rw [if_neg h₁]
  have imported := held_call h (call_importKey _ hk (not_not.mp h₁))
  by_cases h₂ : f.cipherSetup ≠ psaSuccess
  · rw [if_pos h₂]
    exact held_call (held_call imported (call_cipherSetup_fails _ h₂)) (call_destroyKey _ hk)
  rw [if_neg h₂]
  have ready := held_call imported (call_cipherSetup _ (not_not.mp h₂))
  have set := held_call ready (call_cipherSetIv f.cipherSetIv)
  by_cases h₃ : f.cipherSetIv ≠ psaSuccess
  · rw [if_pos h₃]
    exact release_held hk (active_ne_idle _) set
  · rw [if_neg h₃]
    exact cipherDecrypt_held hk set

/-- **A decryption** releases what it allocates, on every path. -/
theorem decryptModel_held (hk : k'.Idle) (h : s.held f k = some k') :
    (decryptModel dev f P s).2.held f k = some k' := by
  have guard : ∀ {c : Prop} [Decidable c] {e : Int} {y : Int × Service},
      y.2.held f k = some k' → (if c then (e, s) else y).2.held f k = some k' := fun hy =>
    guard_keeps (p := fun t : Service => t.held f k = some k') h hy
  have init : (s.call .init f.cryptoInit).held f k = some k' := held_call h rfl
  have derived := @deriveKeyFromHuk_held dev f _ k k' decryptHukLabel s.encryptionKey init hk.kdf
  refine guard (guard (guard (guard ?_)))
  rw [initAndDecrypt]
  dsimp only
  by_cases h₁ : f.cryptoInit ≠ psaSuccess ∧ f.cryptoInit ≠ psaErrorAlreadyExists
  · rw [if_pos h₁]
    exact init
  rw [if_neg h₁]
  exact guard_keeps (p := fun t : Service => t.held f k = some k') derived
    (importAndDecrypt_held hk.cipher derived)

/-! ### Requests -/

theorem held_reply {st : Int} : (s.reply msg st).held f k = s.held f k := held_emit

theorem writeIfRoom_held {data : List Byte} : (s.writeIfRoom msg data).held f k = s.held f k := by
  rw [Service.writeIfRoom]
  split
  · exact held_emit
  · rfl

theorem loadModel_held (hk : k'.Idle) (h : s.held f k = some k') :
    (loadModel dev f s).2.held f k = some k' := by
  have key : (loadPackage dev f s).2.held f k = some k' :=
    guard_keeps (p := fun t : Service => t.held f k = some k') h (decryptModel_held hk h)
  rw [loadModel_eq]
  split_ifs
  · exact key
  · exact key
  · exact key

theorem handleLoad_held (hk : k'.Idle) (h : s.held f k = some k') :
    (handleLoad dev f msg s).held f k = some k' := by
  have key : (loadModel dev f s).2.held f k = some k' := loadModel_held hk h
  rw [handleLoad]
  show Service.held f k (Service.reply _ _ _) = some k'
  rw [held_reply]
  by_cases hok : (loadModel dev f s).1 = psaSuccess
  · rw [if_pos hok, writeIfRoom_held]
    exact key
  · rw [if_neg hok]
    exact key

theorem runModel_held (h : s.held f k = some k') :
    (runModel dev msg s).2.held f k = some k' := by
  rw [runModel_eq]
  by_cases hrun : (tmRunCall dev s).1.1 ≠ .ok
  · rw [if_pos hrun]
    exact h
  · rw [if_neg hrun, writeIfRoom_held]
    exact h

theorem classify_held (h : s.held f k = some k') :
    (classify dev msg s).2.held f k = some k' := by
  have pre : (afterPreprocess dev (s.setInUint8 imageMat)).held f k = some k' := h
  rw [classify_def]
  by_cases hpre : (tmPreprocessCall dev (s.setInUint8 imageMat)).1.1 ≠ .ok
  · rw [if_pos hpre]
    exact pre
  · rw [if_neg hpre]
    exact runModel_held pre

theorem runInference_held (h : s.held f k = some k') :
    (runInference dev f msg s).2.held f k = some k' := by
  have image : ∀ got, (readImage msg got s).held f k = some k' := fun _ => held_emit.trans h
  rw [runInference]
  split_ifs
  · exact h
  · dsimp only
    split_ifs
    · exact image _
    · exact classify_held (image _)
  · exact classify_held h
  · exact h

theorem handleGetModelKey_held (hk : k'.Idle) (h : s.held f k = some k') :
    (handleGetModelKey dev f msg s).held f k = some k' := by
  have key := @deriveKeyFromHuk_held dev f s k k' getModelKeyHukLabel (fun _ => 0) h hk.kdf
  rw [handleGetModelKey]
  by_cases hroom : msg.outSize < derivedKeyLen
  · rw [if_pos hroom, held_reply]
    exact h
  rw [if_neg hroom, held_reply]
  split
  · rw [held_emit]
    exact key
  · exact key

/-- **A round** holds afterwards what was held before. -/
theorem serve_held (hk : k.Idle) : k.after f.keyId (serve dev f msg s).trace = some k := by
  have start : s.fresh.held f k = some k := rfl
  show (serve dev f msg s).held f k = some k
  rw [serve]
  by_cases hget : f.get ≠ psaSuccess
  · rw [if_pos hget]
    exact start
  rw [if_neg hget, handle]
  split_ifs
  · exact held_reply.trans start
  · exact handleLoad_held hk start
  · exact held_reply.trans (runInference_held start)
  · exact handleGetModelKey_held hk start
  · exact held_reply.trans start
  · exact held_reply.trans start

end Held

/-! ### Imports and destructions -/

/-- The keys a trace imports. -/
def imports (t : List Event) : Nat := t.count (.crypto .importKey psaSuccess)

/-- How often a trace destroys the key `i`. -/
def destroys (i : Nat) (t : List Event) : Nat := t.countP fun
  | .crypto (.destroyKey j) _ => j = i
  | _ => false

section Counts

variable {id i : Nat} {k k' : Holdings} {t : List Event}

/-- An import adds its key. -/
theorem importKey_count {st : Int} (h : k.call id .importKey st = some k') :
    k'.keys.count i = k.keys.count i + if i = id then imports [.crypto .importKey st] else 0 := by
  rw [Holdings.call] at h
  by_cases hst : st = psaSuccess
  · rw [if_pos hst] at h
    obtain rfl := Option.some.inj h
    have hone : imports [.crypto .importKey st] = 1 := by rw [hst]; rfl
    rw [hone, List.count_cons]
    by_cases hi : i = id
    · rw [if_pos hi, hi, if_pos (beq_self_eq_true id)]
    · have hne : ¬(id == i) = true := fun h => hi (eq_of_beq h).symm
      rw [if_neg hi, if_neg hne]
  · rw [if_neg hst] at h
    obtain rfl := Option.some.inj h
    have hzero : imports [.crypto .importKey st] = 0 := by
      refine List.count_eq_zero.mpr fun h => hst ?_
      cases List.mem_singleton.mp h
      rfl
    rw [hzero, ite_self, Nat.add_zero]

/-- A destruction takes its key away, and the key was there. -/
theorem destroyKey_count {j : Nat} {st : Int} (h : k.call id (.destroyKey j) st = some k') :
    k'.keys.count i + destroys i [.crypto (.destroyKey j) st] = k.keys.count i := by
  rw [Holdings.call] at h
  by_cases hj : j ∈ k.keys
  swap
  · rw [if_neg hj] at h
    cases h
  rw [if_pos hj] at h
  obtain rfl := Option.some.inj h
  by_cases hi : j = i
  · have hone : destroys i [.crypto (.destroyKey j) st] = 1 := by simp [destroys, hi]
    subst hi
    rw [hone, List.count_erase_self]
    exact Nat.sub_add_cancel (List.count_pos_iff.mpr hj)
  · have hzero : destroys i [.crypto (.destroyKey j) st] = 0 := by simp [destroys, hi]
    rw [hzero, List.count_erase_of_ne (Ne.symm hi)]
    rfl

/-- One event: an import adds its key, a destruction takes one away. -/
theorem event_count {ev : Event} (h : Holdings.event id (some k) ev = some k') :
    k'.keys.count i + destroys i [ev] = k.keys.count i + if i = id then imports [ev] else 0 := by
  have same : k'.keys = k.keys → destroys i [ev] = 0 → imports [ev] = 0 →
      k'.keys.count i + destroys i [ev] =
        k.keys.count i + if i = id then imports [ev] else 0 := by
    intro hk hd hi
    rw [hk, hd, hi, ite_self]
  cases ev with
  | read hd n got => cases h; exact same rfl rfl rfl
  | write hd d => cases h; exact same rfl rfl rfl
  | reply hd st => cases h; exact same rfl rfl rfl
  | crypto c st =>
      have hc : k.call id c st = some k' := h
      cases c with
      | importKey => exact importKey_count hc
      | destroyKey j =>
          have hzero : imports [.crypto (.destroyKey j) st] = 0 := rfl
          rw [destroyKey_count hc, hzero, ite_self]
          rfl
      | init => cases hc; exact same rfl rfl rfl
      | _ =>
          -- the keys stay as they are
          simp only [Holdings.call] at hc
          split_ifs at hc <;> cases hc <;> exact same rfl rfl rfl

/-- **The balance of a trace.** -/
theorem after_count (h : k.after id t = some k') :
    k'.keys.count i + destroys i t = k.keys.count i + if i = id then imports t else 0 := by
  induction t generalizing k with
  | nil =>
      cases h
      rw [show imports [] = 0 from rfl, ite_self]
      rfl
  | cons ev t ih =>
      have hi : imports (ev :: t) = imports [ev] + imports t := by
        rw [imports, ← List.singleton_append, List.count_append]
        rfl
      have hd : destroys i (ev :: t) = destroys i [ev] + destroys i t := by
        rw [destroys, ← List.singleton_append, List.countP_append]
        rfl
      cases hev : Holdings.event id (some k) ev with
      | none =>
          have dead : ∀ l : List Event, l.foldl (Holdings.event id) none = none := by
            intro l
            induction l with
            | nil => rfl
            | cons ev l ih => cases ev <;> exact ih
          rw [Holdings.after, List.foldl_cons, hev, dead] at h
          cases h
      | some k₁ =>
          rw [Holdings.after, List.foldl_cons, hev] at h
          have h₁ := @event_count id i k k₁ ev hev
          have h₂ := ih h
          rw [hi, hd]
          split_ifs at h₁ h₂ ⊢ <;> omega

end Counts

/-- What is held after a history. -/
def ledger (h : List (Input × Service)) : Option Holdings :=
  h.foldl (fun k a => k.bind fun k => k.after a.1.1.keyId a.2.trace) (some .empty)

/-- **No leaks.**  After every message of every history nothing is held that was not held before it,
each key it imported was destroyed once and no other key was, and all calls were allowed: none of
them used a destroyed key or an operation that was not set up. -/
theorem no_leaks {dev : Device} {h : List (Input × Service)} {s : Service} (r : Serves dev h s) :
    ledger h = some .empty ∧
      ∀ a ∈ h, (∀ k : Holdings, k.Idle → k.after a.1.1.keyId a.2.trace = some k) ∧
        ∀ i, destroys i a.2.trace = if i = a.1.1.keyId then imports a.2.trace else 0 := by
  have each : ∀ a ∈ h, ∀ k : Holdings, k.Idle → k.after a.1.1.keyId a.2.trace = some k := by
    refine r.forall (I := fun _ => True)
      (p := fun i s' => ∀ k : Holdings, k.Idle → k.after i.1.keyId s'.trace = some k)
      (fun s i s' e _ => ⟨trivial, fun k hk => ?_⟩) trivial
    obtain rfl := Option.some.inj e
    exact serve_held hk
  refine ⟨?_, fun a ha => ⟨each a ha, fun i => ?_⟩⟩
  · clear r
    unfold ledger
    induction h with
    | nil => rfl
    | cons a h ih =>
        rw [List.foldl_cons]
        show h.foldl _ (Holdings.after a.1.1.keyId .empty a.2.trace) = _
        rw [each a List.mem_cons_self _ Holdings.idle_empty]
        exact ih fun b hb => each b (List.mem_cons_of_mem _ hb)
  · have balance := @after_count a.1.1.keyId i _ _ _ (each a ha _ Holdings.idle_empty)
    have hzero : Holdings.empty.keys.count i = 0 := rfl
    rw [hzero, Nat.zero_add, Nat.zero_add] at balance
    exact balance

/-- A `LOAD` whose package holds no model. -/
theorem no_leaks_load :
    ledger [(loadRequest, serve (deviceWith []) loadRequest.1 loadRequest.2 boot)] = some .empty :=
  (no_leaks (.more rfl (.refl _))).1

end Partition
