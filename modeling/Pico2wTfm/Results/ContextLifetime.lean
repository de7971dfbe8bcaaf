import Pico2wTfm.Results.ThreadIdentity

/-!
# Results — ContextLifetime

The contexts that the secure side holds for the RTOS, from their allocation to their release.  An
allocation acquires a context and then enters its token, a free removes the token and then releases
the context, and neither takes back the first when the second fails.  What a failing call leaves
behind is therefore known from the state before it (`Orderly`), whatever the secure side returns.

The table has a free entry as long as there are fewer live allocations than entries
(`Kept.exists_free`).  The thread identifiers are not given back: after 254 allocations every further
one fails.
-/

namespace Nsid
open FirstFit Run

/-! ### Failing calls -/

/-- The state after a call, whatever token the secure side hands out. -/
def World.called (inv : Token) (w : World) (c : Call) : World :=
  let o := c.run inv w.shim
  ⟨o.shim, o.calls.foldl (heldAfter inv c.keeps) w.held, liveAfter inv w.shim o w.live c, o⟩

/-- The steps are the calls in which a new context has a new token. -/
theorem World.step_eq_restrict (inv : Token) : World.step inv =
    restrict (fun w c => c.Fresh inv w.held) fun w c => some (w.called inv c) := rfl

/-- `TZ_AllocModuleContext_S` and `TZ_FreeModuleContext_S`. -/
def Call.OnContext : Call → Prop
  | .alloc _ _ | .free _ _ => True
  | .init _ | .load _ _ | .store _ _ => False

/-- The table and the contexts held are the same. -/
def World.SameContexts (w w' : World) : Prop :=
  w'.shim.table = w.shim.table ∧ ∀ t, t ∈ w'.held ↔ t ∈ w.held

/-- A call on a context that fails leaves the table and the contexts as they were. -/
def FailsCleanly (w : World) (c : Call) (w' : World) : Prop :=
  c.OnContext → w'.last.ret = 0 → w.SameContexts w'

/-- The manager has no use for a new token with this NSID. -/
def Refused (inv : Token) (nsid : Int) (table : List NsidTokenPair) : Prop :=
  0 ≤ nsid ∨ ∀ e ∈ table, e.token ≠ inv

/-- **Nothing is left behind.**  A context that the secure side hands to an allocation finds a free
entry and an NSID, and its token is not `0`; or it was held before.  A release that is refused is of
a token that has no entry. -/
def Orderly (inv : Token) (w : World) : Call → Prop
  | .alloc module token =>
      w.shim.threadId < nsidMgrThreadIdMax → token ≠ inv →
        (Refused inv module.toInt w.shim.table → token ∈ w.held) ∧
        (¬Refused inv module.toInt w.shim.table → token ≠ 0)
  | .free id ok => id ≠ inv → ok = false → ∀ e ∈ w.shim.table, e.token ≠ id
  | .init _ | .load _ _ | .store _ _ => True

section Table

variable {inv token : Token} {nsid : Int} {table table' : List NsidTokenPair}

/-- When the manager refuses a token. -/
theorem addEntry_fails_iff (ht : token ≠ inv) :
    (nsidMgrAddEntry inv nsid token table).1 ≠ .success ↔ Refused inv nsid table := by
  rw [nsidMgrAddEntry, Refused]
  by_cases hn : tfmInvalidNsidMin ≤ nsid
  · rw [if_pos hn]
    exact ⟨fun _ => Or.inl hn, fun _ => by intro h; cases h⟩
  rw [if_neg hn, if_neg ht]
  cases hr : replaceFirst (fun e => e.token = inv) ⟨token, nsid⟩ table with
  | none =>
      have taken : ∀ e ∈ table, e.token ≠ inv := fun e he =>
        of_decide_eq_false (replaceFirst_eq_none.mp hr e he)
      exact ⟨fun _ => Or.inr taken, fun _ => by intro h; cases h⟩
  | some l =>
      obtain ⟨as, a, bs, rfl, -, ha, -⟩ := replaceFirst_eq_some.mp hr
      refine ⟨fun h => absurd rfl h, fun h => ?_⟩
      rcases h with h | h
      · exact absurd h hn
      · have mem : a ∈ as ++ a :: bs := List.mem_append_right _ List.mem_cons_self
        exact absurd (of_decide_eq_true ha) (h a mem)

/-- A new entry changes the table. -/
theorem addEntry_changes (h : nsidMgrAddEntry inv nsid token table = (.success, table')) :
    table' ≠ table := by
  obtain ⟨-, ht, as, a, bs, rfl, -, ha, rfl⟩ := addEntry_success h
  intro heq
  obtain ⟨rfl, -⟩ := List.cons.inj (List.append_cancel_left heq)
  exact ht ha

/-- So does a removal. -/
theorem removeEntry_changes (h : nsidMgrRemoveEntry inv token table = (.success, table')) :
    table' ≠ table := by
  obtain ⟨ht, as, a, bs, rfl, -, ha, rfl⟩ := removeEntry_success h
  intro heq
  obtain ⟨rfl, -⟩ := List.cons.inj (List.append_cancel_left heq)
  exact ht ha.symm

/-- When the manager finds an entry to remove. -/
theorem removeEntry_success_iff :
    (nsidMgrRemoveEntry inv token table).1 = .success ↔
      token ≠ inv ∧ ∃ e ∈ table, e.token = token := by
  constructor
  · intro h
    obtain ⟨ht, as, a, bs, htable, -, ha, -⟩ := removeEntry_success (Prod.ext h rfl)
    exact ⟨ht, a, htable ▸ List.mem_append_right _ List.mem_cons_self, ha⟩
  · rintro ⟨ht, e, he, heq⟩
    rw [nsidMgrRemoveEntry, if_neg ht]
    cases hr : replaceFirst (fun e => e.token = token) (invalidPair inv) table with
    | none => exact absurd heq (of_decide_eq_false (replaceFirst_eq_none.mp hr e he))
    | some l => rfl

end Table

section Calls

variable {inv : Token} {w : World}

/-- An allocation with a thread identifier left. -/
theorem alloc_called {module : BitVec 32} {token : Token}
    (hid : w.shim.threadId < nsidMgrThreadIdMax) :
    let r := nsidMgrAddEntry inv module.toInt token w.shim.table
    let w' := w.called inv (.alloc module token)
    w'.shim.table = r.2 ∧ w'.held = (if token = inv then w.held else token :: w.held) ∧
      w'.last.ret = (if r.1 = .success then token else 0) ∧
      w'.shim.threadId = w.shim.threadId + 1 := by
  simp only [World.called, Call.run, tzAllocModuleContextS, if_neg (Nat.not_le.mpr hid)]
  split
  · exact ⟨rfl, rfl, rfl, rfl⟩
  · exact ⟨rfl, rfl, rfl, rfl⟩

/-- **An allocation.** -/
theorem alloc_failsCleanly_iff (module : BitVec 32) (token : Token) :
    FailsCleanly w (.alloc module token) (w.called inv (.alloc module token)) ↔
      Orderly inv w (.alloc module token) := by
  by_cases hid : w.shim.threadId < nsidMgrThreadIdMax
  swap
  · refine ⟨fun _ h => absurd h hid, fun _ _ _ => ?_⟩
    rw [World.SameContexts, World.called, Call.run, tzAllocModuleContextS,
      if_pos (Nat.not_lt.mp hid)]
    exact ⟨rfl, fun t => Iff.rfl⟩
  obtain ⟨htable, hheld, hret, -⟩ := @alloc_called inv w module token hid
  by_cases ht : token = inv
  · refine ⟨fun _ _ h => absurd ht h, fun _ _ _ => ⟨?_, fun t => ?_⟩⟩
    · rw [htable]
      refine addEntry_fails fun h => ?_
      exact (addEntry_success (Prod.ext h rfl)).2.1 ht
    · rw [hheld, if_pos ht]
  rw [if_neg ht] at hheld
  by_cases hr : Refused inv module.toInt w.shim.table
  · have fails := (addEntry_fails_iff ht).mpr hr
    rw [if_neg fails] at hret
    refine ⟨fun h _ _ => ⟨fun _ => ?_, fun h => absurd hr h⟩, fun h _ _ => ⟨?_, fun t => ?_⟩⟩
    · have held := (h trivial hret).2 token
      rw [hheld] at held
      exact held.mp List.mem_cons_self
    · rw [htable]
      exact addEntry_fails fails
    · rw [hheld, List.mem_cons]
      refine ⟨?_, Or.inr⟩
      rintro (rfl | h)
      · exact (h hid ht).1 hr
      · assumption
  · have made : (nsidMgrAddEntry inv module.toInt token w.shim.table).1 = .success :=
      not_not.mp fun h => hr ((addEntry_fails_iff ht).mp h)
    rw [if_pos made] at hret
    refine ⟨fun h _ _ => ⟨fun h => absurd h hr, fun _ hz => ?_⟩, fun h _ hz => ?_⟩
    · have same := (h trivial (hret.trans hz)).1
      rw [htable] at same
      exact addEntry_changes (Prod.ext made rfl) same
    · exact absurd (hret.symm.trans hz) ((h hid ht).2 hr)

theorem free_table (id : BitVec 32) (ok : Bool) (s : Shim) :
    (tzFreeModuleContextS inv id ok s).shim.table = (nsidMgrRemoveEntry inv id s.table).2 := by
  rw [tzFreeModuleContextS, Shim.deactivate]
  split_ifs <;> rfl

/-- **A free.** -/
theorem free_failsCleanly_iff (id : BitVec 32) (ok : Bool) :
    FailsCleanly w (.free id ok) (w.called inv (.free id ok)) ↔ Orderly inv w (.free id ok) := by
  rcases @free_cases inv id ok w.shim with ⟨hrem, hcalls, hret⟩ | ⟨htable, hcalls, hret⟩
  · have found := removeEntry_success_iff.mp (congrArg Prod.fst hrem)
    obtain ⟨ht, e, he, heq⟩ := found
    constructor
    · intro h _ hok
      have ret : (w.called inv (.free id ok)).last.ret = 0 := by
        show (tzFreeModuleContextS inv id ok w.shim).ret = 0
        rw [hret, hok]
        rfl
      exact absurd (h trivial ret).1 (removeEntry_changes hrem)
    · intro h _ hz
      cases ok with
      | true =>
          have one : (1 : BitVec 32) = 0 := hret.symm.trans hz
          exact absurd one (by decide)
      | false => exact absurd heq (h ht rfl e he)
  · constructor
    · intro _ ht hok e he heq
      have found : (nsidMgrRemoveEntry inv id w.shim.table).1 = .success :=
        removeEntry_success_iff.mpr ⟨ht, e, he, heq⟩
      exact absurd ((free_table id ok w.shim).symm.trans htable)
        (removeEntry_changes (Prod.ext found rfl))
    · intro _ _ _
      refine ⟨htable, fun t => ?_⟩
      show t ∈ List.foldl _ _ (tzFreeModuleContextS inv id ok w.shim).calls ↔ _
      rw [hcalls]
      rfl

/-- What one call leaves behind. -/
theorem failsCleanly_iff (c : Call) : FailsCleanly w c (w.called inv c) ↔ Orderly inv w c := by
  cases c with
  | alloc module token => exact alloc_failsCleanly_iff module token
  | free id ok => exact free_failsCleanly_iff id ok
  | init _ | load _ _ | store _ _ => exact ⟨fun _ => trivial, fun _ h => h.elim⟩

end Calls

/-- **Every run.**  The calls on contexts that fail leave the table and the contexts as they were if
and only if every call is orderly. -/
theorem run_failsCleanly_iff {inv : Token} {n : Nat} {held : List Token} {w : World}
    {h : List (Call × World)}
    (r : Steps (fun w c => some (World.called inv w c)) (World.start n held) h w) :
    Along FailsCleanly (World.start n held) h ↔
      Along (fun w c _ => Orderly inv w c) (World.start n held) h := by
  refine r.along_congr ?_
  rintro w c w' ⟨⟩
  exact failsCleanly_iff c

/-- A context is acquired, its release is refused, and the token it was entered under is gone. -/
theorem refused_release :
    ∃ h w, Steps (World.step 0xFFFFFFFF) (World.start threadNumMax []) h w ∧
      h.map Prod.fst = [.init (some []), .alloc 0xFFFFFFFE 5, .free 5 false] ∧
      ¬Along FailsCleanly (World.start threadNumMax []) h ∧
      w.held = [5] ∧ ∀ ok, (tzFreeModuleContextS 0xFFFFFFFF 5 ok w.shim).ret = 0 := by
  refine ⟨_, _, .more (i := .init (some [])) rfl (.more (i := .alloc 0xFFFFFFFE 5) rfl
    (.more (i := .free 5 false) rfl (.refl _))), rfl, fun h => ?_, rfl, fun ok => ?_⟩
  · have same := (h.2.2.1 trivial rfl).1
    exact absurd same (by decide)
  · cases ok <;> rfl

/-- An allocation and its release. -/
theorem run_failsCleanly_iff_pair :
    ∃ h w, Steps (fun w c => some (World.called 0xFFFFFFFF w c)) (World.start threadNumMax []) h w ∧
      h.map Prod.fst = [.init (some []), .alloc 0xFFFFFFFE 5, .free 5 true] ∧
      Along FailsCleanly (World.start threadNumMax []) h := by
  have r := @Steps.more _ _ (fun w c => some (World.called 0xFFFFFFFF w c))
    (World.start threadNumMax []) _ _ (.init (some [])) _ rfl
    (.more (i := .alloc 0xFFFFFFFE 5) rfl (.more (i := .free 5 true) rfl (.refl _)))
  refine ⟨_, _, r, rfl, (run_failsCleanly_iff r).mpr ⟨trivial, ?_, ?_, trivial⟩⟩
  · refine fun _ _ => ⟨?_, fun _ => by decide⟩
    rintro (h | h)
    · exact absurd h (by decide)
    · exact absurd rfl (h (invalidPair 0xFFFFFFFF) (by decide))
  · intro _ h
    cases h

/-! ### Capacity -/

/-- The call is an allocation. -/
def Call.IsAlloc : Call → Bool
  | .alloc _ _ => true
  | _ => false

/-- The call is an allocation or a free, and succeeded. -/
def Call.Succeeds (c : Call) (w' : World) : Prop :=
  match c with
  | .alloc _ _ => w'.last.ret ≠ 0
  | .free _ _ => w'.last.ret = 1
  | .init _ | .load _ _ | .store _ _ => False

/-- The allocations of a history. -/
def allocations (h : List (Call × World)) : Nat := h.countP fun a => a.1.IsAlloc

section Capacity

variable {inv : Token} {n : Nat} {w w' : World}

theorem length_addEntry {nsid : Int} {token : Token} {table : List NsidTokenPair} :
    (nsidMgrAddEntry inv nsid token table).2.length = table.length := by
  by_cases h : (nsidMgrAddEntry inv nsid token table).1 = .success
  · obtain ⟨-, -, as, a, bs, htable, -, -, hnew⟩ := addEntry_success (Prod.ext h rfl)
    refine (congrArg List.length hnew).trans ?_
    simp only [htable, List.length_append, List.length_cons]
  · rw [addEntry_fails h]

theorem length_removeEntry {token : Token} {table : List NsidTokenPair} :
    (nsidMgrRemoveEntry inv token table).2.length = table.length := by
  by_cases h : (nsidMgrRemoveEntry inv token table).1 = .success
  · obtain ⟨-, as, a, bs, htable, -, -, hnew⟩ := removeEntry_success (Prod.ext h rfl)
    refine (congrArg List.length hnew).trans ?_
    simp only [htable, List.length_append, List.length_cons]
  · rw [removeEntry_fails h]

/-- **A free entry.**  The tokens in the table are distinct, and each is live. -/
theorem Kept.exists_free (hk : Kept inv 0 w) (hl : w.live.length < w.shim.table.length) :
    ∃ e ∈ w.shim.table, e.token = inv := by
  by_contra hno
  push Not at hno
  obtain ⟨entries, zeroes, htable, -, hle, hent⟩ := hk.table
  obtain rfl : zeroes = 0 := Nat.le_zero.mp hle
  rw [List.replicate_zero, List.append_nil] at htable
  rw [htable] at hno hl
  have all : entries.filter (NsidTokenPair.Taken inv) = entries :=
    List.filter_eq_self.mpr fun e he => taken_iff.mpr (hno e he)
  have nodup : (entries.map NsidTokenPair.token).Nodup := by
    have distinct := hent.tidy.distinct
    rwa [Distinct, all] at distinct
  have sub : entries.map NsidTokenPair.token ⊆ w.live.map Prod.fst := by
    intro t ht
    obtain ⟨e, he, rfl⟩ := List.mem_map.mp ht
    exact List.mem_map_of_mem (hent.live e he (hno e he))
  have le := nodup.length_le_of_subset sub
  rw [List.length_map, List.length_map] at le
  exact absurd hl (Nat.not_lt.mpr le)

theorem step_eq_called {c : Call} (e : w.step inv c = some w') : w' = w.called inv c := by
  rw [World.step_eq_restrict] at e
  exact (Option.some.inj (restrict_eq_some.mp e).2).symm

/-- The thread identifier and the length of the table after a call that succeeds. -/
theorem succeeds_step {c : Call} (e : w.step inv c = some w') (hs : c.Succeeds w') :
    w'.shim.table.length = w.shim.table.length ∧
      w'.shim.threadId = w.shim.threadId + if c.IsAlloc then 1 else 0 := by
  obtain rfl := step_eq_called e
  cases c with
  | init _ | load _ _ | store _ _ => exact hs.elim
  | alloc module token =>
      by_cases hid : w.shim.threadId < nsidMgrThreadIdMax
      · obtain ⟨htable, -, -, hthread⟩ := @alloc_called inv w module token hid
        rw [htable]
        exact ⟨length_addEntry, hthread⟩
      · have ret : (tzAllocModuleContextS inv module token w.shim).ret ≠ 0 := hs
        rw [tzAllocModuleContextS, if_pos (Nat.not_lt.mp hid)] at ret
        exact absurd rfl ret
  | free id ok =>
      show (tzFreeModuleContextS inv id ok w.shim).shim.table.length = _ ∧
        (tzFreeModuleContextS inv id ok w.shim).shim.threadId = w.shim.threadId
      rw [free_table]
      refine ⟨length_removeEntry, ?_⟩
      rw [tzFreeModuleContextS, Shim.deactivate]
      split_ifs <;> rfl

/-- **After the initialisation** and calls that succeed, the thread identifier counts the
allocations. -/
theorem succeeds_run {held keeps : List Token} {w₀ : World} {h : List (Call × World)}
    (r : Steps (World.step inv) (World.start n held) ((.init (some keeps), w₀) :: h) w)
    (succ : ∀ a ∈ h, a.1.Succeeds a.2) : Kept inv 0 w ∧
      w.shim.table.length = n ∧ w.shim.threadId = allocations h + 1 := by
  cases r with
  | more e r =>
      let J := fun (h : List (Call × World)) (w : World) => (∀ a ∈ h, a.1.Succeeds a.2) →
        Kept inv 0 w ∧ w.shim.table.length = n ∧ w.shim.threadId = allocations h + 1
      refine @Steps.history _ _ _ _ _ _ J ?_ r [] (fun _ => ⟨kept_init e, ?_, ?_⟩) succ
      · intro h w c w' e ih succ
        obtain ⟨succ, last⟩ := List.forall_mem_append.mp succ
        obtain ⟨kept, length, thread⟩ := ih succ
        obtain ⟨length', thread'⟩ := succeeds_step e (last _ List.mem_cons_self)
        refine ⟨kept_step kept e, length'.trans length, ?_⟩
        rw [thread', thread, allocations, allocations, List.countP_append, List.countP_singleton]
        exact Nat.add_right_comm _ _ _
      · obtain rfl := step_eq_called e
        show ((List.replicate n _).map _).length = n
        rw [List.length_map, List.length_replicate]
      · obtain rfl := step_eq_called e
        rfl

/-- **Capacity.**  With fewer live allocations than entries, a new context is allocated if and only
if fewer than 254 allocations were made since the reset, whatever was freed, and its token is not
`0`. -/
theorem alloc_succeeds_iff {held keeps : List Token} {w₀ : World} {h : List (Call × World)}
    (r : Steps (World.step inv) (World.start n held) ((.init (some keeps), w₀) :: h) w)
    (succ : ∀ a ∈ h, a.1.Succeeds a.2) (live : w.live.length < n) {module : BitVec 32}
    (neg : module.toInt < 0) {token : Token} (granted : token ≠ inv ∧ token ∉ w.held) :
    (tzAllocModuleContextS inv module token w.shim).ret ≠ 0 ↔
      allocations h < 254 ∧ token ≠ 0 := by
  obtain ⟨kept, length, thread⟩ := succeeds_run r succ
  by_cases hid : w.shim.threadId < nsidMgrThreadIdMax
  · have few : allocations h < 254 := by
      have max : nsidMgrThreadIdMax = 255 := rfl
      omega
    obtain ⟨e, he, hfree⟩ := kept.exists_free (length ▸ live)
    have accepted : ¬Refused inv module.toInt w.shim.table := by
      rintro (hn | taken)
      · exact absurd neg (Int.not_lt.mpr hn)
      · exact taken e he hfree
    have made : (nsidMgrAddEntry inv module.toInt token w.shim.table).1 = .success :=
      not_not.mp fun h => accepted ((addEntry_fails_iff granted.1).mp h)
    have ret : (tzAllocModuleContextS inv module token w.shim).ret = token := by
      refine (@alloc_called inv w module token hid).2.2.1.trans ?_
      rw [if_pos made]
    rw [ret]
    exact ⟨fun h => ⟨few, h⟩, fun h => h.2⟩
  · have many : ¬allocations h < 254 := by
      have max : nsidMgrThreadIdMax = 255 := rfl
      omega
    have ret : (tzAllocModuleContextS inv module token w.shim).ret = 0 := by
      rw [tzAllocModuleContextS, if_pos (Nat.not_lt.mp hid)]
    exact ⟨fun h => absurd ret h, fun h => absurd h.1 many⟩

end Capacity

/-- A second allocation, beside a live one. -/
theorem alloc_succeeds_iff_second :
    ∃ w₀ h w, Steps (World.step 0xFFFFFFFF) (World.start threadNumMax [])
        ((.init (some []), w₀) :: h) w ∧ h.map Prod.fst = [.alloc 0xFFFFFFFE 5] ∧
      (tzAllocModuleContextS 0xFFFFFFFF 0xFFFFFFFD 6 w.shim).ret ≠ 0 := by
  have r := @Steps.more _ _ (World.step 0xFFFFFFFF) (World.start threadNumMax []) _ _
    (.init (some [])) _ rfl (.more (i := .alloc 0xFFFFFFFE 5) rfl (.refl _))
  refine ⟨_, _, _, r, rfl, (alloc_succeeds_iff r ?_ ?_ ?_ ?_).mpr ⟨?_, ?_⟩⟩
  · rintro a (_ | ⟨_, ⟨⟩⟩)
    have five : (5 : BitVec 32) ≠ 0 := by decide
    exact five
  all_goals decide

/-! The table of ten entries, all of them free, with every context given back. -/

/-- The shim after `k` pairs of an allocation and its free. -/
def shimAfterPairs (k : Nat) : Shim :=
  ⟨List.replicate threadNumMax (invalidPair 0xFFFFFFFF), k + 1, 0xFFFFFFFF⟩

/-- One pair more, as long as there is a thread identifier. -/
theorem pair_steps {k : Nat} (hk : k < 254) (last : Outcome) :
    ∃ h last', Steps (World.step 0xFFFFFFFF) ⟨shimAfterPairs k, [], [], last⟩ h
        ⟨shimAfterPairs (k + 1), [], [], last'⟩ ∧
      h.map Prod.fst = [.alloc 0xFFFFFFFE 5, .free 5 true] ∧ ∀ a ∈ h, a.1.Succeeds a.2 := by
  have hid : (shimAfterPairs k).threadId < nsidMgrThreadIdMax := Nat.succ_lt_succ hk
  have made : Call.Allocates 0xFFFFFFFF (shimAfterPairs k) 0xFFFFFFFE 5 := ⟨hid, rfl⟩
  let table := ⟨5, -2⟩ :: List.replicate 9 (invalidPair 0xFFFFFFFF)
  let shim : Shim := ⟨table, k + 2, 0xFFFFFFFF⟩
  have alloc : World.step 0xFFFFFFFF ⟨shimAfterPairs k, [], [], last⟩ (.alloc 0xFFFFFFFE 5) =
      some ⟨shim, [5], [(5, -2)], ⟨5, shim, [.acquire 0 (k + 1) 5]⟩⟩ := by
    have run : tzAllocModuleContextS 0xFFFFFFFF 0xFFFFFFFE 5 (shimAfterPairs k) =
        ⟨5, shim, [.acquire 0 (k + 1) 5]⟩ := by
      rw [tzAllocModuleContextS, if_neg (Nat.not_le.mpr hid)]
      rfl
    have fresh : (Call.alloc 0xFFFFFFFE 5).Fresh 0xFFFFFFFF [] := Or.inr List.not_mem_nil
    rw [World.step, if_pos fresh]
    simp only [Call.run, run, liveAfter, if_pos made]
    rfl
  have free : World.step 0xFFFFFFFF ⟨shim, [5], [(5, -2)], ⟨5, shim, [.acquire 0 (k + 1) 5]⟩⟩
      (.free 5 true) =
      some ⟨shimAfterPairs (k + 1), [], [], ⟨1, shimAfterPairs (k + 1), [.release 5 true]⟩⟩ := rfl
  refine ⟨_, _, .more alloc (.more free (.refl _)), rfl, ?_⟩
  refine List.forall_mem_cons.mpr ⟨?_, List.forall_mem_singleton.mpr rfl⟩
  have five : (5 : BitVec 32) ≠ 0 := by decide
  exact five

/-- **The identifiers run out.**  After 254 pairs nothing is live, and no allocation is made any
more. -/
theorem threads_exhausted :
    ∃ w₀ h w, Steps (World.step 0xFFFFFFFF) (World.start threadNumMax [])
        ((.init (some []), w₀) :: h) w ∧ (∀ a ∈ h, a.1.Succeeds a.2) ∧ w.live = [] ∧
      ∀ token, (tzAllocModuleContextS 0xFFFFFFFF 0xFFFFFFFE token w.shim).ret = 0 := by
  have pairs : ∀ k ≤ 254, ∃ w₀ h last, Steps (World.step 0xFFFFFFFF) (World.start threadNumMax [])
      ((.init (some []), w₀) :: h) ⟨shimAfterPairs k, [], [], last⟩ ∧
      ∀ a ∈ h, a.1.Succeeds a.2 := by
    intro k
    induction k with
    | zero =>
        intro _
        exact ⟨_, [], _, .more (i := Call.init (some [])) rfl (.refl _),
          fun a ha => absurd ha List.not_mem_nil⟩
    | succ k ih =>
        intro hk
        obtain ⟨w₀, h, last, r, succ⟩ := ih (Nat.le_of_succ_le hk)
        obtain ⟨h', last', r', -, succ'⟩ := pair_steps hk last
        exact ⟨w₀, h ++ h', last', r.trans r', List.forall_mem_append.mpr ⟨succ, succ'⟩⟩
  obtain ⟨w₀, h, last, r, succ⟩ := pairs 254 (Nat.le_refl 254)
  exact ⟨w₀, h, _, r, succ, rfl, fun _ => rfl⟩

end Nsid
