import Pico2wTfm.Nsid.Shim
import Pico2wTfm.Support.Run

/-!
# Results — ThreadIdentity

A context switch gives the secure side the NSID of the thread it switches to, and of no other: the
token of a thread stands for one allocation from the moment it is returned to the moment it is freed.
The secure side may hand a token out again once it does not hold it, allocations and frees may fail
at each of their calls, and slots of the table are used again.

The invariant is `Kept`.  The table starts as zeroes, which are no free entries, and stays so until
the context system is initialised; entries made before that precede the rest of the zeroes.
-/

namespace Nsid
open FirstFit Run

/-- The slot is taken. -/
def NsidTokenPair.Taken (inv : Token) (e : NsidTokenPair) : Bool := e.token ≠ inv

/-- **The table as the manager keeps it.** -/
structure Tidy (inv : Token) (table : List NsidTokenPair) : Prop where
  distinct : Distinct (NsidTokenPair.Taken inv) NsidTokenPair.token table
  negative : ∀ e ∈ table, e.token ≠ inv → e.nsid < 0
  free : ∀ e ∈ table, e.token = inv → e = invalidPair inv

/-- The entries, with the live allocations they stand for. -/
structure Entered (inv : Token) (live : List (Token × Int)) (table : List NsidTokenPair) : Prop
    where
  tidy : Tidy inv table
  live : ∀ e ∈ table, e.token ≠ inv → (e.token, e.nsid) ∈ live

/-- What holds in every state; at most `n` entries are as they were compiled in. -/
structure Kept (inv : Token) (n : Nat) (w : World) : Prop where
  table : ∃ entries zeroes, w.shim.table = entries ++ List.replicate zeroes ⟨0, 0⟩ ∧
    (zeroes = 0 ∨ inv ≠ 0) ∧ zeroes ≤ n ∧ Entered inv w.live entries
  tokens : (w.live.map Prod.fst).Nodup
  held : ∀ a ∈ w.live, a.1 ∈ w.held

section Table

variable {inv token : Token} {nsid : Int} {live live' : List (Token × Int)}
  {table as bs : List NsidTokenPair} {a x : NsidTokenPair}

theorem taken_iff : NsidTokenPair.Taken inv a = true ↔ a.token ≠ inv := decide_eq_true_iff

theorem taken_eq_false : NsidTokenPair.Taken inv a = false ↔ a.token = inv := by
  rw [← Bool.not_eq_true, taken_iff, not_not]

/-- A table of free entries. -/
theorem entered_free (h : ∀ e ∈ table, e = invalidPair inv) : Entered inv live table := by
  have token : ∀ e ∈ table, e.token = inv := fun e he => by rw [h e he]; rfl
  refine ⟨⟨?_, fun e he hne => absurd (token e he) hne, fun e he _ => h e he⟩,
    fun e he hne => absurd (token e he) hne⟩
  exact distinct_of_free fun e he => taken_eq_false.mpr (token e he)

/-- Another slot of the table, or a new one in place of `a`. -/
theorem forall_mem_replaced {p : NsidTokenPair → Prop} (h : ∀ e ∈ as ++ a :: bs, p e) (hx : p x) :
    ∀ e ∈ as ++ x :: bs, p e := by
  intro e he
  rcases List.mem_append.mp he with he | he
  · exact h e (List.mem_append_left _ he)
  · rcases List.mem_cons.mp he with rfl | he
    · exact hx
    · exact h e (List.mem_append_right _ (List.mem_cons_of_mem a he))

/-- **An entry is made** for a token that stands for no live allocation. -/
theorem Entered.add (h : Entered inv live (as ++ a :: bs)) (ha : a.token = inv)
    (hn : nsid < 0) (ht : token ≠ inv) (hnew : ∀ b ∈ live, b.1 ≠ token) :
    Entered inv ((token, nsid) :: live) (as ++ ⟨token, nsid⟩ :: bs) := by
  refine ⟨⟨?_, forall_mem_replaced h.tidy.negative fun _ => hn,
    forall_mem_replaced h.tidy.free fun he => absurd he ht⟩, ?_⟩
  · refine h.tidy.distinct.take (taken_eq_false.mpr ha) fun b hb hbt => ?_
    exact hnew _ (h.live b hb (taken_iff.mp hbt))
  · have old : ∀ e ∈ as ++ a :: bs, e.token ≠ inv → (e.token, e.nsid) ∈ (token, nsid) :: live :=
      fun e he hne => List.mem_cons_of_mem _ (h.live e he hne)
    exact forall_mem_replaced old fun _ => List.mem_cons_self

/-- **An entry is given up.** -/
theorem Entered.remove (h : Entered inv live (as ++ a :: bs)) :
    Entered inv live (as ++ invalidPair inv :: bs) := by
  have free : (invalidPair inv).token = inv := rfl
  refine ⟨⟨h.tidy.distinct.free (taken_eq_false.mpr free),
    forall_mem_replaced h.tidy.negative fun hne => absurd free hne,
    forall_mem_replaced h.tidy.free fun _ => rfl⟩, ?_⟩
  exact forall_mem_replaced h.live fun hne => absurd free hne

/-- After the removal of the entry of a token, no entry is left under it. -/
theorem Entered.removed (h : Entered inv live (as ++ a :: bs)) (ha : a.token = token)
    (ht : token ≠ inv) : ∀ e ∈ as ++ invalidPair inv :: bs, e.token ≠ token := by
  have nodup := h.tidy.distinct
  have hat : NsidTokenPair.Taken inv a = true := taken_iff.mpr (ha ▸ ht)
  rw [Distinct, List.filter_append, List.filter_cons_of_pos hat, List.map_append, List.map_cons,
    List.nodup_middle, List.nodup_cons, ← List.map_append, ← List.filter_append] at nodup
  intro e he heq
  rcases List.mem_append.mp he with he | he
  · refine nodup.1 (List.mem_map.mpr ⟨e, List.mem_filter.mpr ⟨?_, ?_⟩, heq.trans ha.symm⟩)
    · exact List.mem_append_left _ he
    · exact taken_iff.mpr (heq ▸ ht)
  · rcases List.mem_cons.mp he with rfl | he
    · exact ht heq.symm
    · refine nodup.1 (List.mem_map.mpr ⟨e, List.mem_filter.mpr ⟨?_, ?_⟩, heq.trans ha.symm⟩)
      · exact List.mem_append_right _ he
      · exact taken_iff.mpr (heq ▸ ht)

/-- A free entry behind the others. -/
theorem Entered.append_free (h : Entered inv live table) :
    Entered inv live (table ++ [invalidPair inv]) := by
  have free : (invalidPair inv).token = inv := rfl
  have old : ∀ {p : NsidTokenPair → Prop}, (∀ e ∈ table, p e) → p (invalidPair inv) →
      ∀ e ∈ table ++ [invalidPair inv], p e := fun hp hx =>
    List.forall_mem_append.mpr ⟨hp, List.forall_mem_singleton.mpr hx⟩
  refine ⟨⟨?_, old h.tidy.negative fun hne => absurd free hne, old h.tidy.free fun _ => rfl⟩,
    old h.live fun hne => absurd free hne⟩
  have none : ¬NsidTokenPair.Taken inv (invalidPair inv) = true := fun h => taken_iff.mp h free
  rw [Distinct, List.filter_append, List.filter_cons_of_neg none, List.filter_nil,
    List.append_nil]
  exact h.tidy.distinct

/-- The allocations that no entry stands for do not matter. -/
theorem Entered.forget (h : Entered inv live table)
    (hl : ∀ e ∈ table, e.token ≠ inv → (e.token, e.nsid) ∈ live → (e.token, e.nsid) ∈ live') :
    Entered inv live' table :=
  ⟨h.tidy, fun e he hne => hl e he hne (h.live e he hne)⟩

end Table

/-! ### The calls -/

section Calls

variable {inv : Token} {w w' : World} {s : Shim}

/-- What one call leaves. -/
theorem step_eq_some {c : Call} (e : w.step inv c = some w') : c.Fresh inv w.held ∧
    w'.shim = (c.run inv w.shim).shim ∧
    w'.held = (c.run inv w.shim).calls.foldl (heldAfter inv c.keeps) w.held ∧
    w'.live = liveAfter inv w.shim (c.run inv w.shim) w.live c ∧
    w'.last = c.run inv w.shim := by
  rw [World.step] at e
  by_cases hf : c.Fresh inv w.held
  · rw [if_pos hf] at e
    cases e
    exact ⟨hf, rfl, rfl, rfl, rfl⟩
  · rw [if_neg hf] at e
    cases e

/-- An allocation is made, or none is and the table stays. -/
theorem alloc_cases (module : BitVec 32) (token : Token) (s : Shim) :
    let o := tzAllocModuleContextS inv module token s
    let calls := [SecureCall.acquire nsidMgrGroupIdDefault s.threadId token]
    (Call.Allocates inv s module token ∧ o.ret = token ∧ o.calls = calls ∧
      nsidMgrAddEntry inv module.toInt token s.table = (.success, o.shim.table)) ∨
    (¬Call.Allocates inv s module token ∧ o.ret = 0 ∧ o.shim.table = s.table ∧
      (o.calls = [] ∨ o.calls = calls)) := by
  by_cases hid : nsidMgrThreadIdMax ≤ s.threadId
  · right
    rw [tzAllocModuleContextS, if_pos hid]
    exact ⟨fun h => absurd h.1 (Nat.not_lt.mpr hid), rfl, rfl, Or.inl rfl⟩
  rw [tzAllocModuleContextS, if_neg hid]
  by_cases hadd : (nsidMgrAddEntry inv module.toInt token s.table).1 = .success
  · left
    rw [if_pos hadd]
    exact ⟨⟨Nat.not_le.mp hid, hadd⟩, rfl, rfl, Prod.ext hadd rfl⟩
  · right
    rw [if_neg hadd]
    exact ⟨fun h => hadd h.2, rfl, addEntry_fails hadd, Or.inr rfl⟩

/-- A free removes an entry and releases its token, or changes nothing. -/
theorem free_cases (id : BitVec 32) (ok : Bool) (s : Shim) :
    let o := tzFreeModuleContextS inv id ok s
    (nsidMgrRemoveEntry inv id s.table = (.success, o.shim.table) ∧ o.calls = [.release id ok] ∧
      o.ret = if ok then 1 else 0) ∨
    (o.shim.table = s.table ∧ o.calls = [] ∧ o.ret = 0) := by
  rw [tzFreeModuleContextS]
  by_cases hrem : (nsidMgrRemoveEntry inv id s.table).1 = .success
  · left
    rw [if_neg (not_not.mpr hrem)]
    cases ok with
    | true =>
        refine ⟨Prod.ext hrem ?_, rfl, rfl⟩
        rw [if_pos rfl, Shim.deactivate]
        split_ifs <;> rfl
    | false => exact ⟨Prod.ext hrem rfl, rfl, rfl⟩
  · right
    rw [if_pos hrem]
    exact ⟨removeEntry_fails hrem, rfl, rfl⟩

/-- A load passes what the query finds, and calls nothing when it finds nothing. -/
theorem load_cases (id : BitVec 32) (ok : Bool) (s : Shim) :
    let o := tzLoadContextS inv id ok s
    o.shim.table = s.table ∧
    ((nsidMgrQueryNsid inv id s.table < 0 ∧
        o.calls = [.load id (nsidMgrQueryNsid inv id s.table) ok]) ∨
      (¬nsidMgrQueryNsid inv id s.table < 0 ∧ o.calls = [] ∧ o.ret = 0)) := by
  rw [tzLoadContextS]
  by_cases hq : tfmInvalidNsidMin ≤ nsidMgrQueryNsid inv id s.table
  · rw [if_pos hq]
    exact ⟨rfl, Or.inr ⟨Int.not_lt.mpr hq, rfl, rfl⟩⟩
  · rw [if_neg hq]
    cases ok with
    | true => exact ⟨rfl, Or.inl ⟨Int.not_le.mp hq, rfl⟩⟩
    | false => exact ⟨rfl, Or.inl ⟨Int.not_le.mp hq, rfl⟩⟩

end Calls

/-! ### The steps -/

section Steps

variable {inv : Token} {n : Nat} {w w' : World}

theorem kept_start (inv : Token) (n : Nat) (held : List Token) :
    Kept inv n (World.start n held) := by
  refine ⟨?_, List.nodup_nil, fun a ha => absurd ha List.not_mem_nil⟩
  by_cases hinv : inv = 0
  · refine ⟨List.replicate n ⟨0, 0⟩, 0, (List.append_nil _).symm, Or.inl rfl, n.zero_le, ?_⟩
    refine entered_free fun e he => ?_
    rw [List.eq_of_mem_replicate he, hinv]
    rfl
  · exact ⟨[], n, rfl, Or.inr hinv, n.le_refl,
      entered_free fun e he => absurd he List.not_mem_nil⟩

/-- What does not touch the table or the allocations, and releases nothing. -/
theorem Kept.frame (h : Kept inv n w) (table : w'.shim.table = w.shim.table)
    (live : w'.live = w.live) (held : ∀ t ∈ w.held, t ∈ w'.held) : Kept inv n w' := by
  refine ⟨?_, ?_, fun a ha => held _ (h.held a (live ▸ ha))⟩
  · rw [table, live]
    exact h.table
  · rw [live]
    exact h.tokens

/-- **`TZ_InitContextSystem_S`** frees every entry. -/
theorem kept_init {keeps : List Token} (e : w.step inv (.init (some keeps)) = some w') :
    Kept inv n w' := by
  obtain ⟨-, hshim, -, hlive, -⟩ := step_eq_some e
  have live : w'.live = [] := hlive
  have table : w'.shim.table = w.shim.table.map fun _ => invalidPair inv := by
    rw [hshim]
    rfl
  refine ⟨⟨w'.shim.table, 0, (List.append_nil _).symm, Or.inl rfl, n.zero_le,
    entered_free ?_⟩, ?_, ?_⟩
  · intro e he
    rw [table] at he
    obtain ⟨-, -, rfl⟩ := List.mem_map.mp he
    rfl
  · rw [live]
    exact List.nodup_nil
  · rw [live]
    exact fun a ha => absurd ha List.not_mem_nil

/-- A new token stands for no live allocation. -/
theorem Kept.fresh (h : Kept inv n w) {module : BitVec 32} {token : Token}
    (hf : (Call.alloc module token).Fresh inv w.held) (ht : token ≠ inv) :
    ∀ a ∈ w.live, a.1 ≠ token := by
  intro a ha heq
  rcases hf with hinv | hfree
  · exact ht hinv
  · exact hfree (heq ▸ h.held a ha)

/-- What an allocation leaves. -/
theorem step_alloc {module : BitVec 32} {token : Token}
    (e : w.step inv (.alloc module token) = some w') :
    (nsidMgrAddEntry inv module.toInt token w.shim.table = (.success, w'.shim.table) ∧
      w'.held = token :: w.held ∧ w'.live = (token, module.toInt) :: w.live ∧
      w'.last.ret = token) ∨
    (w'.shim.table = w.shim.table ∧ (∀ t ∈ w.held, t ∈ w'.held) ∧ w'.live = w.live) := by
  obtain ⟨-, hshim, hheld, hlive, hlast⟩ := step_eq_some e
  rw [hheld, hshim, hlive, hlast]
  rcases @alloc_cases inv module token w.shim with ⟨hmade, hret, hcalls, hadd⟩ |
    ⟨hnot, -, htable, hcalls⟩
  · left
    refine ⟨hadd, ?_, if_pos hmade, hret⟩
    show List.foldl _ _ (tzAllocModuleContextS inv module token w.shim).calls = _
    rw [hcalls]
    exact if_neg (addEntry_success hadd).2.1
  · right
    refine ⟨htable, fun t ht => ?_, if_neg hnot⟩
    show t ∈ List.foldl _ _ (tzAllocModuleContextS inv module token w.shim).calls
    rcases hcalls with hcalls | hcalls
    · rw [hcalls]
      exact ht
    · rw [hcalls]
      show t ∈ if token = inv then w.held else token :: w.held
      by_cases hinv : token = inv
      · rw [if_pos hinv]
        exact ht
      · rw [if_neg hinv]
        exact List.mem_cons_of_mem _ ht

/-- **`TZ_AllocModuleContext_S`** takes the first free entry for a new token. -/
theorem kept_alloc (h : Kept inv n w) {module : BitVec 32} {token : Token}
    (e : w.step inv (.alloc module token) = some w') : Kept inv n w' := by
  rcases step_alloc e with ⟨hadd, hheld, hlive, -⟩ | ⟨htable, hheld, hlive⟩
  · obtain ⟨hn, ht, as, a, bs, hold, -, ha, hnew⟩ := addEntry_success hadd
    obtain ⟨entries, zeroes, htable, hz, hle, hent⟩ := h.table
    have hfresh := h.fresh (step_eq_some e).1 ht
    refine ⟨?_, ?_, ?_⟩
    · rw [hlive, hnew]
      rcases append_cons_eq_append (hold.symm.trans htable) with ⟨cs, rfl, rfl⟩ | ⟨cs, -, hzero⟩
      · refine ⟨as ++ ⟨token, module.toInt⟩ :: cs, zeroes, ?_, hz, hle, hent.add ha hn ht hfresh⟩
        rw [List.append_assoc]
        rfl
      · -- the zeroes are no free entries
        have hmem : a ∈ List.replicate zeroes (⟨0, 0⟩ : NsidTokenPair) := by
          rw [hzero]
          exact List.mem_append_right _ List.mem_cons_self
        rcases hz with rfl | hinv
        · exact absurd hmem List.not_mem_nil
        · rw [List.eq_of_mem_replicate hmem] at ha
          exact absurd ha.symm hinv
    · rw [hlive, List.map_cons, List.nodup_cons]
      refine ⟨fun hmem => ?_, h.tokens⟩
      obtain ⟨b, hb, heq⟩ := List.mem_map.mp hmem
      exact hfresh b hb heq
    · rw [hlive, hheld]
      refine List.forall_mem_cons.mpr ⟨List.mem_cons_self, fun b hb => ?_⟩
      exact List.mem_cons_of_mem _ (h.held b hb)
  · exact h.frame htable hlive hheld

/-- What a free leaves. -/
theorem step_free {id : BitVec 32} {ok : Bool} (e : w.step inv (.free id ok) = some w') :
    (nsidMgrRemoveEntry inv id w.shim.table = (.success, w'.shim.table) ∧
      ((w'.held = w.held ∧ w'.live = w.live) ∨
        (w'.held = w.held.filter (· ≠ id) ∧ w'.live = w.live.filter fun a => a.1 ≠ id))) ∨
    (w'.shim.table = w.shim.table ∧ w'.held = w.held ∧ w'.live = w.live) := by
  obtain ⟨-, hshim, hheld, hlive, -⟩ := step_eq_some e
  rw [hheld, hshim, hlive]
  rcases @free_cases inv id ok w.shim with ⟨hrem, hcalls, hret⟩ | ⟨htable, hcalls, hret⟩
  · left
    refine ⟨hrem, ?_⟩
    show (List.foldl _ _ (tzFreeModuleContextS inv id ok w.shim).calls = _ ∧
        (if (tzFreeModuleContextS inv id ok w.shim).ret = 1 then _ else _) = _) ∨
      (List.foldl _ _ (tzFreeModuleContextS inv id ok w.shim).calls = _ ∧
        (if (tzFreeModuleContextS inv id ok w.shim).ret = 1 then _ else _) = _)
    rw [hcalls, hret]
    cases ok with
    | true => exact Or.inr ⟨rfl, rfl⟩
    | false => exact Or.inl ⟨rfl, rfl⟩
  · right
    refine ⟨htable, ?_, ?_⟩
    · show List.foldl _ _ (tzFreeModuleContextS inv id ok w.shim).calls = _
      rw [hcalls]
      rfl
    · show (if (tzFreeModuleContextS inv id ok w.shim).ret = 1 then _ else _) = _
      rw [hret]
      rfl

/-- The slot that a removal frees is an entry, or the first of the zeroes. -/
theorem kept_table_remove {live : List (Token × Int)} {id : Token} {table' : List NsidTokenPair}
    {entries : List NsidTokenPair} {zeroes : Nat} (hz : zeroes = 0 ∨ inv ≠ 0)
    (hent : Entered inv live entries)
    (hrem : nsidMgrRemoveEntry inv id (entries ++ List.replicate zeroes ⟨0, 0⟩) =
      (.success, table')) :
    ∃ entries' zeroes', table' = entries' ++ List.replicate zeroes' ⟨0, 0⟩ ∧
      (zeroes' = 0 ∨ inv ≠ 0) ∧ zeroes' ≤ zeroes ∧ Entered inv live entries' ∧ ∀ e ∈ entries', e.token ≠ id := by
  obtain ⟨ht, as, a, bs, hold, hbefore, ha, rfl⟩ := removeEntry_success hrem
  rcases append_cons_eq_append hold.symm with ⟨cs, rfl, rfl⟩ | ⟨cs, rfl, hzero⟩
  · refine ⟨as ++ invalidPair inv :: cs, zeroes, ?_, hz, Nat.le_refl _, hent.remove,
      hent.removed ha ht⟩
    rw [List.append_assoc]
    rfl
  · have hall : ∀ e ∈ cs ++ a :: bs, e = ⟨0, 0⟩ := by
      rw [← hzero]
      exact fun e he => List.eq_of_mem_replicate he
    have hid : id = 0 := by
      rw [← ha, hall a (List.mem_append_right _ List.mem_cons_self)]
    have hcs : cs = [] := by
      refine List.eq_nil_iff_forall_not_mem.mpr fun e he => ?_
      refine hbefore e (List.mem_append_right _ he) ?_
      rw [hall e (List.mem_append_left _ he), hid]
    have hinv : inv ≠ 0 := fun h => ht (hid.trans h.symm)
    subst hcs
    have hbs : bs = List.replicate bs.length ⟨0, 0⟩ :=
      List.eq_replicate_iff.mpr ⟨rfl, fun e he => hall e (List.mem_cons_of_mem _ he)⟩
    rw [List.append_nil] at hbefore ⊢
    refine ⟨entries ++ [invalidPair inv], bs.length, ?_, Or.inr hinv, ?_, hent.append_free, ?_⟩
    · rw [← hbs, List.append_assoc]
      rfl
    · have hlen := congrArg List.length hzero
      rw [List.length_replicate] at hlen
      rw [hlen]
      exact Nat.le_succ _
    · intro e he
      rcases List.mem_append.mp he with he | he
      · exact hbefore e he
      · rw [List.mem_singleton.mp he]
        exact Ne.symm ht

/-- **`TZ_FreeModuleContext_S`** gives up the entry, also when the secure side keeps the context. -/
theorem kept_free (h : Kept inv n w) {id : BitVec 32} {ok : Bool}
    (e : w.step inv (.free id ok) = some w') : Kept inv n w' := by
  rcases step_free e with ⟨hrem, hend⟩ | ⟨htable, hheld, hlive⟩
  · obtain ⟨entries, zeroes, htable, hz, hle, hent⟩ := h.table
    rw [htable] at hrem
    obtain ⟨entries', zeroes', htable', hz', hle', hent', hno⟩ := kept_table_remove hz hent hrem
    replace hle := Nat.le_trans hle' hle
    rcases hend with ⟨hheld, hlive⟩ | ⟨hheld, hlive⟩
    · refine ⟨⟨entries', zeroes', htable', hz', hle, hlive ▸ hent'⟩, hlive ▸ h.tokens, ?_⟩
      rw [hheld, hlive]
      exact h.held
    · refine ⟨⟨entries', zeroes', htable', hz', hle, hent'.forget fun e he hne hmem => ?_⟩, ?_, ?_⟩
      · rw [hlive]
        exact List.mem_filter.mpr ⟨hmem, decide_eq_true (hno e he)⟩
      · rw [hlive]
        exact List.Nodup.sublist (List.Sublist.map _ List.filter_sublist) h.tokens
      · rw [hlive, hheld]
        intro a ha
        obtain ⟨ha, hne⟩ := List.mem_filter.mp ha
        exact List.mem_filter.mpr ⟨h.held a ha, hne⟩
  · exact h.frame htable hlive fun t ht => hheld ▸ ht

/-- **Every call** keeps the invariant. -/
theorem kept_step (h : Kept inv n w) {c : Call} (e : w.step inv c = some w') : Kept inv n w' := by
  cases c with
  | init keeps =>
      cases keeps with
      | some keeps => exact kept_init e
      | none =>
          obtain ⟨-, hshim, hheld, hlive, -⟩ := step_eq_some e
          refine h.frame (hshim ▸ rfl) hlive fun t ht => ?_
          rw [hheld]
          exact ht
  | alloc module token => exact kept_alloc h e
  | free id ok => exact kept_free h e
  | load id ok =>
      obtain ⟨-, hshim, hheld, hlive, -⟩ := step_eq_some e
      have calls := @load_cases inv id ok w.shim
      refine h.frame (hshim ▸ calls.1) hlive fun t ht => ?_
      rw [hheld]
      show t ∈ List.foldl _ _ (tzLoadContextS inv id ok w.shim).calls
      rcases calls.2 with ⟨-, hcalls⟩ | ⟨-, hcalls, -⟩
      · rw [hcalls]
        exact ht
      · rw [hcalls]
        exact ht
  | store id ok =>
      obtain ⟨-, hshim, hheld, hlive, -⟩ := step_eq_some e
      refine h.frame ?_ hlive fun t ht => ?_
      · rw [hshim]
        show (tzStoreContextS inv id ok w.shim).shim.table = _
        rw [tzStoreContextS, Shim.deactivate]
        split_ifs <;> rfl
      · rw [hheld]
        show t ∈ List.foldl _ _ (tzStoreContextS inv id ok w.shim).calls
        cases ok with
        | true => exact ht
        | false => exact ht

end Steps

/-! ### The runs -/

/-- The context system was initialised. -/
def Initialised (h : List (Call × World)) : Prop := ∃ a ∈ h, ∃ keeps, a.1 = .init (some keeps)

/-- A call that may end the allocation of a token. -/
def Call.Ends (t : Token) : Call → Prop
  | .init _ => True
  | .free id _ => id = t
  | _ => False

/-- In the history `h` an allocation with the NSID `n` returned `t`, and no call that returned 1 has
ended it since. -/
def Stands (h : List (Call × World)) (t : Token) (n : Int) : Prop :=
  ∃ h₁ module w₁ h₂, h = h₁ ++ (.alloc module t, w₁) :: h₂ ∧ module.toInt = n ∧
    w₁.last.ret = t ∧ ∀ a ∈ h₂, a.1.Ends t → a.2.last.ret ≠ 1

section Runs

variable {inv : Token} {n : Nat} {held : List Token} {w w' : World} {h : List (Call × World)}

theorem Stands.append {t : Token} {m : Int} {c : Call} (hs : Stands h t m)
    (hc : c.Ends t → w'.last.ret ≠ 1) : Stands (h ++ [(c, w')]) t m := by
  obtain ⟨h₁, module, w₁, h₂, rfl, hm, hret, hend⟩ := hs
  refine ⟨h₁, module, w₁, h₂ ++ [(c, w')], ?_, hm, hret, ?_⟩
  · rw [List.append_assoc]
    rfl
  · exact List.forall_mem_append.mpr ⟨hend, List.forall_mem_singleton.mpr hc⟩

/-- What is live after a call stood before it, or was allocated by it. -/
theorem stands_step {c : Call} (e : w.step inv c = some w')
    (hs : ∀ a ∈ w.live, Stands h a.1 a.2) : ∀ a ∈ w'.live, Stands (h ++ [(c, w')]) a.1 a.2 := by
  obtain ⟨-, -, -, hlive, hlast⟩ := step_eq_some e
  intro a ha
  cases c with
  | init keeps =>
      cases keeps with
      | some keeps =>
          have live : w'.live = [] := hlive
          rw [live] at ha
          exact absurd ha List.not_mem_nil
      | none =>
          have live : w'.live = w.live := hlive
          have ret : w'.last.ret = 0 := by rw [hlast]; rfl
          refine (hs a (live ▸ ha)).append fun _ => ?_
          rw [ret]
          exact of_decide_eq_false rfl
  | alloc module token =>
      have no : (Call.alloc module token).Ends a.1 → w'.last.ret ≠ 1 := fun h => h.elim
      rcases step_alloc e with ⟨-, -, hlive, hret⟩ | ⟨-, -, hlive⟩
      · rw [hlive] at ha
        rcases List.mem_cons.mp ha with rfl | ha
        · exact ⟨h, module, w', [], rfl, rfl, hret, fun b hb => absurd hb List.not_mem_nil⟩
        · exact (hs a ha).append no
      · rw [hlive] at ha
        exact (hs a ha).append no
  | free id ok =>
      have live : w'.live = if w'.last.ret = 1 then w.live.filter fun a => a.1 ≠ id else w.live := by
        rw [hlive, hlast]
        rfl
      by_cases hret : w'.last.ret = 1
      · rw [live, if_pos hret] at ha
        obtain ⟨ha, hne⟩ := List.mem_filter.mp ha
        exact (hs a ha).append fun heq => absurd heq.symm (of_decide_eq_true hne)
      · rw [live, if_neg hret] at ha
        exact (hs a ha).append fun _ => hret
  | load id ok =>
      have live : w'.live = w.live := hlive
      exact (hs a (live ▸ ha)).append fun h => h.elim
  | store id ok =>
      have live : w'.live = w.live := hlive
      exact (hs a (live ▸ ha)).append fun h => h.elim

/-- **Every run.** -/
theorem run_kept (r : Steps (World.step inv) (World.start n held) h w) :
    Kept inv n w ∧ (Initialised h → Kept inv 0 w) ∧ ∀ a ∈ w.live, Stands h a.1 a.2 := by
  refine @Steps.history _ _ _ _ _ _ (fun h w => Kept inv n w ∧ (Initialised h → Kept inv 0 w) ∧
    ∀ a ∈ w.live, Stands h a.1 a.2) ?_ r [] ⟨kept_start inv n held, ?_, ?_⟩
  · rintro h w c w' e ⟨hk, hi, hs⟩
    refine ⟨kept_step hk e, ?_, stands_step e hs⟩
    rintro ⟨a, ha, keeps, hkeeps⟩
    rcases List.mem_append.mp ha with ha | ha
    · exact kept_step (hi ⟨a, ha, keeps, hkeeps⟩) e
    · obtain rfl := List.mem_singleton.mp ha
      obtain rfl : c = .init (some keeps) := hkeeps
      exact kept_init e
  · rintro ⟨a, ha, -⟩
    exact absurd ha List.not_mem_nil
  · exact fun a ha => absurd ha List.not_mem_nil

/-- An entry with an NSID stands for a live allocation. -/
theorem Kept.of_query (hk : Kept inv n w) {t : Token}
    (hq : nsidMgrQueryNsid inv t w.shim.table < 0) :
    (t, nsidMgrQueryNsid inv t w.shim.table) ∈ w.live := by
  obtain ⟨entries, zeroes, htable, -, -, hent⟩ := hk.table
  obtain ⟨ht, hmem⟩ := queryNsid_neg hq
  rw [htable] at hmem
  rcases List.mem_append.mp hmem with hmem | hmem
  · rw [htable]
    exact hent.live _ hmem ht
  · have zero : nsidMgrQueryNsid inv t _ = 0 :=
      congrArg NsidTokenPair.nsid (List.eq_of_mem_replicate hmem)
    rw [htable, zero] at hq
    exact absurd hq (Int.lt_irrefl 0)

/-- A token stands for one allocation. -/
theorem Kept.unique (hk : Kept inv n w) {t : Token} {m m' : Int} (hm : (t, m) ∈ w.live)
    (hm' : (t, m') ∈ w.live) : m' = m :=
  congrArg Prod.snd (List.inj_on_of_nodup_map hk.tokens hm' hm rfl)

/-- **A load passes the NSID of the live allocation** of its token. -/
theorem Kept.load (hk : Kept inv n w) (t : Token) (ok : Bool) :
    (∀ c ∈ (tzLoadContextS inv t ok w.shim).calls, ∃ m, c = .load t m ok ∧ (t, m) ∈ w.live ∧
      ∀ m', (t, m') ∈ w.live → m' = m) ∧
    ((∀ m, (t, m) ∉ w.live) → (tzLoadContextS inv t ok w.shim).ret = 0 ∧
      (tzLoadContextS inv t ok w.shim).calls = []) := by
  rcases (@load_cases inv t ok w.shim).2 with ⟨hq, hcalls⟩ | ⟨-, hcalls, hret⟩
  · have live := hk.of_query hq
    refine ⟨fun c hc => ?_, fun hno => absurd live (hno _)⟩
    rw [hcalls] at hc
    exact ⟨_, List.mem_singleton.mp hc, live, fun m' hm' => hk.unique live hm'⟩
  · refine ⟨fun c hc => ?_, fun _ => ⟨hret, hcalls⟩⟩
    rw [hcalls] at hc
    exact absurd hc List.not_mem_nil

theorem Kept.tidy (hk : Kept inv 0 w) : Tidy inv w.shim.table := by
  obtain ⟨entries, zeroes, htable, -, hle, hent⟩ := hk.table
  obtain rfl : zeroes = 0 := Nat.le_zero.mp hle
  rw [htable, List.replicate_zero, List.append_nil]
  exact hent.tidy

/-- The NSID that a thread is made with. -/
theorem osWrapperThreadNew_toInt (psaApiTestNs : Bool) (name : Option CName)
    (stackSize : Option Int) (priority : BitVec 32) :
    (osWrapperThreadNew psaApiTestNs name stackSize priority).tzModule.toInt =
      nsidMgrGetThreadNsid psaApiTestNs name := by
  obtain ⟨hlow, hhigh⟩ := getThreadNsid_range (t := psaApiTestNs) name
  show (BitVec.ofInt 32 (nsidMgrGetThreadNsid psaApiTestNs name)).toInt = _
  rw [BitVec.toInt_ofInt]
  exact Int.bmod_eq_of_le (by omega) (by omega)

/-- **Thread identity.**  In every run: once the context system was initialised, the table is tidy;
what is live stands in the history; a load that reaches the secure side passes the NSID of the one
live allocation of its token, and a load of any other token fails before it; and a thread is made
with the NSID of exactly its name. -/
theorem thread_identity (r : Steps (World.step inv) (World.start n held) h w) :
    (Initialised h → Tidy inv w.shim.table) ∧
    (∀ a ∈ w.live, Stands h a.1 a.2) ∧
    (∀ t ok,
      (∀ c ∈ (tzLoadContextS inv t ok w.shim).calls, ∃ m, c = .load t m ok ∧ (t, m) ∈ w.live ∧
        ∀ m', (t, m') ∈ w.live → m' = m) ∧
      ((∀ m, (t, m) ∉ w.live) → (tzLoadContextS inv t ok w.shim).ret = 0 ∧
        (tzLoadContextS inv t ok w.shim).calls = [])) ∧
    ∀ psaApiTestNs name stackSize priority,
      let nsid := (osWrapperThreadNew psaApiTestNs name stackSize priority).tzModule.toInt
      (∀ e ∈ testNsNsidTable psaApiTestNs, name = some e.tName → nsid = e.nsid) ∧
      ((∀ e ∈ testNsNsidTable psaApiTestNs, name ≠ some e.tName) → nsid = -1) := by
  obtain ⟨hk, hi, hs⟩ := run_kept r
  refine ⟨fun init => (hi init).tidy, hs, hk.load, ?_⟩
  intro t name stackSize priority
  dsimp only
  rw [osWrapperThreadNew_toInt]
  refine ⟨?_, getThreadNsid_default⟩
  rintro e he rfl
  exact getThreadNsid_mem he

end Runs

/-- A thread under the name of the first entry, allocated and loaded. -/
theorem thread_identity_thread_a :
    ∃ h w, Steps (World.step 0xFFFFFFFF) (World.start threadNumMax []) h w ∧
      h.map Prod.fst = [.init (some []),
        .alloc (osWrapperThreadNew false (some (cname "Thread_A")) none 0).tzModule 5] ∧
      Tidy 0xFFFFFFFF w.shim.table ∧
      (tzLoadContextS 0xFFFFFFFF 5 true w.shim).calls = [.load 5 (-2) true] := by
  have r := @Steps.more _ _ (World.step 0xFFFFFFFF) (World.start threadNumMax []) _ _
    (.init (some [])) _ rfl
    (.more (i := .alloc (osWrapperThreadNew false (some (cname "Thread_A")) none 0).tzModule 5) rfl
      (.refl _))
  exact ⟨_, _, r, rfl, (thread_identity r).1 ⟨_, List.mem_cons_self, _, rfl⟩, rfl⟩

/-- **The table is not tidy before**: a failing initialisation leaves ten entries under the token 0,
with no NSID. -/
theorem zeroes_not_tidy :
    ∃ h w, Steps (World.step 0xFFFFFFFF) (World.start threadNumMax []) h w ∧
      h.map Prod.fst = [.init none] ∧ ¬Tidy 0xFFFFFFFF w.shim.table := by
  refine ⟨_, _, .more (i := .init none) rfl (.refl _), rfl, fun tidy => ?_⟩
  have bad : (0 : Int) < 0 := tidy.negative ⟨0, 0⟩ List.mem_cons_self (by decide)
  exact absurd bad (Int.lt_irrefl 0)

end Nsid
