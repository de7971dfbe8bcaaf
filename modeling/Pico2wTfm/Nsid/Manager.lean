import Mathlib.Data.Int.Basic
import Pico2wTfm.Support.FirstFit

/-!
# Nsid — Manager

The NSID manager of the non-secure side (`tfm_nsid_manager.c`), a table of pairs of a token and an
NSID, and the names with an NSID of their own (`tfm_nsid_map_table.c`).  The value of
`TFM_NS_CLIENT_INVALID_TOKEN`, which marks a free entry, comes from the secure side and is a
parameter here; the table has any number of entries.

An NSID is negative; `0` and above are no NSIDs.
-/

namespace Nsid
open FirstFit

/-! ### The table -/

abbrev Token := BitVec 32

/-- `struct nsid_token_pair`. -/
structure NsidTokenPair where
  token : Token
  nsid : Int
deriving DecidableEq, Repr

/-- The number of entries of the table as it is shipped. -/
def threadNumMax : Nat := 10

def tfmInvalidNsidMin : Int := 0
def tfmDefaultNsid : Int := -1

inductive NsidMgrErr where
  | success | invalidNsid | invalidToken | noFreeEntry
deriving DecidableEq, Repr

/-- A free entry. -/
def invalidPair (inv : Token) : NsidTokenPair := ⟨inv, tfmInvalidNsidMin⟩

/-- `nsid_mgr_init`. -/
def nsidMgrInit (inv : Token) (table : List NsidTokenPair) : NsidMgrErr × List NsidTokenPair :=
  (.success, table.map fun _ => invalidPair inv)

/-- `nsid_mgr_add_entry`. -/
def nsidMgrAddEntry (inv : Token) (nsid : Int) (token : Token) (table : List NsidTokenPair) :
    NsidMgrErr × List NsidTokenPair :=
  if tfmInvalidNsidMin ≤ nsid then (.invalidNsid, table)
  else if token = inv then (.invalidToken, table)
  else
    match replaceFirst (fun e => e.token = inv) ⟨token, nsid⟩ table with
    | some table => (.success, table)
    | none => (.noFreeEntry, table)

/-- `nsid_mgr_remove_entry`. -/
def nsidMgrRemoveEntry (inv : Token) (token : Token) (table : List NsidTokenPair) :
    NsidMgrErr × List NsidTokenPair :=
  if token = inv then (.invalidToken, table)
  else
    match replaceFirst (fun e => e.token = token) (invalidPair inv) table with
    | some table => (.success, table)
    | none => (.invalidToken, table)

/-- `nsid_mgr_query_nsid`. -/
def nsidMgrQueryNsid (inv : Token) (token : Token) (table : List NsidTokenPair) : Int :=
  if token = inv then tfmInvalidNsidMin
  else
    match table.find? fun e => e.token = token with
    | some e => e.nsid
    | none => tfmInvalidNsidMin

section Table

variable {inv token : Token} {nsid : Int} {table table' : List NsidTokenPair}

/-- **Adding an entry**: it takes the first free one. -/
theorem addEntry_success (h : nsidMgrAddEntry inv nsid token table = (.success, table')) :
    nsid < 0 ∧ token ≠ inv ∧ ∃ as a bs, table = as ++ a :: bs ∧ (∀ b ∈ as, b.token ≠ inv) ∧
      a.token = inv ∧ table' = as ++ ⟨token, nsid⟩ :: bs := by
  rw [nsidMgrAddEntry] at h
  by_cases hn : tfmInvalidNsidMin ≤ nsid
  · rw [if_pos hn] at h
    cases h
  by_cases ht : token = inv
  · rw [if_neg hn, if_pos ht] at h
    cases h
  rw [if_neg hn, if_neg ht] at h
  cases hr : replaceFirst (fun e => e.token = inv) ⟨token, nsid⟩ table with
  | none => rw [hr] at h; cases h
  | some l =>
      rw [hr] at h
      cases h
      obtain ⟨as, a, bs, rfl, has, ha, rfl⟩ := replaceFirst_eq_some.mp hr
      exact ⟨Int.not_le.mp hn, ht, as, a, bs, rfl, fun b hb => of_decide_eq_false (has b hb),
        of_decide_eq_true ha, rfl⟩

/-- A failed addition changes nothing. -/
theorem addEntry_fails (h : (nsidMgrAddEntry inv nsid token table).1 ≠ .success) :
    (nsidMgrAddEntry inv nsid token table).2 = table := by
  rw [nsidMgrAddEntry] at h ⊢
  split_ifs at h ⊢
  · rfl
  · rfl
  · split at h
    · exact absurd rfl h
    · rfl

/-- **Removing an entry**: the first under the token is freed. -/
theorem removeEntry_success (h : nsidMgrRemoveEntry inv token table = (.success, table')) :
    token ≠ inv ∧ ∃ as a bs, table = as ++ a :: bs ∧ (∀ b ∈ as, b.token ≠ token) ∧
      a.token = token ∧ table' = as ++ invalidPair inv :: bs := by
  rw [nsidMgrRemoveEntry] at h
  by_cases ht : token = inv
  · rw [if_pos ht] at h
    cases h
  rw [if_neg ht] at h
  cases hr : replaceFirst (fun e => e.token = token) (invalidPair inv) table with
  | none => rw [hr] at h; cases h
  | some l =>
      rw [hr] at h
      cases h
      obtain ⟨as, a, bs, rfl, has, ha, rfl⟩ := replaceFirst_eq_some.mp hr
      exact ⟨ht, as, a, bs, rfl, fun b hb => of_decide_eq_false (has b hb),
        of_decide_eq_true ha, rfl⟩

/-- A failed removal changes nothing. -/
theorem removeEntry_fails (h : (nsidMgrRemoveEntry inv token table).1 ≠ .success) :
    (nsidMgrRemoveEntry inv token table).2 = table := by
  rw [nsidMgrRemoveEntry] at h ⊢
  split_ifs at h ⊢
  · rfl
  · split at h
    · exact absurd rfl h
    · rfl

/-- A query that finds an NSID finds an entry. -/
theorem queryNsid_neg (h : nsidMgrQueryNsid inv token table < 0) :
    token ≠ inv ∧ ⟨token, nsidMgrQueryNsid inv token table⟩ ∈ table := by
  rw [nsidMgrQueryNsid] at h ⊢
  by_cases ht : token = inv
  · rw [if_pos ht] at h
    exact absurd h (by decide)
  rw [if_neg ht] at h ⊢
  refine ⟨ht, ?_⟩
  cases hf : table.find? fun e => e.token = token with
  | none =>
      simp only [hf] at h
      exact absurd h (by decide)
  | some e =>
      have htoken : e.token = token := by simpa using List.find?_some hf
      have hmem : e ∈ table := List.mem_of_find?_eq_some hf
      rw [← htoken]
      exact hmem

end Table

/-! ### The names -/

/-- The characters of a name, up to its terminator. -/
abbrev CName := List (BitVec 8)

def cname (s : String) : CName := s.toList.map fun c => BitVec.ofNat 8 c.toNat

/-- `struct thread_test_nsid_pair`. -/
structure ThreadTestNsidPair where
  tName : CName
  nsid : Int
deriving DecidableEq, Repr

/-- `test_ns_nsid_table`; the last entry is that of a build with `PSA_API_TEST_NS`. -/
def testNsNsidTable (psaApiTestNs : Bool) : List ThreadTestNsidPair :=
  [⟨cname "Thread_A", -2⟩, ⟨cname "Thread_B", -3⟩, ⟨cname "Thread_C", -4⟩, ⟨cname "Thread_D", -5⟩,
    ⟨cname "seq_task", -6⟩, ⟨cname "mid_task", -7⟩, ⟨cname "pri_task", -8⟩] ++
  if psaApiTestNs then [⟨cname "psa_api_test", -9⟩] else []

/-- `str_cmp`.  The loop stops when both strings are at their terminators, and with `1` where they
differ; a string that ends first differs from the other there. -/
def strCmp : CName → CName → Int
  | [], [] => 0
  | a :: as, b :: bs => if a ≠ b then 1 else strCmp as bs
  | _, _ => 1

/-- `nsid_mgr_get_thread_nsid`; `none` is `NULL`. -/
def nsidMgrGetThreadNsid (psaApiTestNs : Bool) : Option CName → Int
  | none => tfmDefaultNsid
  | some tName =>
      match (testNsNsidTable psaApiTestNs).find? fun e => strCmp e.tName tName = 0 with
      | some e => e.nsid
      | none => tfmDefaultNsid

/-- The comparison finds equal names, also when one is a prefix of the other. -/
theorem strCmp_eq_zero {a b : CName} : strCmp a b = 0 ↔ a = b := by
  induction a generalizing b with
  | nil =>
      cases b with
      | nil => exact ⟨fun _ => rfl, fun _ => rfl⟩
      | cons b bs => exact ⟨fun h => absurd h Int.one_ne_zero, fun h => by cases h⟩
  | cons a as ih =>
      cases b with
      | nil => exact ⟨fun h => absurd h Int.one_ne_zero, fun h => by cases h⟩
      | cons b bs =>
          rw [strCmp]
          by_cases hab : a = b
          · rw [if_neg (not_not.mpr hab), ih, hab]
            exact ⟨congrArg (b :: ·), fun h => (List.cons.inj h).2⟩
          · rw [if_pos hab]
            exact ⟨fun h => absurd h Int.one_ne_zero, fun h => absurd (List.cons.inj h).1 hab⟩

section Names

variable {t : Bool}

/-- No name is in the table twice. -/
theorem table_tName_inj : ∀ e ∈ testNsNsidTable t, ∀ e' ∈ testNsNsidTable t,
    e.tName = e'.tName → e = e' := by
  cases t <;> decide

/-- **The NSID of a name** that is in the table. -/
theorem getThreadNsid_mem {e : ThreadTestNsidPair} (he : e ∈ testNsNsidTable t) :
    nsidMgrGetThreadNsid t (some e.tName) = e.nsid := by
  rw [nsidMgrGetThreadNsid]
  cases hf : (testNsNsidTable t).find? fun e' => strCmp e'.tName e.tName = 0 with
  | none =>
      have hno := List.find?_eq_none.mp hf e he
      exact absurd (decide_eq_true (strCmp_eq_zero.mpr rfl)) hno
  | some e' =>
      have hname : e'.tName = e.tName :=
        strCmp_eq_zero.mp (by simpa using List.find?_some hf)
      obtain rfl := table_tName_inj e' (List.mem_of_find?_eq_some hf) e he hname
      rfl

/-- Any other name, and no name at all, has the default. -/
theorem getThreadNsid_default {name : Option CName}
    (h : ∀ e ∈ testNsNsidTable t, name ≠ some e.tName) :
    nsidMgrGetThreadNsid t name = tfmDefaultNsid := by
  cases name with
  | none => rfl
  | some n =>
      have hf : (testNsNsidTable t).find? (fun e => strCmp e.tName n = 0) = none := by
        refine List.find?_eq_none.mpr fun e he hc => h e he ?_
        rw [strCmp_eq_zero.mp (of_decide_eq_true hc)]
      rw [nsidMgrGetThreadNsid, hf]

/-- Every NSID of a thread is one, and fits an `int32_t`. -/
theorem getThreadNsid_range (name : Option CName) :
    -9 ≤ nsidMgrGetThreadNsid t name ∧ nsidMgrGetThreadNsid t name < 0 := by
  by_cases h : ∀ e ∈ testNsNsidTable t, name ≠ some e.tName
  · rw [getThreadNsid_default h]
    decide
  · push Not at h
    obtain ⟨e, he, rfl⟩ := h
    rw [getThreadNsid_mem he]
    revert e
    cases t <;> decide

end Names

end Nsid
