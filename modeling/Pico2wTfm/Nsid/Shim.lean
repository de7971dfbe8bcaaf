import Pico2wTfm.Nsid.Manager

/-!
# Nsid — Shim

The TrustZone context functions that the RTOS calls (`tz_shim_layer.c`, with `TFM_NS_MANAGE_NSID`
and `TEST_NS_MANAGE_NSID`), over the NSID manager and the secure side.  The secure side is known by
the calls made to it and what they return; `World` adds to the state of the shim what the other two
parties know: the contexts the secure side holds, and the allocations of the RTOS that are live.

`World.step` is one call of the RTOS.  The secure side never hands out a token that it holds.
-/

namespace Nsid

/-- The static variables of the shim and of the manager. -/
structure Shim where
  table : List NsidTokenPair
  /-- `nsid_mgr_thread_id`, a `uint8_t`. -/
  threadId : Nat
  currentActiveToken : Token
deriving DecidableEq, Repr

def nsidMgrThreadIdMax : Nat := 0xFF
def nsidMgrGroupIdDefault : Nat := 0

/-- A call of the secure side, with what it returned. -/
inductive SecureCall where
  | init (ok : Bool)
  | acquire (groupId threadId : Nat) (token : Token)
  | release (token : Token) (ok : Bool)
  | load (token : Token) (nsid : Int) (ok : Bool)
  | save (token : Token) (ok : Bool)
deriving DecidableEq, Repr

/-- What a function returns, the state it leaves, and the calls it makes. -/
structure Outcome where
  ret : BitVec 32
  shim : Shim
  calls : List SecureCall

section Functions

variable (inv : Token)

/-- `TZ_InitContextSystem_S`. -/
def tzInitContextSystemS (ok : Bool) (s : Shim) : Outcome :=
  if ok = false then ⟨0, s, [.init ok]⟩
  else
    let r := nsidMgrInit inv s.table
    if r.1 = .success then
      ⟨1, { s with table := r.2, currentActiveToken := inv }, [.init ok]⟩
    else ⟨0, { s with table := r.2 }, [.init ok]⟩

/-- `TZ_AllocModuleContext_S`; `token` is what `tfm_nsce_acquire_ctx` returns. -/
def tzAllocModuleContextS (module : BitVec 32) (token : Token) (s : Shim) : Outcome :=
  let nsid := module.toInt
  if nsidMgrThreadIdMax ≤ s.threadId then ⟨0, s, []⟩
  else
    let calls := [.acquire nsidMgrGroupIdDefault s.threadId token]
    let r := nsidMgrAddEntry inv nsid token s.table
    let s := { s with table := r.2, threadId := s.threadId + 1 }
    if r.1 = .success then ⟨token, s, calls⟩ else ⟨0, s, calls⟩

/-- The active token when a context is given up. -/
def Shim.deactivate (s : Shim) : Shim :=
  if s.currentActiveToken ≠ inv then { s with currentActiveToken := inv } else s

/-- `TZ_FreeModuleContext_S`. -/
def tzFreeModuleContextS (id : BitVec 32) (ok : Bool) (s : Shim) : Outcome :=
  let r := nsidMgrRemoveEntry inv id s.table
  let s := { s with table := r.2 }
  if r.1 ≠ .success then ⟨0, s, []⟩
  else if ok then ⟨1, s.deactivate inv, [.release id ok]⟩
  else ⟨0, s, [.release id ok]⟩

/-- `TZ_LoadContext_S`. -/
def tzLoadContextS (id : BitVec 32) (ok : Bool) (s : Shim) : Outcome :=
  let nsid := nsidMgrQueryNsid inv id s.table
  if tfmInvalidNsidMin ≤ nsid then ⟨0, s, []⟩
  else if ok then ⟨1, { s with currentActiveToken := id }, [.load id nsid ok]⟩
  else ⟨0, s, [.load id nsid ok]⟩

/-- `TZ_StoreContext_S`. -/
def tzStoreContextS (id : BitVec 32) (ok : Bool) (s : Shim) : Outcome :=
  if ok then ⟨1, s.deactivate inv, [.save id ok]⟩ else ⟨0, s, [.save id ok]⟩

end Functions

/-- The static variables as they are compiled in, for a table of `n` entries. -/
def Shim.image (n : Nat) : Shim := ⟨List.replicate n ⟨0, 0⟩, 1, 0⟩

/-! ### The calls of the RTOS -/

/-- A call of the RTOS, with what the secure side returns for it.  A context system that is
initialised keeps the contexts `keeps`; `none` is a failing `tfm_nsce_init`. -/
inductive Call where
  | init (keeps : Option (List Token))
  | alloc (module : BitVec 32) (token : Token)
  | free (id : BitVec 32) (ok : Bool)
  | load (id : BitVec 32) (ok : Bool)
  | store (id : BitVec 32) (ok : Bool)
deriving DecidableEq, Repr

/-- The shim, the contexts held on the secure side, and the live allocations: the token and the
NSID each was made with. -/
structure World where
  shim : Shim
  held : List Token
  live : List (Token × Int)
  /-- What the last call did. -/
  last : Outcome

def Call.run (inv : Token) (s : Shim) : Call → Outcome
  | .init keeps => tzInitContextSystemS inv keeps.isSome s
  | .alloc module token => tzAllocModuleContextS inv module token s
  | .free id ok => tzFreeModuleContextS inv id ok s
  | .load id ok => tzLoadContextS inv id ok s
  | .store id ok => tzStoreContextS inv id ok s

/-- A call of `tfm_nsce_acquire_ctx` returns the invalid token or one that is not held. -/
def Call.Fresh (inv : Token) (held : List Token) : Call → Prop
  | .alloc _ token => token = inv ∨ token ∉ held
  | _ => True

instance (inv : Token) (held : List Token) (c : Call) : Decidable (c.Fresh inv held) := by
  unfold Call.Fresh
  split <;> infer_instance

/-- The contexts held after a call to the secure side. -/
def heldAfter (inv : Token) (keeps : Option (List Token)) (held : List Token) : SecureCall →
    List Token
  | .init _ => keeps.getD held
  | .acquire _ _ token => if token = inv then held else token :: held
  | .release token ok => if ok then held.filter (· ≠ token) else held
  | .load _ _ _ | .save _ _ => held

/-- An allocation was made: a context was acquired and entered. -/
def Call.Allocates (inv : Token) (s : Shim) (module : BitVec 32) (token : Token) : Prop :=
  s.threadId < nsidMgrThreadIdMax ∧ (nsidMgrAddEntry inv module.toInt token s.table).1 = .success

instance (inv : Token) (s : Shim) (module : BitVec 32) (token : Token) :
    Decidable (Call.Allocates inv s module token) := inferInstanceAs (Decidable (_ ∧ _))

/-- The live allocations after a call.  A free ends an allocation when it returns 1, and an
initialisation ends all of them when it does. -/
def liveAfter (inv : Token) (s : Shim) (o : Outcome) (live : List (Token × Int)) :
    Call → List (Token × Int)
  | .init _ => if o.ret = 1 then [] else live
  | .alloc module token =>
      if Call.Allocates inv s module token then (token, module.toInt) :: live else live
  | .free id _ => if o.ret = 1 then live.filter fun a => a.1 ≠ id else live
  | .load _ _ | .store _ _ => live

def Call.keeps : Call → Option (List Token)
  | .init keeps => keeps
  | _ => none

/-- One call of the RTOS. -/
def World.step (inv : Token) (w : World) (c : Call) : Option World :=
  if c.Fresh inv w.held then
    let o := c.run inv w.shim
    some ⟨o.shim, o.calls.foldl (heldAfter inv c.keeps) w.held,
      liveAfter inv w.shim o w.live c, o⟩
  else none

/-- The world at reset; the secure side may hold contexts of its own. -/
def World.start (n : Nat) (held : List Token) : World :=
  ⟨.image n, held, [], ⟨0, .image n, []⟩⟩

/-! ### Threads -/

/-- The attributes of a thread as `os_wrapper_thread_new` gives them to `osThreadNew`, which passes
`tz_module` on to `TZ_AllocModuleContext_S`. -/
structure OsThreadAttr where
  name : Option CName
  stackSize : Option Int
  priority : BitVec 32
  tzModule : BitVec 32
deriving DecidableEq, Repr

/-- `os_wrapper_thread_new`, up to the call of `osThreadNew`; `stackSize` is `none` for
`OS_WRAPPER_DEFAULT_STACK_SIZE`. -/
def osWrapperThreadNew (psaApiTestNs : Bool) (name : Option CName) (stackSize : Option Int)
    (priority : BitVec 32) : OsThreadAttr :=
  ⟨name, stackSize, priority, BitVec.ofInt 32 (nsidMgrGetThreadNsid psaApiTestNs name)⟩

end Nsid
