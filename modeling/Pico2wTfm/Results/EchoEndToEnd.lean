import Pico2wTfm.Echo.Client

/-!
# Results — EchoEndToEnd

What a client of the echo service gets, whoever else uses it.  The service takes whole messages,
one at a time, and answers each from its own bytes; so a call of the wrapper is atomic for the
caller, although it is three messages and anything may happen between them.

* `Agrees`, kept by every step: a call that is over has the result of its own arguments;
* `echo_end_to_end`: every call in every run, and every message of a client without the wrapper.
-/

namespace Echo
open Bytes Partition

/-- The result of a call that is let through: the data, at the start of the output buffer. -/
structure Echoed (a : Call) (r : Result) : Prop where
  status : r.status = psaSuccess
  outSize : r.outSize = some a.dataLen
  outData : ∃ d o, a.data = some d ∧ a.outData = some o ∧
    r.outData = some (d.take a.dataLen ++ o.drop a.dataLen)

/-- What a client has got so far agrees with its arguments. -/
def Phase.Agrees : Phase → Prop
  | .idle => True
  | .connecting a | .calling a => a.Accepted
  | .closing a r => a.Accepted ∧ Echoed a r
  | .done a r => (a.Accepted → Echoed a r) ∧ (¬a.Accepted → r = a.refused)

section Wrapper

variable {a : Call}

theorem tfmEchoService_agrees (a : Call) : (tfmEchoService a).Agrees := by
  rw [tfmEchoService]
  by_cases hnull : a.HasNull
  · rw [if_pos hnull]
    exact ⟨fun h => absurd hnull h.null, fun _ => rfl⟩
  by_cases hsize : a.BadSize
  · rw [if_neg hnull, if_pos hsize]
    exact ⟨fun h => absurd hsize h.size, fun _ => rfl⟩
  · rw [if_neg hnull, if_neg hsize]
    exact ⟨hnull, hsize⟩

/-- The service echoes the message of a wrapper. -/
theorem deliver_call {C : Type} (S : System C) (h : a.Accepted) (handle : Int) :
    replyStatus (S.deliver (a.msg handle)).service.trace = some psaSuccess ∧
      written (S.deliver (a.msg handle)).service.trace = (a.msg handle).inVec := by
  obtain ⟨hmax, hroom⟩ := h.msg_fits handle
  have hecho : echoed (.full (a.msg handle)) (a.msg handle) =
      (psaSuccess, [.read handle (a.msg handle).inSize (a.msg handle).inSize,
        .write handle (a.msg handle).inVec]) := by
    have hread : ¬(Delivery.full (a.msg handle)).readLen < (a.msg handle).inSize := lt_irrefl _
    rw [echoed, if_neg (not_lt.mpr hmax), if_neg (not_lt.mpr hroom), if_neg hread]
    rfl
  have htrace : (S.deliver (a.msg handle)).service.trace = _ := serve_trace _ _ S.service
  have hget : ¬(Delivery.full (a.msg handle)).get ≠ psaSuccess := not_not.mpr rfl
  have ht : (a.msg handle).type = psaIpcCall := rfl
  rw [htrace, round, if_neg hget, if_pos ht, hecho]
  exact ⟨rfl, List.append_nil _⟩

/-- What the framework makes of an echo is the result of the call. -/
theorem echoed_result (h : a.Accepted) (handle : Int) :
    Echoed a (a.result psaSuccess (a.msg handle).inVec) := by
  obtain ⟨d, o, n, hd, ho, hn, hlen, -⟩ := h.exists_pointers
  have hin : (a.msg handle).inVec.length = a.dataLen := h.inSize_msg handle
  have hvec : (a.msg handle).inVec = d.take a.dataLen := by
    rw [Call.msg, hd, Option.getD_some]
  refine ⟨rfl, ?_, d, o, hd, ho, ?_⟩
  · rw [Call.result, if_pos rfl, hn, Option.map_some, hin]
  · rw [Call.result, ho, Option.map_some, hin, hvec]

end Wrapper

section System

variable {C : Type} [DecidableEq C] {S S' : System C} {c d : C}

theorem set_agrees {p : Phase} (h : ∀ d, (S.client d).Agrees) (hp : p.Agrees) :
    ∀ d, ((S.set c p).client d).Agrees := by
  intro d
  by_cases hd : d = c
  · rw [show (S.set c p).client d = p from if_pos hd]
    exact hp
  · rw [show (S.set c p).client d = S.client d from if_neg hd]
    exact h d

/-- **One step** keeps every client in agreement with its call. -/
theorem step_agrees {i : Act C} (e : step S i = some S') (h : ∀ d, (S.client d).Agrees) :
    ∀ d, (S'.client d).Agrees := by
  cases i with
  | raw f msg =>
      obtain rfl := Option.some.inj e
      exact h
  | start c a =>
      rw [step] at e
      cases hc : S.client c with
      | idle =>
          rw [hc] at e
          obtain rfl := Option.some.inj e
          exact set_agrees h (tfmEchoService_agrees a)
      | done a' r =>
          rw [hc] at e
          obtain rfl := Option.some.inj e
          exact set_agrees h (tfmEchoService_agrees a)
      | connecting a' => rw [hc] at e; cases e
      | calling a' => rw [hc] at e; cases e
      | closing a' r => rw [hc] at e; cases e
  | next c handle =>
      have hp := h c
      rw [step] at e
      cases hc : S.client c with
      | idle => rw [hc] at e; cases e
      | done a r => rw [hc] at e; cases e
      | connecting a =>
          rw [hc] at e hp
          obtain rfl := Option.some.inj e
          exact set_agrees (S := S.deliver _) h hp
      | calling a =>
          rw [hc] at e hp
          obtain ⟨status, hstatus, rfl⟩ := Option.map_eq_some_iff.mp e
          obtain ⟨hs, hw⟩ := deliver_call S hp handle
          cases Option.some.inj (hstatus.symm.trans hs)
          rw [hw]
          exact set_agrees (S := S.deliver _) h ⟨hp, echoed_result hp handle⟩
      | closing a r =>
          rw [hc] at e hp
          obtain rfl := Option.some.inj e
          exact set_agrees (S := S.deliver _) h ⟨fun _ => hp.2, fun hn => absurd hp.1 hn⟩

/-- The message a client is about to send is always taken, and is one fewer to send. -/
theorem next_enabled (h : ∀ d, (S.client d).Agrees) (hc : (S.client c).toSend ≠ 0) (handle : Int) :
    ∃ S', step S (.next c handle) = some S' ∧
      (S'.client c).toSend + 1 = (S.client c).toSend := by
  have hp := h c
  rw [step]
  cases hphase : S.client c with
  | idle => rw [hphase] at hc; exact absurd rfl hc
  | done a r => rw [hphase] at hc; exact absurd rfl hc
  | connecting a => exact ⟨_, rfl, congrArg (fun p : Phase => p.toSend + 1) (if_pos rfl)⟩
  | closing a r => exact ⟨_, rfl, congrArg (fun p : Phase => p.toSend + 1) (if_pos rfl)⟩
  | calling a =>
      rw [hphase] at hp
      obtain ⟨hs, -⟩ := deliver_call S hp handle
      exact ⟨_, Option.map_eq_some_iff.mpr ⟨_, hs, rfl⟩,
        congrArg (fun p : Phase => p.toSend + 1) (if_pos rfl)⟩

/-- Nobody else changes what a client has still to send. -/
theorem step_other {i : Act C} (e : step S i = some S') (hi : ∀ a, i ≠ .start c a)
    (hn : ∀ handle, i ≠ .next c handle) : S'.client c = S.client c := by
  have keep : ∀ {T : System C} {d : C} {p : Phase}, c ≠ d → (T.set d p).client c = T.client c :=
    fun h => if_neg h
  cases i with
  | raw f msg =>
      obtain rfl := Option.some.inj e
      rfl
  | start d a =>
      have hd : c ≠ d := fun h => hi a (by rw [h])
      rw [step] at e
      split at e
      · obtain rfl := Option.some.inj e
        exact keep hd
      · obtain rfl := Option.some.inj e
        exact keep hd
      · cases e
  | next d handle =>
      have hd : c ≠ d := fun h => hn handle (by rw [h])
      rw [step] at e
      split at e
      · obtain rfl := Option.some.inj e
        exact keep hd
      · obtain ⟨status, -, rfl⟩ := Option.map_eq_some_iff.mp e
        exact keep hd
      · obtain rfl := Option.some.inj e
        exact keep hd
      · cases e

end System

/-! ### Any message -/

/-- What a client gets is nothing, or the bytes of its own message. -/
theorem written_round (f : Delivery) (msg : Msg) :
    written (round f msg) = [] ∨ written (round f msg) = msg.inVec := by
  rw [round]
  by_cases hget : f.get ≠ psaSuccess
  · rw [if_pos hget]
    exact Or.inl rfl
  by_cases ht : msg.type = psaIpcCall
  swap
  · rw [if_neg hget, if_neg ht]
    exact Or.inl rfl
  rw [if_neg hget, if_pos ht, echoed]
  by_cases hmax : tfmEchoMaxDataSize < msg.inSize
  · rw [if_pos hmax]
    exact Or.inl rfl
  by_cases hroom : msg.outSize < msg.inSize
  · rw [if_neg hmax, if_pos hroom]
    exact Or.inl rfl
  by_cases hread : f.readLen < msg.inSize
  · rw [if_neg hmax, if_neg hroom, if_pos hread]
    exact Or.inl rfl
  · rw [if_neg hmax, if_neg hroom, if_neg hread]
    exact Or.inr (List.append_nil _)

/-- **The echo service, end to end.**  In every run, from any content of the buffers:
* a call that is over has echoed its data, if the wrapper let it through, and has failed and
  changed nothing otherwise;
* a call that is not over can go on, whatever the others do, and is over after the messages it has
  still to send;
* what any message gets back is a function of that message, and part of it. -/
theorem echo_end_to_end {C : Type} [DecidableEq C] {s : EchoService}
    {h : List (Act C × System C)} {S : System C} (r : Run.Steps step (.start C s) h S) :
    (∀ c a res, S.client c = .done a res →
      (a.Accepted → Echoed a res) ∧ (¬a.Accepted → res = a.refused)) ∧
    (∀ c handle, (S.client c).toSend ≠ 0 → ∃ S', step S (.next c handle) = some S' ∧
      (S'.client c).toSend + 1 = (S.client c).toSend) ∧
    (∀ c i S', step S i = some S' → (∀ a, i ≠ .start c a) → (∀ handle, i ≠ .next c handle) →
      S'.client c = S.client c) ∧
    (∀ f msg s s', (serve f msg s).trace = (serve f msg s').trace ∧
      (written (serve f msg s).trace = [] ∨ written (serve f msg s).trace = msg.inVec)) := by
  have agrees : ∀ c, (S.client c).Agrees :=
    r.invariant (I := fun S => ∀ c, (S.client c).Agrees)
      (fun _ _ _ e hs => step_agrees e hs) fun _ => trivial
  refine ⟨fun c a res hc => ?_, fun c handle hc => next_enabled agrees hc handle,
    fun c i S' e hi hn => step_other e hi hn, fun f msg s s' => ?_⟩
  · have hp := agrees c
    rw [hc] at hp
    exact hp
  · rw [serve_trace, serve_trace]
    exact ⟨rfl, written_round f msg⟩

/-- A call with three bytes of data and five of room. -/
def threeBytes : Call where
  data := some [1, 2, 3]
  dataLen := 3
  outData := some [9, 9, 9, 9, 9]
  outLen := 5
  outSize := some 0
  valid := fun d o hd ho _ _ => by
    cases hd
    cases ho
    exact ⟨le_rfl, le_rfl⟩

/-- That call, with the message of another client between its own. -/
theorem echo_end_to_end_three :
    ∃ (h : List (Act Unit × System Unit)) (S : System Unit) (res : Result),
      Run.Steps step (.start Unit ⟨fun _ => 7, fun _ => 7, []⟩) h S ∧
        S.client () = .done threeBytes res ∧ Echoed threeBytes res ∧
        res.outData = some [1, 2, 3, 9, 9] := by
  have r : Run.Steps step (.start Unit ⟨fun _ => 7, fun _ => 7, []⟩) _ _ :=
    .more (i := .start () threeBytes) rfl <| .more (i := .next () 1) rfl <|
      .more (i := .raw ⟨0, 4⟩ ⟨0, 2, [4, 5, 6, 7], 4⟩) rfl <| .more (i := .next () 3) rfl <|
      .more (i := .next () 4) rfl (.refl _)
  obtain ⟨finished, -⟩ := echo_end_to_end r
  obtain ⟨echoed, -⟩ := finished () threeBytes _ rfl
  exact ⟨_, _, _, r, rfl, echoed ⟨by decide, by decide⟩, rfl⟩

end Echo
