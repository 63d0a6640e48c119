import IntentumdiffLsp.Delivery

namespace IntentumdiffLsp.ServerTraffic

open Foundations
open Foundations.ActionSystem
open Function
open IntentumdiffLsp.Json
open IntentumdiffLsp.Client
open IntentumdiffLsp.Client.LspClient
open IntentumdiffLsp.Correlation
open IntentumdiffLsp.Delivery

def hasMethod (msg : Value) : Bool :=
  ((msg.get "method").bind Value.asStr).isSome

/-- The id of the message is not in use by a request of the client. -/
def Misses (s : LspClient) (msg : Value) : Prop :=
  ∀ id, messageId msg = some id → s.pending id = none

theorem dispatch_unchanged_iff (s : LspClient) (msg : Value) (rest : List Value) :
    ((s.dispatchMessage msg rest).pending = s.pending ∧
      (s.dispatchMessage msg rest).reader = s.reader) ↔ Misses s msg := by
  constructor
  · rintro ⟨hpending, -⟩ id hid
    have hgone := dispatchMessage_pending s msg rest id
    rw [if_pos hid] at hgone
    rw [← hgone, hpending]
  · intro hmisses
    have hroute : (messageId msg).bind s.pending = none := by
      rcases hid : messageId msg with _ | id
      · rfl
      · exact hmisses id hid
    rw [dispatchMessage_unrouted hroute]
    exact ⟨rfl, rfl⟩

/-- No message with a method is dispatched while its id is in use. -/
def Harmless (s : LspClient) (a : Action) : Prop :=
  a = .dispatch → ∀ msg ∈ s.inbox.head?, hasMethod msg = true → Misses s msg

/-- In the history, no message with a method met a sender under its id. -/
def MethodsMissed (log : List Event) : Prop :=
  ∀ front msg back, log = front ++ .dispatched msg :: back → hasMethod msg = true →
    ∀ id, messageId msg = some id → Journal.replay write front id = none

theorem MethodsMissed.append_singleton {log : List Event} {event : Event}
    (h : MethodsMissed log)
    (hevent : ∀ msg, event = .dispatched msg → hasMethod msg = true →
      ∀ id, messageId msg = some id → Journal.replay write log id = none) :
    MethodsMissed (log ++ [event]) := by
  intro front msg back hlog
  rcases List.eq_nil_or_concat' back with rfl | ⟨back, last, rfl⟩
  · obtain ⟨rfl, hlast⟩ := List.append_inj' hlog rfl
    exact hevent msg (List.singleton_inj.mp hlast)
  · have hsplit : log ++ [event] = (front ++ .dispatched msg :: back) ++ [last] := by
      simpa using hlog
    exact h front msg back (List.append_inj' hsplit rfl).1

theorem MethodsMissed.of_append {front back : List Event} (h : MethodsMissed (front ++ back)) :
    MethodsMissed front := by
  rintro front' msg back' rfl
  exact h front' msg (back' ++ back) (by simp)

section Runs

variable {sess : Session} {s s' : LspClient} {a : Action}

theorem methodsMissed_step (hs : Correlated sess s) (hm : MethodsMissed s.log)
    (h : Step sess s a s') (hharmless : Harmless s a) : MethodsMissed s'.log := by
  cases h with
  | register | unregisterFailed | unregisterExpired | clear =>
      exact hm.append_singleton fun msg hmsg => by cases hmsg
  | @dispatch msg rest reader inbox =>
      rw [dispatchMessage_log]
      refine hm.append_singleton fun msg' hmsg hmethod id hid => ?_
      cases hmsg
      rw [← hs.replayed]
      exact hharmless rfl msg (by rw [inbox]; rfl) hmethod id hid
  | _ => exact hm

theorem methodsMissed_of_run {actions : List Action}
    (hrun : (client sess).Run Harmless .new actions s) :
    Correlated sess s ∧ SenderOnce s ∧ MethodsMissed s.log := by
  refine hrun.invariant (P := fun s => Correlated sess s ∧ SenderOnce s ∧ MethodsMissed s.log)
    ⟨correlated_new sess, senderOnce_new, fun front msg back h => by simp [LspClient.new] at h⟩ ?_
  rintro u a u' ⟨hs, ho, hm⟩ hharmless hstep
  have hstep := step_iff.mp hstep
  exact ⟨hs.step hstep, ho.step hs hstep, methodsMissed_step hs hm hstep hharmless⟩

end Runs

def writeResponse : Event → Int → Option (Option Nat)
  | .dispatched msg, key => if hasMethod msg = true then none else write (.dispatched msg) key
  | event, key => write event key

theorem replay_writeResponse {log : List Event} (h : MethodsMissed log) (key : Int) :
    Journal.replay writeResponse log key = Journal.replay write log key := by
  induction log using List.reverseRecOn with
  | nil => rfl
  | append_singleton log event ih =>
      have hlog := ih h.of_append
      rw [Journal.replay_append_singleton, Journal.replay_append_singleton, hlog]
      rcases event with ⟨c, id⟩ | id | msg | _
      · rfl
      · rfl
      · by_cases hmethod : hasMethod msg = true
        · rw [writeResponse, if_pos hmethod, Option.getD_none, write]
          split
          · exact h log msg [] rfl hmethod key ‹_›
          · rfl
        · rw [writeResponse, if_neg hmethod]
      · rfl

/-- Call `c` registered under `id`, and since then neither a message without a
method nor the client itself has touched that id. -/
def AwaitsResponse (log : List Event) (c : Nat) (id : Int) : Prop :=
  ∃ front back, log = front ++ .registered c id :: back ∧
    ∀ event ∈ back, writeResponse event id = none

theorem AwaitsResponse.waiting {log : List Event} {c : Nat} {id : Int}
    (h : AwaitsResponse log c id) (hm : MethodsMissed log) : Waiting log c id := by
  obtain ⟨front, back, rfl, hback⟩ := h
  rw [← replay_write_iff, ← replay_writeResponse hm, Journal.replay_eq_some_iff]
  exact ⟨front, _, back, rfl, by simp [writeResponse, write], hback⟩

theorem AnsweredBy.no_method {log : List Event} (hm : MethodsMissed log) {k c : Nat} {id : Int}
    {msg : Value} (h : AnsweredBy log k c id msg) : hasMethod msg = false := by
  obtain ⟨hid, front, back, rfl, -, hwaiting⟩ := h
  rw [← Bool.not_eq_true]
  intro hmethod
  have hnone := hm front msg back rfl hmethod id hid
  rw [replay_write_iff.mpr hwaiting] at hnone
  cases hnone

/-- A message with a method leaves the pending map and every request alone
exactly when its id is not in use. In runs that keep to this, results of requests
come from messages without a method, and the first of these to bear the id of a
request decides it, whatever else is dispatched in between. -/
theorem server_traffic (sess : Session) :
    (∀ s msg rest, hasMethod msg = true →
      (((s.dispatchMessage msg rest).pending = s.pending ∧
        (s.dispatchMessage msg rest).reader = s.reader) ↔ Misses s msg)) ∧
    ∀ actions s, (client sess).Run Harmless .new actions s →
      (∀ c result, IsRequest sess c → s.stage c = .returned result → FromServer result →
        ∃ k msg, AnsweredBy s.log k c (s.ids c) msg ∧ hasMethod msg = false ∧
          result = messageOutcome msg) ∧
      ∀ c msg rest s', inFlight (s.stage c) = true → AwaitsResponse s.log c (s.ids c) →
        s.inbox = msg :: rest → hasMethod msg = false → messageId msg = some (s.ids c) →
        Client.step sess s .dispatch = some s' →
        ∀ actions' s'', (client sess).Run (Punctual c) s' actions' s'' →
          Owed s'' c (messageOutcome msg) := by
  refine ⟨fun s msg rest _ => dispatch_unchanged_iff s msg rest, ?_⟩
  intro actions s hrun
  obtain ⟨hs, ho, hm⟩ := methodsMissed_of_run hrun
  constructor
  · intro c result hrequest hstage hserver
    obtain ⟨k, msg, hanswered, hresult⟩ := hs.returned c result hstage hserver hrequest
    exact ⟨k, msg, hanswered, AnsweredBy.no_method hm hanswered, hresult⟩
  · intro c msg rest s' hflight hawaits hinbox _ hid hstep actions' s'' hrun'
    have hstep := step_iff.mp hstep
    have hs' := hs.step hstep
    have ho' := ho.step hs hstep
    cases hstep with
    | dispatch reader inbox =>
        cases hinbox.symm.trans inbox
        have howed := owed_of_dispatch hs hflight (hawaits.waiting hm) hid rest
        exact (howed.run hs' ho' hrun').2.2

def configurationRequest : Value :=
  .object [("jsonrpc", .string "2.0"), ("id", .ofI64 1),
    ("method", .string "workspace/configuration"), ("params", .object [("items", .array [])])]

theorem configurationRequest_answers :
    ∃ s s' s'', (client closing).play .new
        [.takeId 0, .register 0, .lock 0, .accept 0 80, .flushed 0,
          .arrive configurationRequest] = some s ∧
      hasMethod configurationRequest = true ∧ s.pending 1 = some 0 ∧
      (client closing).play s [.dispatch] = some s' ∧ s'.pending 1 = none ∧
      (client closing).play s' [.resolve, .receive 0] = some s'' ∧
      s''.stage 0 = .returned (.ok .null) := by
  refine ⟨_, _, _, rfl, by decide, rfl, rfl, rfl, rfl, ?_⟩
  rfl

theorem server_traffic_answeredEarly :
    ∃ s, (client closing).play .new answeredEarly = some s ∧
      ∃ k msg, AnsweredBy s.log k 0 (s.ids 0) msg ∧ hasMethod msg = false ∧
        .ok .null = messageOutcome msg := by
  refine ⟨_, rfl, ?_⟩
  have hmisses : ∀ s msg, hasMethod msg = false → s.inbox = [msg] → Harmless s .dispatch := by
    rintro s msg hmethod hinbox - msg' hmsg hmethod'
    rw [hinbox] at hmsg
    cases hmsg
    rw [hmethod] at hmethod'
    cases hmethod'
  have hrun : (client closing).Run Harmless .new answeredEarly _ :=
    .cons nofun rfl (.cons nofun rfl (.cons nofun rfl (.cons nofun rfl (.cons nofun rfl
      (.cons (hmisses _ _ rfl rfl) rfl (.cons nofun rfl (.cons nofun rfl (.cons nofun rfl
        .start))))))))
  exact ((server_traffic closing).2 answeredEarly _ hrun).1 0 (.ok .null) ⟨_, _, rfl⟩ rfl trivial

end IntentumdiffLsp.ServerTraffic
