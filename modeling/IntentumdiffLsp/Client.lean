import IntentumdiffLsp.Codec
import IntentumdiffLsp.Foundations.ActionSystem
import Mathlib.Logic.Function.Basic
import Mathlib.Tactic.Simps.Basic

/-!
The client as a system of concurrent calls, the reader task and the transport.
An action is one step between two points where another task may run.
-/

namespace IntentumdiffLsp.Client

open Foundations
open Function
open IntentumdiffLsp.Json
open IntentumdiffLsp.Codec

inductive LspError where
  | connection (msg : String)
  | timeout (msg : String)
  | server (code : Int) (message : String)

def LspError.display : LspError → String
  | .connection msg | .timeout msg => msg
  | .server code message => s!"LSP error {code}: {message}"

abbrev Outcome := Except LspError Value

/-- A result that only a message from the server can give. -/
def FromServer : Outcome → Prop
  | .ok _ => True
  | .error (.server _ _) => True
  | .error _ => False

/-- The numeric id by which a message is routed. -/
def messageId (msg : Value) : Option Int :=
  (msg.get "id").bind Value.asI64

/-- What a message tells the request it is routed to. -/
def messageOutcome (msg : Value) : Outcome :=
  match msg.get "error" with
  | some err => .error (.server
      (((err.get "code").bind Value.asI64).getD 0)
      (((err.get "message").bind Value.asStr).getD ""))
  | none => .ok ((msg.get "result").getD .null)

inductive Call where
  | request (method : String) (params : Value)
  | notification (method : String) (params : Value)

def Call.method : Call → String
  | .request method _ | .notification method _ => method

/-- The calls made on one client, and the texts its errors are formatted with:
the debug form of a string and of the configured timeout. -/
structure Session where
  serde : SerdeJson
  debugStr : String → String
  timeout : String
  calls : Nat → Call

def IsRequest (sess : Session) (c : Nat) : Prop :=
  ∃ method params, sess.calls c = .request method params

namespace Session

def writeTimedOut (sess : Session) (c : Nat) : LspError :=
  .timeout s!"Write timeout sending {sess.debugStr (sess.calls c).method}"

def writeLost (sess : Session) (c : Nat) (e : String) : LspError :=
  .connection s!"LSP connection lost sending {sess.debugStr (sess.calls c).method}: {e}"

def serverClosed (sess : Session) (c : Nat) : LspError :=
  .connection s!"LSP server closed the connection during {sess.debugStr (sess.calls c).method}"

def noResponse (sess : Session) (c : Nat) : LspError :=
  .timeout s!"No response to {sess.debugStr (sess.calls c).method} within {sess.timeout}"

end Session

/-- How far a call has come. -/
inductive Stage where
  | idle
  | idTaken
  | queued
  | writing
  | awaiting
  | failing (error : LspError)
  | expired
  | returned (result : Outcome)

inductive Slot where
  | empty
  | sent (outcome : Outcome)
  | closed

def Slot.close : Slot → Slot
  | .empty => .closed
  | slot => slot

/-- A sender takes effect only while its receiver is alive. -/
def Stage.receives : Stage → Bool
  | .expired | .returned _ => false
  | _ => true

/-- Where the reader task is; `resolving` lies between taking a sender out of the
pending map and sending on it. -/
inductive Reader where
  | reading
  | resolving (c : Nat) (outcome : Outcome)
  | ended
  | cleared

inductive Event where
  | registered (c : Nat) (id : Int)
  | deregistered (id : Int)
  | dispatched (msg : Value)
  | cleared

/-- The calls are numbered. `accepted` counts the bytes of a frame that the
transport took, `inbox` holds the frames in flight from the server, and `log` is
the history of the pending map, which no step reads. -/
structure LspClient where
  nextId : Int
  pending : Int → Option Nat
  writer : Option Nat
  stage : Nat → Stage
  ids : Nat → Int
  slot : Nat → Slot
  accepted : Nat → Nat
  wire : List UInt8
  inbox : List Value
  reader : Reader
  log : List Event

namespace LspClient

def new : LspClient where
  nextId := 1
  pending _ := none
  writer := none
  stage _ := .idle
  ids _ := 0
  slot _ := .empty
  accepted _ := 0
  wire := []
  inbox := []
  reader := .reading
  log := []

def message (sess : Session) (s : LspClient) (c : Nat) : Value :=
  match sess.calls c with
  | .request method params => request method params (s.ids c)
  | .notification method params => notification method params

def frame (sess : Session) (s : LspClient) (c : Nat) : List UInt8 :=
  encodeMessage sess.serde (s.message sess c)

@[simps] def setStage (s : LspClient) (c : Nat) (stage : Stage) : LspClient :=
  { s with stage := update s.stage c stage }

@[simps] def fetchId (s : LspClient) (c : Nat) : LspClient :=
  { s with
    nextId := wrapI64 (s.nextId + 1)
    ids := update s.ids c s.nextId }

def dropSender (s : LspClient) (key : Int) : Nat → Slot :=
  match s.pending key with
  | none => s.slot
  | some c => update s.slot c (s.slot c).close

/-- Inserting drops the sender that was there under the same id. -/
@[simps] def insertPending (s : LspClient) (c : Nat) : LspClient :=
  { s with
    pending := update s.pending (s.ids c) (some c)
    slot := s.dropSender (s.ids c)
    log := s.log ++ [.registered c (s.ids c)] }

@[simps] def removePending (s : LspClient) (c : Nat) : LspClient :=
  { s with
    pending := update s.pending (s.ids c) none
    slot := s.dropSender (s.ids c)
    log := s.log ++ [.deregistered (s.ids c)] }

/-- The sender of a call is only ever inserted under the id of that call. -/
@[simps] def clearPending (s : LspClient) : LspClient :=
  { s with
    pending := fun _ => none
    slot := fun c => if s.pending (s.ids c) = some c then (s.slot c).close else s.slot c
    log := s.log ++ [.cleared]
    reader := .cleared }

@[simps] def acquire (s : LspClient) (c : Nat) : LspClient :=
  { s with writer := some c }

@[simps] def release (s : LspClient) : LspClient :=
  { s with writer := none }

/-- The transport takes the next `n` bytes of a frame. -/
@[simps] def transmit (sess : Session) (s : LspClient) (c n : Nat) : LspClient :=
  { s with
    wire := s.wire ++ ((s.frame sess c).drop (s.accepted c)).take n
    accepted := update s.accepted c (s.accepted c + n) }

def afterWrite (sess : Session) (c : Nat) : Stage :=
  match sess.calls c with
  | .request _ _ => .awaiting
  | .notification _ _ => .returned (.ok .null)

def afterFailure (sess : Session) (c : Nat) (error : LspError) : Stage :=
  match sess.calls c with
  | .request _ _ => .failing error
  | .notification _ _ => .returned (.error error)

/-- The frame at the front of the inbox is routed by its id alone. -/
def dispatchMessage (s : LspClient) (msg : Value) (rest : List Value) : LspClient :=
  match messageId msg with
  | none => { s with inbox := rest, log := s.log ++ [.dispatched msg] }
  | some id =>
      match s.pending id with
      | none => { s with inbox := rest, log := s.log ++ [.dispatched msg] }
      | some c =>
          { s with
            inbox := rest
            log := s.log ++ [.dispatched msg]
            pending := update s.pending id none
            reader := .resolving c (messageOutcome msg) }

@[simps] def resolve (s : LspClient) (c : Nat) (outcome : Outcome) : LspClient :=
  { s with
    slot := if (s.stage c).receives then update s.slot c (.sent outcome) else s.slot
    reader := .reading }

end LspClient

inductive Action where
  | takeId (c : Nat)
  | notify (c : Nat)
  | register (c : Nat)
  | lock (c : Nat)
  | accept (c n : Nat)
  | flushed (c : Nat)
  | writeTimeout (c : Nat)
  | writeError (c : Nat) (e : String)
  | expire (c : Nat)
  | receive (c : Nat)
  | unregister (c : Nat)
  | arrive (msg : Value)
  | dispatch
  | resolve
  | stop
  | clear

open LspClient

def step (sess : Session) (s : LspClient) : Action → Option LspClient
  -- `send_request`: fetch_add, then the insertion under the lock of the map
  | .takeId c =>
      match sess.calls c, s.stage c with
      | .request _ _, .idle => some ((s.fetchId c).setStage c .idTaken)
      | _, _ => none
  | .register c =>
      match s.stage c with
      | .idTaken => some ((s.insertPending c).setStage c .queued)
      | _ => none
  -- `send_notification` goes straight to `write_frame`
  | .notify c =>
      match sess.calls c, s.stage c with
      | .notification _ _, .idle => some (s.setStage c .queued)
      | _, _ => none
  -- `write_frame`: the lock, `write_all` and `flush` under a timeout
  | .lock c =>
      match s.stage c, s.writer with
      | .queued, none => some ((s.acquire c).setStage c .writing)
      | _, _ => none
  | .accept c n =>
      match s.stage c with
      | .writing =>
          if 0 < n ∧ s.accepted c + n ≤ (s.frame sess c).length then some (s.transmit sess c n)
          else none
      | _ => none
  | .flushed c =>
      match s.stage c with
      | .writing =>
          if s.accepted c = (s.frame sess c).length then
            some (s.release.setStage c (afterWrite sess c))
          else none
      | _ => none
  | .writeTimeout c =>
      match s.stage c with
      | .writing => some (s.release.setStage c (afterFailure sess c (sess.writeTimedOut c)))
      | _ => none
  | .writeError c e =>
      match s.stage c with
      | .writing => some (s.release.setStage c (afterFailure sess c (sess.writeLost c e)))
      | _ => none
  -- the receiver is polled before the timer
  | .expire c =>
      match s.stage c, s.slot c with
      | .awaiting, .empty => some (s.setStage c .expired)
      | _, _ => none
  | .receive c =>
      match s.stage c, s.slot c with
      | .awaiting, .sent outcome => some (s.setStage c (.returned outcome))
      | .awaiting, .closed => some (s.setStage c (.returned (.error (sess.serverClosed c))))
      | _, _ => none
  | .unregister c =>
      match s.stage c with
      | .failing error => some ((s.removePending c).setStage c (.returned (.error error)))
      | .expired => some ((s.removePending c).setStage c (.returned (.error (sess.noResponse c))))
      | _ => none
  -- `read_loop` and `dispatch_message`
  | .arrive msg => some { s with inbox := s.inbox ++ [msg] }
  | .dispatch =>
      match s.reader, s.inbox with
      | .reading, msg :: rest => some (s.dispatchMessage msg rest)
      | _, _ => none
  | .resolve =>
      match s.reader with
      | .resolving c outcome => some (s.resolve c outcome)
      | _ => none
  | .stop =>
      match s.reader with
      | .reading => some { s with reader := .ended }
      | _ => none
  | .clear =>
      match s.reader with
      | .ended => some s.clearPending
      | _ => none

def client (sess : Session) : ActionSystem LspClient Action where
  init := .new
  step := step sess

/-- What a step can do, with its guards. -/
inductive Step (sess : Session) (s : LspClient) : Action → LspClient → Prop
  | takeId {c method params} (call : sess.calls c = .request method params)
      (stage : s.stage c = .idle) :
      Step sess s (.takeId c) ((s.fetchId c).setStage c .idTaken)
  | register {c} (stage : s.stage c = .idTaken) :
      Step sess s (.register c) ((s.insertPending c).setStage c .queued)
  | notify {c method params} (call : sess.calls c = .notification method params)
      (stage : s.stage c = .idle) : Step sess s (.notify c) (s.setStage c .queued)
  | lock {c} (stage : s.stage c = .queued) (free : s.writer = none) :
      Step sess s (.lock c) ((s.acquire c).setStage c .writing)
  | accept {c n} (stage : s.stage c = .writing) (pos : 0 < n)
      (fits : s.accepted c + n ≤ (s.frame sess c).length) :
      Step sess s (.accept c n) (s.transmit sess c n)
  | flushed {c} (stage : s.stage c = .writing)
      (complete : s.accepted c = (s.frame sess c).length) :
      Step sess s (.flushed c) (s.release.setStage c (afterWrite sess c))
  | writeTimeout {c} (stage : s.stage c = .writing) :
      Step sess s (.writeTimeout c)
        (s.release.setStage c (afterFailure sess c (sess.writeTimedOut c)))
  | writeError {c e} (stage : s.stage c = .writing) :
      Step sess s (.writeError c e)
        (s.release.setStage c (afterFailure sess c (sess.writeLost c e)))
  | expire {c} (stage : s.stage c = .awaiting) (slot : s.slot c = .empty) :
      Step sess s (.expire c) (s.setStage c .expired)
  | receive {c outcome} (stage : s.stage c = .awaiting) (slot : s.slot c = .sent outcome) :
      Step sess s (.receive c) (s.setStage c (.returned outcome))
  | receiveClosed {c} (stage : s.stage c = .awaiting) (slot : s.slot c = .closed) :
      Step sess s (.receive c) (s.setStage c (.returned (.error (sess.serverClosed c))))
  | unregisterFailed {c error} (stage : s.stage c = .failing error) :
      Step sess s (.unregister c) ((s.removePending c).setStage c (.returned (.error error)))
  | unregisterExpired {c} (stage : s.stage c = .expired) :
      Step sess s (.unregister c)
        ((s.removePending c).setStage c (.returned (.error (sess.noResponse c))))
  | arrive {msg} : Step sess s (.arrive msg) { s with inbox := s.inbox ++ [msg] }
  | dispatch {msg rest} (reader : s.reader = .reading) (inbox : s.inbox = msg :: rest) :
      Step sess s .dispatch (s.dispatchMessage msg rest)
  | resolve {c outcome} (reader : s.reader = .resolving c outcome) :
      Step sess s .resolve (s.resolve c outcome)
  | stop (reader : s.reader = .reading) : Step sess s .stop { s with reader := .ended }
  | clear (reader : s.reader = .ended) : Step sess s .clear s.clearPending

theorem step_iff {sess : Session} {s s' : LspClient} {a : Action} :
    step sess s a = some s' ↔ Step sess s a s' := by
  constructor
  · intro h
    cases a
    all_goals
      simp only [step] at h
      (repeat' split at h) <;> cases h
    all_goals first
      | exact .takeId ‹_› ‹_›
      | exact .register ‹_›
      | exact .notify ‹_› ‹_›
      | exact .lock ‹_› ‹_›
      | exact .accept ‹_› (And.left ‹_›) (And.right ‹_›)
      | exact .flushed ‹_› ‹_›
      | exact .writeTimeout ‹_›
      | exact .writeError ‹_›
      | exact .expire ‹_› ‹_›
      | exact .receive ‹_› ‹_›
      | exact .receiveClosed ‹_› ‹_›
      | exact .unregisterFailed ‹_›
      | exact .unregisterExpired ‹_›
      | exact .arrive
      | exact .dispatch ‹_› ‹_›
      | exact .resolve ‹_›
      | exact .stop ‹_›
      | exact .clear ‹_›
  · intro h
    cases h <;> simp_all [step]

section Steps

variable {sess : Session} {s s' : LspClient} {a : Action}

theorem dispatchMessage_unrouted {msg : Value} (h : (messageId msg).bind s.pending = none)
    (rest : List Value) :
    s.dispatchMessage msg rest =
      { s with inbox := rest, log := s.log ++ [.dispatched msg] } := by
  unfold dispatchMessage
  split
  · rfl
  · rename_i id hid
    rw [hid, Option.bind_some] at h
    rw [h]

theorem dispatchMessage_routed {msg : Value} {id : Int} {c : Nat} (hid : messageId msg = some id)
    (hpending : s.pending id = some c) (rest : List Value) :
    s.dispatchMessage msg rest =
      { s with
        inbox := rest
        log := s.log ++ [.dispatched msg]
        pending := update s.pending id none
        reader := .resolving c (messageOutcome msg) } := by
  unfold dispatchMessage
  simp only [hid, hpending]

variable (s) (msg : Value) (rest : List Value)

theorem dispatchMessage_cases :
    (messageId msg).bind s.pending = none ∨
      ∃ id c, messageId msg = some id ∧ s.pending id = some c := by
  rcases hroute : (messageId msg).bind s.pending with _ | c
  · exact .inl rfl
  · obtain ⟨id, hid, hpending⟩ := Option.bind_eq_some_iff.mp hroute
    exact .inr ⟨id, c, hid, hpending⟩

theorem dispatchMessage_log :
    (s.dispatchMessage msg rest).log = s.log ++ [.dispatched msg] := by
  rcases dispatchMessage_cases s msg with h | ⟨id, c, hid, hpending⟩
  · rw [dispatchMessage_unrouted h]
  · rw [dispatchMessage_routed hid hpending]

theorem dispatchMessage_ids : (s.dispatchMessage msg rest).ids = s.ids := by
  rcases dispatchMessage_cases s msg with h | ⟨id, c, hid, hpending⟩
  · rw [dispatchMessage_unrouted h]
  · rw [dispatchMessage_routed hid hpending]

theorem dispatchMessage_stage : (s.dispatchMessage msg rest).stage = s.stage := by
  rcases dispatchMessage_cases s msg with h | ⟨id, c, hid, hpending⟩
  · rw [dispatchMessage_unrouted h]
  · rw [dispatchMessage_routed hid hpending]

theorem dispatchMessage_slot : (s.dispatchMessage msg rest).slot = s.slot := by
  rcases dispatchMessage_cases s msg with h | ⟨id, c, hid, hpending⟩
  · rw [dispatchMessage_unrouted h]
  · rw [dispatchMessage_routed hid hpending]

theorem dispatchMessage_accepted :
    (s.dispatchMessage msg rest).accepted = s.accepted := by
  rcases dispatchMessage_cases s msg with h | ⟨id, c, hid, hpending⟩
  · rw [dispatchMessage_unrouted h]
  · rw [dispatchMessage_routed hid hpending]

theorem dispatchMessage_writer :
    (s.dispatchMessage msg rest).writer = s.writer := by
  rcases dispatchMessage_cases s msg with h | ⟨id, c, hid, hpending⟩
  · rw [dispatchMessage_unrouted h]
  · rw [dispatchMessage_routed hid hpending]

theorem dispatchMessage_pending (key : Int) :
    (s.dispatchMessage msg rest).pending key =
      if messageId msg = some key then none else s.pending key := by
  rcases dispatchMessage_cases s msg with h | ⟨id, c, hid, hpending⟩
  · rw [dispatchMessage_unrouted h]
    split
    · rename_i hkey
      rwa [hkey, Option.bind_some] at h
    · rfl
  · rw [dispatchMessage_routed hid hpending]
    simp only [update_apply, hid, Option.some.injEq, eq_comm]

theorem dispatchMessage_reader :
    (s.dispatchMessage msg rest).reader =
      match (messageId msg).bind s.pending with
      | some c => .resolving c (messageOutcome msg)
      | none => s.reader := by
  rcases dispatchMessage_cases s msg with h | ⟨id, c, hid, hpending⟩
  · rw [dispatchMessage_unrouted h, h]
  · rw [dispatchMessage_routed hid hpending, hid, Option.bind_some, hpending]

variable {s}

theorem Step.log_isPrefix (h : Step sess s a s') : s.log <+: s'.log := by
  cases h with
  | dispatch =>
      rw [dispatchMessage_log]
      exact List.prefix_append _ _
  | register | unregisterFailed | unregisterExpired | clear => exact List.prefix_append _ _
  | _ => exact List.prefix_refl _

/-- An id, once taken, is kept. -/
theorem Step.ids_eq (h : Step sess s a s') {c : Nat} (hc : s.stage c ≠ .idle) :
    s'.ids c = s.ids c := by
  cases h with
  | @takeId c' method params call stage =>
      have hne : c ≠ c' := by
        rintro rfl
        exact hc stage
      simp [hne]
  | dispatch => rw [dispatchMessage_ids]
  | _ => rfl

theorem afterFailure_cases (sess : Session) (c : Nat) (error : LspError) :
    (IsRequest sess c ∧ afterFailure sess c error = .failing error) ∨
      (¬IsRequest sess c ∧ afterFailure sess c error = .returned (.error error)) := by
  unfold afterFailure IsRequest
  rcases sess.calls c with ⟨method, params⟩ | ⟨method, params⟩ <;> simp

theorem afterWrite_cases (sess : Session) (c : Nat) :
    (IsRequest sess c ∧ afterWrite sess c = .awaiting) ∨
      (¬IsRequest sess c ∧ afterWrite sess c = .returned (.ok .null)) := by
  unfold afterWrite IsRequest
  rcases sess.calls c with ⟨method, params⟩ | ⟨method, params⟩ <;> simp

/-- The actions that make a frame fail, with the error they give. -/
inductive WriteFailure (sess : Session) (c : Nat) : Action → LspError → Prop
  | timeout : WriteFailure sess c (.writeTimeout c) (sess.writeTimedOut c)
  | lost (e : String) : WriteFailure sess c (.writeError c e) (sess.writeLost c e)

theorem WriteFailure.not_fromServer {c : Nat} {error : LspError}
    (h : WriteFailure sess c a error) : ¬FromServer (.error error) := by
  cases h <;> exact not_false

/-- What an action can do to the stage of a call. -/
inductive Moves (sess : Session) (s : LspClient) (c : Nat) : Action → Stage → Prop
  | taken (request : IsRequest sess c) (stage : s.stage c = .idle) :
      Moves sess s c (.takeId c) .idTaken
  | registered (stage : s.stage c = .idTaken) : Moves sess s c (.register c) .queued
  | notified (request : ¬IsRequest sess c) (stage : s.stage c = .idle) :
      Moves sess s c (.notify c) .queued
  | locked (stage : s.stage c = .queued) (free : s.writer = none) :
      Moves sess s c (.lock c) .writing
  | written (stage : s.stage c = .writing) (request : IsRequest sess c) :
      Moves sess s c (.flushed c) .awaiting
  | sent (stage : s.stage c = .writing) (request : ¬IsRequest sess c) :
      Moves sess s c (.flushed c) (.returned (.ok .null))
  | failing {a error} (stage : s.stage c = .writing) (request : IsRequest sess c)
      (cause : WriteFailure sess c a error) : Moves sess s c a (.failing error)
  | lost {a error} (stage : s.stage c = .writing) (request : ¬IsRequest sess c)
      (cause : WriteFailure sess c a error) : Moves sess s c a (.returned (.error error))
  | expired (stage : s.stage c = .awaiting) (slot : s.slot c = .empty) :
      Moves sess s c (.expire c) .expired
  | answered {outcome} (stage : s.stage c = .awaiting) (slot : s.slot c = .sent outcome) :
      Moves sess s c (.receive c) (.returned outcome)
  | closed (stage : s.stage c = .awaiting) (slot : s.slot c = .closed) :
      Moves sess s c (.receive c) (.returned (.error (sess.serverClosed c)))
  | failed {error} (stage : s.stage c = .failing error) :
      Moves sess s c (.unregister c) (.returned (.error error))
  | timedOut (stage : s.stage c = .expired) :
      Moves sess s c (.unregister c) (.returned (.error (sess.noResponse c)))

theorem moves_afterWrite {c : Nat} (stage : s.stage c = .writing) :
    Moves sess s c (.flushed c) (afterWrite sess c) := by
  rcases afterWrite_cases sess c with ⟨hrequest, hstage⟩ | ⟨hrequest, hstage⟩
  · rw [hstage]
    exact .written stage hrequest
  · rw [hstage]
    exact .sent stage hrequest

theorem moves_afterFailure {c : Nat} {error : LspError} (stage : s.stage c = .writing)
    (cause : WriteFailure sess c a error) : Moves sess s c a (afterFailure sess c error) := by
  rcases afterFailure_cases sess c error with ⟨hrequest, hstage⟩ | ⟨hrequest, hstage⟩
  · rw [hstage]
    exact .failing stage hrequest cause
  · rw [hstage]
    exact .lost stage hrequest cause

theorem Step.stage_moves (h : Step sess s a s') (c : Nat) :
    s'.stage c = s.stage c ∨ Moves sess s c a (s'.stage c) := by
  have hupdate : ∀ c' stage, Moves sess s c' a stage →
      update s.stage c' stage c = s.stage c ∨ Moves sess s c a (update s.stage c' stage c) := by
    intro c' stage hmoves
    rw [update_apply]
    split
    · rename_i heq
      rw [heq]
      exact .inr hmoves
    · exact .inl rfl
  cases h with
  | takeId call stage => exact hupdate _ _ (.taken ⟨_, _, call⟩ stage)
  | register stage => exact hupdate _ _ (.registered stage)
  | notify call stage => exact hupdate _ _ (.notified (by simp [IsRequest, call]) stage)
  | lock stage free => exact hupdate _ _ (.locked stage free)
  | flushed stage => exact hupdate _ _ (moves_afterWrite stage)
  | writeTimeout stage => exact hupdate _ _ (moves_afterFailure stage .timeout)
  | writeError stage => exact hupdate _ _ (moves_afterFailure stage (.lost _))
  | expire stage slot => exact hupdate _ _ (.expired stage slot)
  | receive stage slot => exact hupdate _ _ (.answered stage slot)
  | receiveClosed stage slot => exact hupdate _ _ (.closed stage slot)
  | unregisterFailed stage => exact hupdate _ _ (.failed stage)
  | unregisterExpired stage => exact hupdate _ _ (.timedOut stage)
  | dispatch =>
      rw [dispatchMessage_stage]
      exact .inl rfl
  | accept | arrive | resolve | stop | clear => exact .inl rfl

def Stage.isRegistered : Stage → Bool
  | .idle | .idTaken => false
  | _ => true

theorem not_idle_of_registered {stage : Stage} (h : stage.isRegistered = true) :
    stage ≠ .idle := by
  rintro rfl
  cases h

theorem Moves.registered_stage {c : Nat} {stage : Stage} (h : Moves sess s c a stage)
    (hc : (s.stage c).isRegistered = true) : stage.isRegistered = true := by
  cases h with
  | taken _ stage =>
      rw [stage] at hc
      cases hc
  | _ => rfl

theorem Step.registered_stage (h : Step sess s a s') {c : Nat}
    (hc : (s.stage c).isRegistered = true) : (s'.stage c).isRegistered = true := by
  rcases h.stage_moves c with hsame | hmoves
  · rwa [hsame]
  · exact hmoves.registered_stage hc

end Steps

def shutdownText : String :=
  "\x7b\"id\":1,\"jsonrpc\":\"2.0\",\"method\":\"shutdown\",\"params\":null\x7d"

def exitText : String :=
  "\x7b\"jsonrpc\":\"2.0\",\"method\":\"exit\",\"params\":null\x7d"

/-- JSON cut down to the two messages of `shutdown`. -/
def closingJson : SerdeJson where
  toString v := if (v.get "id").isSome then shutdownText else exitText
  fromSlice body :=
    if body = Utf8.encode shutdownText.toList then some (request "shutdown" .null 1)
    else if body = Utf8.encode exitText.toList then some (notification "exit" .null)
    else none
  toString_size v := by
    split <;> decide
  fromSlice_empty := by
    rw [if_neg (by decide), if_neg (by decide)]

def closing : Session where
  serde := closingJson
  debugStr s := "\"" ++ s ++ "\""
  timeout := "10s"
  calls
    | 0 => .request "shutdown" .null
    | _ => .notification "exit" .null

end IntentumdiffLsp.Client
