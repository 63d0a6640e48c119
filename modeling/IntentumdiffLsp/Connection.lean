import IntentumdiffLsp.Callers
import IntentumdiffLsp.Foundations.Simulation
import IntentumdiffLsp.Reading

/-!
The client over a stream of bytes: its reader task decodes what it reads, and every
run is one of the client over the messages that are in these bytes.
-/

namespace IntentumdiffLsp.Connection

open Foundations
open Foundations.ActionSystem
open IntentumdiffLsp.Json
open IntentumdiffLsp.Codec
open IntentumdiffLsp.Codec.FrameDecoder
open IntentumdiffLsp.Client
open IntentumdiffLsp.Correlation
open IntentumdiffLsp.Delivery
open IntentumdiffLsp.Wire
open IntentumdiffLsp.Callers
open IntentumdiffLsp.RoundTrip
open IntentumdiffLsp.Reading

/-- The reader task works on the client and on its own loop. The inbox stays empty:
a frame is routed as soon as it is decoded. -/
structure WiredClient where
  client : LspClient
  loop : ReadLoop

inductive Action where
  | call (a : Client.Action)
  | read (chunk : List UInt8)
  | endOfInput
  | pull
  | resolve
  | clear

section Steps

variable (sess : Session) (s : WiredClient)

/-- `read_loop` between two reads. -/
def pulled : WiredClient :=
  let result := s.loop.pull sess.serde 64
  let s := { s with loop := result.2 }
  match result.1 with
  | .ok (some (.frame msg)) => { s with client := s.client.dispatchMessage msg s.client.inbox }
  | .ok (some .malformedFrame) => s
  | .ok none => s
  | .error _ => { s with client := { s.client with reader := .ended } }

def step : Action → Option WiredClient
  | .call a =>
      match caller a with
      | some _ => (Client.step sess s.client a).map fun client => { s with client := client }
      | none => none
  | .read chunk =>
      match s.client.reader with
      | .reading =>
          if s.loop.pulling = false ∧ chunk ≠ [] ∧ chunk.length ≤ chunkSize then
            some { s with loop := s.loop.feed chunk }
          else none
      | _ => none
  | .endOfInput =>
      match s.client.reader with
      | .reading =>
          if s.loop.pulling = false then
            some { s with client := { s.client with reader := .ended } }
          else none
      | _ => none
  | .pull =>
      match s.client.reader with
      | .reading => if s.loop.pulling = true then some (pulled sess s) else none
      | _ => none
  | .resolve =>
      (Client.step sess s.client .resolve).map fun client => { s with client := client }
  | .clear =>
      (Client.step sess s.client .clear).map fun client => { s with client := client }

end Steps

def connection (sess : Session) : ActionSystem WiredClient Action where
  init := { client := .new, loop := .new }
  step := step sess

/-- What a turn of the inner loop can do. -/
inductive Pull (sess : Session) (s : WiredClient) : WiredClient → Prop
  | frame {msg} (result : (s.loop.pull sess.serde 64).1 = .ok (some (.frame msg))) :
      Pull sess s
        { client := s.client.dispatchMessage msg s.client.inbox
          loop := (s.loop.pull sess.serde 64).2 }
  | malformed (result : (s.loop.pull sess.serde 64).1 = .ok (some .malformedFrame)) :
      Pull sess s { s with loop := (s.loop.pull sess.serde 64).2 }
  | drained (result : (s.loop.pull sess.serde 64).1 = .ok none) :
      Pull sess s { s with loop := (s.loop.pull sess.serde 64).2 }
  | fatal {error} (result : (s.loop.pull sess.serde 64).1 = .error error) :
      Pull sess s
        { client := { s.client with reader := .ended }
          loop := (s.loop.pull sess.serde 64).2 }

theorem pulled_cases (sess : Session) (s : WiredClient) : Pull sess s (pulled sess s) := by
  unfold pulled
  dsimp only
  split
  · exact .frame ‹_›
  · exact .malformed ‹_›
  · exact .drained ‹_›
  · exact .fatal ‹_›

/-- What a step can do, with its guards. -/
inductive Step (sess : Session) (s : WiredClient) : Action → WiredClient → Prop
  | call {a client'} {c : Nat} (own : caller a = some c)
      (client : Client.Step sess s.client a client') :
      Step sess s (.call a) { s with client := client' }
  | read {chunk} (reader : s.client.reader = .reading) (idle : s.loop.pulling = false)
      (nonempty : chunk ≠ []) (short : chunk.length ≤ chunkSize) :
      Step sess s (.read chunk) { s with loop := s.loop.feed chunk }
  | endOfInput (reader : s.client.reader = .reading) (idle : s.loop.pulling = false) :
      Step sess s .endOfInput { s with client := { s.client with reader := .ended } }
  | pull {s'} (reader : s.client.reader = .reading) (pulling : s.loop.pulling = true)
      (pull : Pull sess s s') : Step sess s .pull s'
  | resolve {client'} (client : Client.Step sess s.client .resolve client') :
      Step sess s .resolve { s with client := client' }
  | clear {client'} (client : Client.Step sess s.client .clear client') :
      Step sess s .clear { s with client := client' }

theorem step_cases {sess : Session} {s s' : WiredClient} {a : Action}
    (h : step sess s a = some s') : Step sess s a s' := by
  cases a with
  | call a =>
      simp only [step] at h
      split at h
      · obtain ⟨client, hclient, rfl⟩ := Option.map_eq_some_iff.mp h
        exact .call ‹_› (step_iff.mp hclient)
      · cases h
  | read chunk =>
      simp only [step] at h
      split at h
      · split at h <;> cases h
        rename_i hreader hguard
        exact .read hreader hguard.1 hguard.2.1 hguard.2.2
      · cases h
  | endOfInput =>
      simp only [step] at h
      split at h
      · split at h <;> cases h
        exact .endOfInput ‹_› ‹_›
      · cases h
  | pull =>
      simp only [step] at h
      split at h
      · split at h <;> cases h
        exact .pull ‹_› ‹_› (pulled_cases sess s)
      · cases h
  | resolve =>
      obtain ⟨client, hclient, rfl⟩ := Option.map_eq_some_iff.mp h
      exact .resolve (step_iff.mp hclient)
  | clear =>
      obtain ⟨client, hclient, rfl⟩ := Option.map_eq_some_iff.mp h
      exact .clear (step_iff.mp hclient)

def callOf : Action → List Client.Action
  | .call a => [a]
  | _ => []

/-- The actions of the calls are those of the connection; the others are the reader's. -/
def Follows (a : Action) (actions : List Client.Action) : Prop :=
  actions.filter (fun b => (caller b).isSome) = callOf a

def dispatchedOf : Event → Option Value
  | .dispatched msg => some msg
  | _ => none

/-- The messages that the reader task has routed. -/
def dispatched (s : LspClient) : List Value :=
  s.log.filterMap dispatchedOf

/-- The client has routed what its reader task has decoded. -/
structure Keeps (sess : Session) (s : WiredClient) (client : LspClient) : Prop where
  same : client = s.client
  inbox : s.client.inbox = []
  pulled : ∃ events, Pulled sess.serde 64 s.loop events ∧
    dispatched s.client = events.filterMap frameOf
  resolving : ∀ c outcome, s.client.reader = .resolving c outcome → s.loop.pulling = true
  whole : s.client.reader = .reading → s.loop.pulling = false →
    (drain sess.serde 64 (FrameDecoder.new.feed s.loop.received)).result = .ok ()

section Refinement

variable {sess : Session} {s s' : WiredClient} {client : LspClient} {a : Action}

theorem inbox_of_call {client' : LspClient} {b : Client.Action} {c : Nat}
    (h : Client.Step sess client b client') (hown : caller b = some c) :
    client'.inbox = client.inbox ∧ dispatched client' = dispatched client ∧
      client'.reader = client.reader := by
  cases h with
  | arrive | dispatch | resolve | stop | clear => cases hown
  | register | unregisterFailed | unregisterExpired =>
      refine ⟨rfl, ?_, rfl⟩
      exact List.filterMap_append.trans (List.append_nil _)
  | _ => exact ⟨rfl, rfl, rfl⟩

theorem dispatched_dispatchMessage (client : LspClient) (msg : Value) (rest : List Value) :
    dispatched (client.dispatchMessage msg rest) = dispatched client ++ [msg] := by
  rw [dispatched, dispatchMessage_log, List.filterMap_append]
  rfl

theorem inbox_dispatchMessage (client : LspClient) (msg : Value) (rest : List Value) :
    (client.dispatchMessage msg rest).inbox = rest := by
  rcases dispatchMessage_cases client msg with h | ⟨id, c, hid, hpending⟩
  · rw [dispatchMessage_unrouted h]
  · rw [dispatchMessage_routed hid hpending]

theorem keeps_new (sess : Session) : Keeps sess (connection sess).init .new where
  same := rfl
  inbox := rfl
  pulled := ⟨[], pulled_new, rfl⟩
  resolving := nofun
  whole _ _ := by
    rw [show FrameDecoder.new.feed (connection sess).init.loop.received = .new from rfl,
      drain_none sess.serde 64 (nextEvent_done sess.serde 64 rfl)]

theorem Keeps.call {client' : LspClient} {b : Client.Action} {c : Nat}
    (h : Keeps sess s client) (hown : caller b = some c)
    (hstep : Client.Step sess s.client b client') :
    Keeps sess { s with client := client' } client' := by
  obtain ⟨hinbox, hdispatched, hreader⟩ := inbox_of_call hstep hown
  obtain ⟨events, hpulled, hevents⟩ := h.pulled
  refine ⟨rfl, hinbox.trans h.inbox, ⟨events, hpulled, hdispatched.trans hevents⟩, ?_, ?_⟩
  · exact fun c outcome hresolving => h.resolving c outcome (hreader.symm.trans hresolving)
  · exact fun hreading => h.whole (hreader.symm.trans hreading)

variable {cond : LspClient → Client.Action → Prop}

theorem run_single {t t' : LspClient} {b : Client.Action} (hcond : cond t b)
    (hstep : Client.Step sess t b t') : (Client.client sess).Run cond t [b] t' :=
  .cons hcond (step_iff.mpr hstep) .start

variable (hother : ∀ t b, caller b = none → cond t b)
include hother

theorem run_stop (hreader : s.client.reader = .reading) :
    (Client.client sess).Run cond s.client [.stop] { s.client with reader := .ended } :=
  run_single (hother _ _ rfl) (.stop hreader)

/-- A frame arrives and is routed in one go. -/
theorem run_frame (hreader : s.client.reader = .reading) (hinbox : s.client.inbox = [])
    (msg : Value) :
    (Client.client sess).Run cond s.client [.arrive msg, .dispatch]
      (s.client.dispatchMessage msg []) := by
  let arrived : LspClient := { s.client with inbox := s.client.inbox ++ [msg] }
  have harrived : arrived.inbox = [msg] := by
    show s.client.inbox ++ [msg] = [msg]
    rw [hinbox]
    rfl
  have hdispatch : Client.Step sess arrived .dispatch (arrived.dispatchMessage msg []) :=
    .dispatch hreader harrived
  have hsame : arrived.dispatchMessage msg [] = s.client.dispatchMessage msg [] := rfl
  exact Run.append (run_single (hother _ _ rfl) .arrive)
    (hsame ▸ run_single (hother _ _ rfl) hdispatch)

/-- What the reader task decodes and routes, in the steps of the client. -/
theorem Keeps.pull (h : Keeps sess s client) (hreader : s.client.reader = .reading)
    (hpull : Pull sess s s') :
    ∃ actions client', Follows .pull actions ∧
      (Client.client sess).Run cond client actions client' ∧ Keeps sess s' client' := by
  obtain ⟨rfl, hinbox, ⟨events, hpulled, hevents⟩, hresolving, -⟩ := h
  cases hpull with
  | @frame msg result =>
      refine ⟨[.arrive msg, .dispatch], _, rfl, run_frame hother hreader hinbox msg, ?_⟩
      rw [hinbox]
      refine ⟨rfl, inbox_dispatchMessage _ _ _, ⟨_, hpulled.event result, ?_⟩, ?_, ?_⟩
      · rw [dispatched_dispatchMessage, hevents, List.filterMap_append]
        rfl
      · intro _ _ _
        rw [pulling_pull, result]
        rfl
      · intro _ hidle
        rw [pulling_pull, result] at hidle
        cases hidle
  | malformed result =>
      refine ⟨[], s.client, rfl, .start, rfl, hinbox, ⟨_, hpulled.event result, ?_⟩, ?_, ?_⟩
      · rw [hevents, List.filterMap_append]
        exact (List.append_nil _).symm
      · intro _ _ _
        rw [pulling_pull, result]
        rfl
      · intro _ hidle
        rw [pulling_pull, result] at hidle
        cases hidle
  | drained result =>
      refine ⟨[], s.client, rfl, .start, rfl, hinbox,
        ⟨events, hpulled.break (by rw [result]; rfl), hevents⟩, ?_, ?_⟩
      · intro c outcome hcarries
        cases hreader.symm.trans hcarries
      · intro _ _
        exact hpulled.drained result
  | fatal result =>
      exact ⟨[.stop], _, rfl, run_stop hother hreader, rfl, hinbox,
        ⟨events, hpulled.break (by rw [result]; rfl), hevents⟩, nofun, nofun⟩

/-- Every step of the connection is a run of the client. -/
theorem client_simulates (sess : Session) :
    Simulates (connection sess) (Client.client sess)
      (fun s a => ∀ b ∈ callOf a, cond s.client b) cond (Keeps sess) Follows where
  init := keeps_new sess
  step := by
    intro s s' client a hkeeps hcond hstep
    cases step_cases hstep with
    | @call b client' c own hclient =>
        obtain rfl := hkeeps.same
        refine ⟨[b], client', ?_, ?_, hkeeps.call own hclient⟩
        · rw [Follows, List.filter_singleton, own]
          rfl
        · exact run_single (hcond b (List.mem_singleton_self b)) hclient
    | read reader =>
        obtain ⟨hsame, hinbox, ⟨events, hpulled, hevents⟩, hresolving, -⟩ := hkeeps
        exact ⟨[], client, rfl, .start, hsame, hinbox, ⟨events, hpulled.feed _, hevents⟩,
          fun _ _ _ => rfl, fun _ hidle => nomatch hidle⟩
    | endOfInput reader =>
        obtain ⟨rfl, hinbox, hpulled, -, -⟩ := hkeeps
        exact ⟨[.stop], _, rfl, run_stop hother reader, rfl, hinbox, hpulled, nofun, nofun⟩
    | pull reader pulling pull => exact hkeeps.pull hother reader pull
    | resolve hclient =>
        obtain ⟨rfl, hinbox, hpulled, hresolving, -⟩ := hkeeps
        cases hclient with
        | resolve carries =>
            refine ⟨[.resolve], _, rfl, run_single (hother _ _ rfl) (.resolve carries), rfl, hinbox,
              hpulled, nofun, fun _ hidle => ?_⟩
            rw [hresolving _ _ carries] at hidle
            cases hidle
    | clear hclient =>
        obtain ⟨rfl, hinbox, hpulled, -, -⟩ := hkeeps
        cases hclient with
        | clear ended =>
            obtain ⟨events, hpulled, hevents⟩ := hpulled
            refine ⟨[.clear], _, rfl, run_single (hother _ _ rfl) (.clear ended), rfl, hinbox,
              ⟨events, hpulled, ?_⟩, nofun, nofun⟩
            exact (List.filterMap_append.trans (List.append_nil _)).trans hevents

end Refinement

section Runs

variable {sess : Session} {actions : List Action} {s : WiredClient}

theorem keeps_of_run (hrun : (connection sess).Run Anything (connection sess).init actions s) :
    (Client.client sess).Reachable s.client ∧ Keeps sess s s.client := by
  have hsimulates := @client_simulates Anything (fun _ _ _ => trivial) sess
  obtain ⟨client, hreachable, hkeeps⟩ :=
    hsimulates.reachable (hrun.mono fun _ _ _ _ _ => trivial)
  obtain rfl := hkeeps.same
  exact ⟨hreachable, hkeeps⟩

theorem mem_dispatched {client : LspClient} {c : Nat} {outcome : Outcome}
    (h : Answer client c outcome) :
    ∃ msg ∈ dispatched client, messageId msg = some (client.ids c) ∧
      outcome = messageOutcome msg := by
  obtain ⟨k, msg, hanswered, houtcome⟩ := h
  have hmem : .dispatched msg ∈ client.log := List.mem_of_getElem? hanswered.getElem?
  exact ⟨msg, List.mem_filterMap.mpr ⟨_, hmem, rfl⟩, hanswered.1, houtcome⟩

/-- What the other end decodes from the wire. -/
theorem framesOf_wire {client : LspClient} {complete : List Nat}
    (hf : Framed sess client complete)
    (hdeliverable : ∀ c, 0 < client.accepted c → Deliverable sess.serde (client.message sess c)) :
    framesOf sess.serde 64 client.wire = complete.map (client.message sess) := by
  have hdrain := congrArg (List.filterMap frameOf) (hf.drain hdeliverable).1
  rw [List.filterMap_map] at hdrain
  exact hdrain.trans (congrFun List.filterMap_eq_map complete)

end Runs

/-- However the stream is cut into chunks: the messages that are routed are the first ones
in the bytes that have been read, between two reads they are all of them, and as long as the
reader task waits for more these bytes are well framed. A request that returns what the
server said has the outcome of the first message with its id behind its registration, and
this message is in the bytes. -/
theorem connection_correlates (sess : Session) (actions : List Action) (s : WiredClient)
    (hrun : (connection sess).Run Anything (connection sess).init actions s) :
    dispatched s.client <+: framesOf sess.serde 64 s.loop.received ∧
      (s.loop.pulling = false → dispatched s.client = framesOf sess.serde 64 s.loop.received) ∧
      (s.client.reader = .reading → s.loop.pulling = false →
        (drain sess.serde 64 (FrameDecoder.new.feed s.loop.received)).result = .ok ()) ∧
      ∀ c outcome, IsRequest sess c → s.client.stage c = .returned outcome →
        FromServer outcome → Answer s.client c outcome ∧
          ∃ msg ∈ framesOf sess.serde 64 s.loop.received,
            messageId msg = some (s.client.ids c) ∧ outcome = messageOutcome msg := by
  obtain ⟨hreachable, hkeeps⟩ := keeps_of_run hrun
  obtain ⟨events, hpulled, hevents⟩ := hkeeps.pulled
  have hfront : dispatched s.client <+: framesOf sess.serde 64 s.loop.received := by
    rw [hevents]
    exact hpulled.frames_isPrefix
  refine ⟨hfront, fun hidle => hevents.trans (hpulled.frames_eq hidle), hkeeps.whole, ?_⟩
  intro c outcome hrequest hreturned hserver
  have hanswer := (reachable_sound hreachable).1.returned c outcome hreturned hserver hrequest
  obtain ⟨msg, hmem, hid, houtcome⟩ := mem_dispatched hanswer
  exact ⟨hanswer, msg, hfront.subset hmem, hid, houtcome⟩

section Sample

def answeredText : String :=
  "\x7b\"id\":1,\"jsonrpc\":\"2.0\",\"result\":null\x7d"

def shutdownRequest : Value :=
  request "shutdown" .null 1

def shutdownAnswer : Value :=
  .object [("jsonrpc", .string "2.0"), ("id", .ofI64 1), ("result", .null)]

/-- JSON cut down to the request and its answer. -/
def shutdownJson : SerdeJson where
  toString v := if (v.get "result").isSome then answeredText else shutdownText
  fromSlice body :=
    if body = Utf8.encode shutdownText.toList then some shutdownRequest
    else if body = Utf8.encode answeredText.toList then some shutdownAnswer
    else none
  toString_size v := by
    split <;> decide
  fromSlice_empty := by
    rw [if_neg (by decide), if_neg (by decide)]

theorem shutdownRequest_deliverable : Deliverable shutdownJson shutdownRequest := by
  constructor
  · show shutdownJson.fromSlice (Utf8.encode shutdownText.toList) = _
    simp only [shutdownJson, if_true]
  · show (Utf8.encode shutdownText.toList).length ≤ maxBodyBytes
    decide

theorem shutdownAnswer_deliverable : Deliverable shutdownJson shutdownAnswer := by
  constructor
  · have hother : Utf8.encode answeredText.toList ≠ Utf8.encode shutdownText.toList := by decide
    show shutdownJson.fromSlice (Utf8.encode answeredText.toList) = _
    simp only [shutdownJson, if_neg hother, if_true]
  · show (Utf8.encode answeredText.toList).length ≤ maxBodyBytes
    decide

def shutdownCalls : Session where
  serde := shutdownJson
  debugStr s := "\"" ++ s ++ "\""
  timeout := "10s"
  calls := closing.calls

def askingActions : List Action :=
  [.call (.takeId 0), .call (.register 0), .call (.lock 0), .call (.accept 0 80),
    .call (.flushed 0), .read (encodeMessage shutdownJson shutdownAnswer)]

/-- The client that has read the answer. -/
def askedClient : WiredClient :=
  ((connection shutdownCalls).play (connection shutdownCalls).init askingActions).getD
    (connection shutdownCalls).init

/-- The client that has decoded the answer. -/
def routedClient : WiredClient where
  client := askedClient.client.dispatchMessage shutdownAnswer []
  loop := { askedClient.loop with decoder := FrameDecoder.new.feed [], pulling := true }

def returnedClient : WiredClient :=
  ((connection shutdownCalls).play routedClient [.resolve, .call (.receive 0)]).getD routedClient

def shutdownActions : List Action :=
  askingActions ++ .pull :: [.resolve, .call (.receive 0)]

theorem shutdownActions_run : (connection shutdownCalls).Run Anything
    (connection shutdownCalls).init shutdownActions returnedClient := by
  have hasked : (connection shutdownCalls).play (connection shutdownCalls).init askingActions =
      some askedClient := rfl
  have hrouted : (connection shutdownCalls).step askedClient .pull = some routedClient := by
    have hpull : askedClient.loop.pull shutdownCalls.serde 64 =
        (.ok (some (.frame shutdownAnswer)), routedClient.loop) := by
      apply pull_message shutdownAnswer_deliverable
      rw [List.append_nil]
      rfl
    have hreader : askedClient.client.reader = .reading := rfl
    have hpulling : askedClient.loop.pulling = true := rfl
    show Connection.step shutdownCalls askedClient .pull = _
    simp only [Connection.step, hreader, hpulling, if_true]
    rw [pulled, hpull]
    rfl
  have hreturned : (connection shutdownCalls).play routedClient
      [.resolve, .call (.receive 0)] = some returnedClient := rfl
  exact (run_of_play hasked).append (.cons trivial hrouted (run_of_play hreturned))

theorem connection_correlates_shutdown :
    returnedClient.client.stage 0 = .returned (.ok .null) ∧
      ∃ msg ∈ framesOf shutdownJson 64 returnedClient.loop.received,
        messageId msg = some 1 ∧ .ok .null = messageOutcome msg := by
  have h := connection_correlates shutdownCalls shutdownActions returnedClient shutdownActions_run
  exact ⟨rfl, (h.2.2.2 0 (.ok .null) ⟨"shutdown", .null, rfl⟩ rfl trivial).2⟩

end Sample

end IntentumdiffLsp.Connection
