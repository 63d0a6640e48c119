import IntentumdiffLsp.Conversation

/-!
What holds between the two ends: nothing is lost, doubled or taken for something else
on the way to the server and back.
-/

namespace IntentumdiffLsp.EndToEnd

open Foundations.ActionSystem
open IntentumdiffLsp.Json
open IntentumdiffLsp.Codec
open IntentumdiffLsp.Client
open IntentumdiffLsp.Correlation
open IntentumdiffLsp.Delivery
open IntentumdiffLsp.Wire
open IntentumdiffLsp.Callers
open IntentumdiffLsp.RoundTrip
open IntentumdiffLsp.Server
open IntentumdiffLsp.Sessions
open IntentumdiffLsp.Responses
open IntentumdiffLsp.Reading
open IntentumdiffLsp.Process
open IntentumdiffLsp.Serving
open IntentumdiffLsp.Answering
open IntentumdiffLsp.Connection
open IntentumdiffLsp.Conversation

/-- How many requests have been begun. -/
def begun (actions : List Conversation.Action) : Nat :=
  idsTaken (actions.flatMap callsOf)

section Ids

theorem idsTaken_append (front back : List Client.Action) :
    idsTaken (front ++ back) = idsTaken front + idsTaken back :=
  List.countP_append

theorem idsTaken_filter (actions : List Client.Action) :
    idsTaken (actions.filter fun b => (caller b).isSome) = idsTaken actions := by
  rw [idsTaken, idsTaken, List.countP_filter]
  refine List.countP_congr fun a _ => ?_
  cases a <;> simp [caller]

theorem idsTaken_follows {actions : List Conversation.Action} {parts : List (List Client.Action)}
    (h : List.Forall₂ FollowsCalls actions parts) : idsTaken parts.flatten = begun actions := by
  induction h with
  | nil => rfl
  | @cons a part actions parts hpart _ ih =>
      rw [List.flatten_cons, idsTaken_append, ih, begun, begun, List.flatMap_cons,
        idsTaken_append, ← idsTaken_filter part, hpart]

theorem asI64_ofI64 {n : Int} (hlow : 0 ≤ n) (hhigh : n < 2 ^ 63) :
    (Value.ofI64 n).asI64 = some n := by
  have hsize : n.toNat < 2 ^ 64 := by omega
  rw [Value.ofI64, if_pos hlow, Value.asI64, UInt64.toNat_ofNat_of_lt' hsize, if_pos (by omega),
    Int.toNat_of_nonneg hlow]

end Ids

/-- Every message on its way survives its serialisation, and none declares support for a
refresh, which would have the server ask for one under the ids of the client. -/
structure Understood (set : Setting) (s : Peers) : Prop where
  requests : ∀ c, 0 < s.client.client.accepted c →
    Deliverable set.serde (s.client.client.message set.session c)
  responses : ∀ written ∈ output s.server.session, set.serde.Faithful written
  declines : ∀ c, 0 < s.client.client.accepted c →
    Declines (s.client.client.message set.session c)

section Delivery

variable {set : Setting} {actions : List Conversation.Action} {s : Peers}

theorem client_of_run {cond : LspClient → Client.Action → Prop}
    (hother : ∀ t b, caller b = none → cond t b)
    (hrun : (conversation set).Run (fun s a => ∀ b ∈ callsOf a, cond s.client.client b)
      (conversation set).init actions s) :
    Joined set s s.client.client ∧ ∃ clientActions, idsTaken clientActions = begun actions ∧
      (Client.client set.session).Run cond .new clientActions s.client.client := by
  obtain ⟨parts, client, hfollows, hclient, hjoined⟩ :=
    (joined_simulates set hother).run hrun
  obtain rfl := hjoined.keeps.same
  exact ⟨hjoined, parts.flatten, idsTaken_follows hfollows, hclient⟩

theorem intact_other (sess : Client.Session) (t : LspClient) (b : Client.Action)
    (h : caller b = none) : Intact sess t b := by
  rintro c n rfl
  cases h

/-- The server handles the messages of the calls in the order of their frames. -/
theorem handled_isPrefix (hjoined : Joined set s s.client.client)
    (hrequests : ∀ c, 0 < s.client.client.accepted c →
      Deliverable set.serde (s.client.client.message set.session c)) {complete : List Nat}
    (hframed : Framed set.session s.client.client complete) :
    handledIn s.server.session <+:
      complete.map (s.client.client.message set.session) := by
  have haccounts := accounts_of_reachable hjoined.server
  obtain ⟨events, hpulled, hsent⟩ := haccounts.pulled
  have hwire : framesOf set.serde 64 s.client.client.wire =
      complete.map (s.client.client.message set.session) :=
    framesOf_wire hframed hrequests
  rw [← hwire]
  refine ((handled_of_reachable hjoined.server).prefix_.trans haccounts.taken).trans ?_
  refine (hsent.isPrefix.trans hpulled.frames_isPrefix).trans ?_
  exact framesOf_isPrefix 64 hjoined.toServer

/-- The client routes the messages of the server in the order in which they were written. -/
theorem dispatched_isPrefix (hjoined : Joined set s s.client.client)
    (hresponses : ∀ written ∈ output s.server.session, set.serde.Faithful written) :
    dispatched s.client.client <+: output s.server.session := by
  obtain ⟨events, hpulled, hevents⟩ := hjoined.keeps.pulled
  rw [hevents]
  refine hpulled.frames_isPrefix.trans ?_
  exact (framesOf_isPrefix 64 hjoined.toClient).trans (framesOf_messages hresponses)

theorem framed_of_conversation
    (hrun : (conversation set).Run (IntactCall set) (conversation set).init actions s) :
    Joined set s s.client.client ∧ ∃ complete, Framed set.session s.client.client complete := by
  obtain ⟨hjoined, clientActions, -, hclient⟩ :=
    client_of_run (intact_other set.session) hrun
  exact ⟨hjoined, (framed_of_run hclient).2⟩

theorem get_id_of_message {sess : Client.Session} {t : LspClient} {c : Nat} {id : Value}
    (h : (t.message sess c).get "id" = some id) : IsRequest sess c ∧ id = .ofI64 (t.ids c) := by
  unfold LspClient.message at h
  split at h
  · rename_i method params hcall
    exact ⟨⟨method, params, hcall⟩, (Option.some.inj h).symm⟩
  · cases h

theorem mem_of_handled {event : Server.Event} {msg : Value}
    (hevent : event ∈ s.server.session.trace) (hcause : event.cause = .message msg) :
    msg ∈ handledIn s.server.session :=
  List.mem_filterMap.mpr ⟨event, hevent, by rw [hcause]; rfl⟩

end Delivery

/-- At any time the messages that the server has handled are those of distinct calls, the
first ones in the order of the frames on the wire, and the messages that the client has
routed are the first ones of what the server has written. -/
theorem conversation_delivers (set : Setting) (actions : List Conversation.Action) (s : Peers)
    (hrun : (conversation set).Run (IntactCall set) (conversation set).init actions s)
    (hrequests : ∀ c, 0 < s.client.client.accepted c →
      Deliverable set.serde (s.client.client.message set.session c))
    (hresponses : ∀ written ∈ output s.server.session, set.serde.Faithful written) :
    (∃ (complete : List Nat) (part : List UInt8), complete.Nodup ∧
      s.client.client.wire = complete.flatMap (s.client.client.frame set.session) ++ part ∧
      handledIn s.server.session <+: complete.map (s.client.client.message set.session)) ∧
      dispatched s.client.client <+: output s.server.session := by
  obtain ⟨hjoined, complete, hframed⟩ := framed_of_conversation hrun
  obtain ⟨part, hwire, -⟩ := hframed.wire_eq
  refine ⟨⟨complete, part, hframed.nodup, hwire, ?_⟩, dispatched_isPrefix hjoined hresponses⟩
  exact handled_isPrefix hjoined hrequests hframed

section Answers

variable {ctx : Context} {now : Env} {event : Server.Event} {params written : Value} {id : Int}

/-- What the server writes for a message, as its dispatch has it. -/
theorem written_of_reacts {msg : Value} (hcause : event.cause = .message msg)
    (hreacts : Reacts ctx now event) (hwhole : event.written = [written]) :
    ∃ s : Server.Session, (s.dispatch ctx now msg).2.2 = [written] := by
  rw [Reacts, hcause] at hreacts
  obtain ⟨s, -, hdispatch⟩ := hreacts
  exact ⟨s, (congrArg Prod.snd hdispatch).trans hwhole⟩

theorem outcome_initialize (hcause : event.cause = .message (request "initialize" params id))
    (hreacts : Reacts ctx now event) (hwhole : event.written = [written]) :
    messageOutcome written = .ok initializeResult := by
  obtain ⟨s, hdispatch⟩ := written_of_reacts hcause hreacts hwhole
  have hmethod : methodOf (request "initialize" params id) = some .initializeRequest := rfl
  simp only [Session.dispatch, hmethod] at hdispatch
  obtain rfl := List.singleton_inj.mp hdispatch
  rfl

theorem outcome_shutdown (hcause : event.cause = .message (request "shutdown" params id))
    (hreacts : Reacts ctx now event) (hwhole : event.written = [written]) :
    messageOutcome written = .ok .null := by
  obtain ⟨s, hdispatch⟩ := written_of_reacts hcause hreacts hwhole
  have hmethod : methodOf (request "shutdown" params id) = some .shutdown := rfl
  simp only [Session.dispatch, hmethod] at hdispatch
  obtain rfl := List.singleton_inj.mp hdispatch
  rfl

theorem outcome_hover (hcause : event.cause = .message (request "textDocument/hover" params id))
    (hreacts : Reacts ctx now event) (hwhole : event.written = [written]) :
    messageOutcome written =
      .error (.server (-32601) "method not found: textDocument/hover") := by
  obtain ⟨s, hdispatch⟩ := written_of_reacts hcause hreacts hwhole
  have hmethod : methodOf (request "textDocument/hover" params id) =
      some (.unknown "textDocument/hover") := rfl
  simp only [Session.dispatch, hmethod] at hdispatch
  obtain rfl := List.singleton_inj.mp hdispatch
  rfl

/-- What the server says under an id is all that it wrote for the message of one request,
which has this id and of which it has handled the message. -/
theorem call_of_answer {set : Setting} {s : Peers} (hjoined : Joined set s s.client.client)
    (hunderstood : Understood set s) (hexclusive : Exclusive set.session s.client.client)
    {complete : List Nat} (hframed : Framed set.session s.client.client complete) {n : Nat}
    (hfresh : FreshIds set.session n s.client.client) (hn : n < 2 ^ 63)
    (hwritten : written ∈ output s.server.session) (hid : messageId written = some id) :
    ∃ c, IsRequest set.session c ∧ 0 < s.client.client.accepted c ∧
      s.client.client.ids c = id ∧ ∃ event ∈ s.server.session.trace, ∃ now,
        event.cause = .message (s.client.client.message set.session c) ∧
        event.written = [written] ∧ Reacts set.ctx now event := by
  -- Whatever the server handles is the message of a call whose frame is complete.
  have hcalls : ∀ msg ∈ handledIn s.server.session, ∃ c, 0 < s.client.client.accepted c ∧
      s.client.client.message set.session c = msg := by
    intro msg hmsg
    have hmem := (handled_isPrefix hjoined hunderstood.requests hframed).subset hmsg
    obtain ⟨c, hc, heq⟩ := List.mem_map.mp hmem
    refine ⟨c, ?_, heq⟩
    rw [(hframed.mem c).mp hc]
    exact frame_pos set.session s.client.client c
  have hdeclines : ∀ msg ∈ handledIn s.server.session, Declines msg := by
    intro msg hmsg
    obtain ⟨c, haccepted, rfl⟩ := hcalls msg hmsg
    exact hunderstood.declines c haccepted
  obtain ⟨value, hget, hrouted⟩ := Option.bind_eq_some_iff.mp hid
  obtain ⟨event, hevent, msg, now, hcause, hwhole, hsame, hreacts⟩ :=
    answered_message hjoined.server hdeclines hwritten hget
  obtain ⟨c, haccepted, rfl⟩ := hcalls msg (mem_of_handled hevent hcause)
  obtain ⟨hrequest, rfl⟩ := get_id_of_message hsame
  have hrange := hfresh.range c hrequest (not_idle_of_accepted hexclusive haccepted)
  rw [asI64_ofI64 (by omega) (by omega)] at hrouted
  exact ⟨c, hrequest, haccepted, Option.some.inj hrouted, event, hevent, now, hcause, hwhole,
    hreacts⟩

/-- The ids of the requests are distinct, so it is the request that bears this id. -/
theorem event_of_answer {set : Setting} {s : Peers} (hjoined : Joined set s s.client.client)
    (hunderstood : Understood set s) (hexclusive : Exclusive set.session s.client.client)
    {complete : List Nat} (hframed : Framed set.session s.client.client complete) {n c : Nat}
    (hfresh : FreshIds set.session n s.client.client) (hn : n < 2 ^ 63)
    (hrequest : IsRequest set.session c) (hbegun : s.client.client.stage c ≠ .idle)
    (hwritten : written ∈ output s.server.session)
    (hid : messageId written = some (s.client.client.ids c)) :
    ∃ event ∈ s.server.session.trace, ∃ now,
      event.cause = .message (s.client.client.message set.session c) ∧
      event.written = [written] ∧ Reacts set.ctx now event := by
  obtain ⟨c', hrequest', haccepted, hids, hevent⟩ :=
    call_of_answer hjoined hunderstood hexclusive hframed hfresh hn hwritten hid
  obtain rfl := hfresh.injective c' c hrequest' hrequest
    (not_idle_of_accepted hexclusive haccepted) hbegun hids
  exact hevent

end Answers

/-- A request that returns what the server said returns the server's answer to this very
request: its message was handled, and all that was written for it is the message whose
outcome is returned. So `initialize` and `shutdown` return what the server says to them,
and `hover`, which this server does not know, an error. -/
theorem conversation_answers (set : Setting) (actions : List Conversation.Action) (s : Peers)
    (hrun : (conversation set).Run (IntactCall set) (conversation set).init actions s)
    (hunderstood : Understood set s) (hfew : begun actions < 2 ^ 63) (c : Nat)
    (method : String) (params : Value) (outcome : Outcome)
    (hcall : set.calls c = .request method params)
    (hreturned : s.client.client.stage c = .returned outcome) (hserver : FromServer outcome) :
    (∃ event ∈ s.server.session.trace, ∃ written,
      event.cause = .message (request method params (s.client.client.ids c)) ∧
      event.written = [written] ∧ outcome = messageOutcome written) ∧
      (method = "initialize" → outcome = .ok initializeResult) ∧
      (method = "shutdown" → outcome = .ok .null) ∧
      (method = "textDocument/hover" →
        outcome = .error (.server (-32601) "method not found: textDocument/hover")) := by
  obtain ⟨hjoined, clientActions, hcount, hclient⟩ :=
    client_of_run (intact_other set.session) hrun
  obtain ⟨hexclusive, complete, hframed⟩ := framed_of_run hclient
  have hlast := hcount.trans_lt hfew
  have hfresh := freshIds_of_run hclient.anything hlast
  have hrequest : IsRequest set.session c := ⟨method, params, hcall⟩
  have hbegun : s.client.client.stage c ≠ .idle := by
    rw [hreturned]
    exact Stage.noConfusion
  have hanswer :=
    (reachable_sound hclient.reachable).1.returned c outcome hreturned hserver hrequest
  obtain ⟨written, hdispatched, hid, houtcome⟩ := mem_dispatched hanswer
  have hwritten := (dispatched_isPrefix hjoined hunderstood.responses).subset hdispatched
  obtain ⟨event, hevent, now, hcause, hwhole, hreacts⟩ :=
    event_of_answer hjoined hunderstood hexclusive hframed hfresh hlast hrequest hbegun
      hwritten hid
  have hmessage : s.client.client.message set.session c =
      request method params (s.client.client.ids c) := by
    have hsent : set.session.calls c = .request method params := hcall
    rw [LspClient.message, hsent]
  rw [hmessage] at hcause
  rw [houtcome]
  refine ⟨⟨event, hevent, written, hcause, hwhole, rfl⟩, ?_, ?_, ?_⟩
  · rintro rfl
    exact outcome_initialize hcause hreacts hwhole
  · rintro rfl
    exact outcome_shutdown hcause hreacts hwhole
  · rintro rfl
    exact outcome_hover hcause hreacts hwhole

section Sample

def shutdownSetting : Setting where
  serde := shutdownJson
  debugStr := shutdownCalls.debugStr
  timeout := "10s"
  calls := closing.calls
  ctx := echo
  env := fun _ => echoEnv
  gitRef := "HEAD"
  wasmDir := "plugins"

def begunActions : List Conversation.Action :=
  [.client (.call (.takeId 0)), .client (.call (.register 0)), .client (.call (.lock 0))]

/-- The client is about to write. -/
def lockedPeers : Peers :=
  ((conversation shutdownSetting).play (conversation shutdownSetting).init begunActions).getD
    (conversation shutdownSetting).init

def writtenActions : List Conversation.Action :=
  [.client (.call (.accept 0 80)), .client (.call (.flushed 0)), .serverReads 80]

/-- The server has read the request. -/
def writtenPeers : Peers :=
  ((conversation shutdownSetting).play lockedPeers writtenActions).getD lockedPeers

/-- The reader thread of the server has sent the request. -/
def sentPeers : Peers :=
  { writtenPeers with
    server := { writtenPeers.server with
      loop := { writtenPeers.server.loop with
        decoder := FrameDecoder.new.feed []
        pulling := true }
      channel := [shutdownRequest]
      sent := [shutdownRequest] } }

def answeredActions : List Conversation.Action :=
  [.server .main, .server .main, .server .main, .clientReads 60]

/-- The client has read the answer. -/
def answeredPeers : Peers :=
  ((conversation shutdownSetting).play sentPeers answeredActions).getD sentPeers

/-- The reader task of the client has decoded the answer. -/
def routedPeers : Peers :=
  { answeredPeers with
    client :=
      { client := answeredPeers.client.client.dispatchMessage shutdownAnswer []
        loop := { answeredPeers.client.loop with
          decoder := FrameDecoder.new.feed []
          pulling := true } } }

def returnedActions : List Conversation.Action :=
  [.client .resolve, .client (.call (.receive 0))]

def returnedPeers : Peers :=
  ((conversation shutdownSetting).play routedPeers returnedActions).getD routedPeers

def exchange : List Conversation.Action :=
  begunActions ++ (writtenActions ++ .server .pull :: (answeredActions ++
    .client .pull :: returnedActions))

theorem sentPeers_step :
    (conversation shutdownSetting).step writtenPeers (.server .pull) = some sentPeers := by
  have hpull : writtenPeers.server.loop.pull shutdownSetting.program.serde
      shutdownSetting.program.bits =
        (.ok (some (.frame shutdownRequest)), sentPeers.server.loop) := by
    apply pull_message shutdownRequest_deliverable
    rw [List.append_nil]
    rfl
  show (some (writtenPeers.server.pulled shutdownSetting.program)).map _ = _
  rw [ServerProcess.pulled, hpull]
  rfl

theorem routedPeers_step :
    (conversation shutdownSetting).step answeredPeers (.client .pull) = some routedPeers := by
  have hpull : answeredPeers.client.loop.pull shutdownSetting.session.serde 64 =
      (.ok (some (.frame shutdownAnswer)), routedPeers.client.loop) := by
    apply pull_message shutdownAnswer_deliverable
    rw [List.append_nil]
    rfl
  have hreader : answeredPeers.client.client.reader = .reading := rfl
  have hpulling : answeredPeers.client.loop.pulling = true := rfl
  have hstep : Connection.step shutdownSetting.session answeredPeers.client .pull =
      some routedPeers.client := by
    simp only [Connection.step, hreader, hpulling, if_true]
    rw [pulled, hpull]
    rfl
  show (Connection.step shutdownSetting.session answeredPeers.client .pull).map
    (fun client => ({ answeredPeers with client := client } : Peers)) = _
  rw [hstep]
  rfl

theorem intact_at_lockedPeers (a : Conversation.Action) :
    IntactCall shutdownSetting lockedPeers a := by
  intro b _ c n _ c' htorn
  exact absurd htorn.1.1 (Nat.lt_irrefl 0)

theorem intactCall_of_callsOf {set : Setting} {a : Conversation.Action}
    (h : ∀ c n, .accept c n ∉ callsOf a) (s : Peers) : IntactCall set s a := by
  rintro _ hb c n rfl
  exact absurd hb (h c n)

/-- Up to the answer that the reader task has decoded. -/
def routing : List Conversation.Action :=
  begunActions ++ (writtenActions ++ .server .pull :: (answeredActions ++ [.client .pull]))

theorem routing_run : (conversation shutdownSetting).Run (IntactCall shutdownSetting)
    (conversation shutdownSetting).init routing routedPeers := by
  have hbegun : (conversation shutdownSetting).Run (IntactCall shutdownSetting)
      (conversation shutdownSetting).init begunActions lockedPeers := by
    apply (run_of_play rfl).meeting
    simp [begunActions, intactCall_of_callsOf, callsOf, callOf]
  have haccepted : ∃ s, (conversation shutdownSetting).step lockedPeers
      (.client (.call (.accept 0 80))) = some s ∧
        (conversation shutdownSetting).play s
          [.client (.call (.flushed 0)), .serverReads 80] = some writtenPeers :=
    ⟨_, rfl, rfl⟩
  obtain ⟨s, haccept, hwritten⟩ := haccepted
  have hanswered : (conversation shutdownSetting).Run (IntactCall shutdownSetting)
      sentPeers answeredActions answeredPeers := by
    apply (run_of_play rfl).meeting
    simp [answeredActions, intactCall_of_callsOf, callsOf]
  have hrest : (conversation shutdownSetting).Run (IntactCall shutdownSetting) s
      [.client (.call (.flushed 0)), .serverReads 80] writtenPeers := by
    apply (run_of_play hwritten).meeting
    simp [intactCall_of_callsOf, callsOf, callOf]
  have hpull : ∀ c n, Client.Action.accept c n ∉ callsOf (.server .pull) := by simp [callsOf]
  have hroute : ∀ c n, Client.Action.accept c n ∉ callsOf (.client .pull) := by
    simp [callsOf, callOf]
  have hback := hanswered.append (.cons (intactCall_of_callsOf hroute _) routedPeers_step .start)
  have hmiddle := hrest.append (.cons (intactCall_of_callsOf hpull _) sentPeers_step hback)
  exact hbegun.append (.cons (intact_at_lockedPeers _) haccept hmiddle)

theorem exchange_run : (conversation shutdownSetting).Run (IntactCall shutdownSetting)
    (conversation shutdownSetting).init exchange returnedPeers := by
  have hreturned : (conversation shutdownSetting).Run (IntactCall shutdownSetting)
      routedPeers returnedActions returnedPeers := by
    apply (run_of_play rfl).meeting
    simp [returnedActions, intactCall_of_callsOf, callsOf, callOf]
  exact routing_run.append hreturned

theorem exchange_understood : Understood shutdownSetting returnedPeers where
  requests c haccepted := by
    rcases c with _ | c
    · exact shutdownRequest_deliverable
    · exact absurd haccepted (Nat.lt_irrefl 0)
  responses := by
    have houtput : output returnedPeers.server.session = [shutdownAnswer] := rfl
    rw [houtput]
    exact List.forall_mem_singleton.mpr shutdownAnswer_deliverable.1
  declines c haccepted := by
    rcases c with _ | c
    · rfl
    · exact absurd haccepted (Nat.lt_irrefl 0)

theorem conversation_answers_shutdown : ∃ event ∈ returnedPeers.server.session.trace, ∃ written,
    event.cause = .message shutdownRequest ∧ event.written = [written] ∧
      .ok .null = messageOutcome written :=
  (conversation_answers shutdownSetting exchange returnedPeers exchange_run
    exchange_understood (by decide) 0 "shutdown" .null (.ok .null) rfl rfl trivial).1

theorem conversation_delivers_shutdown :
    dispatched returnedPeers.client.client <+: output returnedPeers.server.session :=
  (conversation_delivers shutdownSetting exchange returnedPeers exchange_run
    exchange_understood.requests exchange_understood.responses).2

end Sample

end IntentumdiffLsp.EndToEnd
