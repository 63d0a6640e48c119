import IntentumdiffLsp.EndToEnd
import IntentumdiffLsp.Scheduling
import IntentumdiffLsp.Tracking

/-!
The two ends come to rest: without a step of a call they cannot go on for ever, and when
nothing moves any more each request that waits has its answer.
-/

namespace IntentumdiffLsp.Quiescence

open Foundations.ActionSystem
open IntentumdiffLsp.Json
open IntentumdiffLsp.Codec
open IntentumdiffLsp.Client
open IntentumdiffLsp.Client.LspClient
open IntentumdiffLsp.Correlation
open IntentumdiffLsp.Delivery
open IntentumdiffLsp.Wire
open IntentumdiffLsp.Callers
open IntentumdiffLsp.Tracking
open IntentumdiffLsp.RoundTrip
open IntentumdiffLsp.Responses
open IntentumdiffLsp.Reading
open IntentumdiffLsp.Process
open IntentumdiffLsp.Serving
open IntentumdiffLsp.Settling
open IntentumdiffLsp.Scheduling
open IntentumdiffLsp.Answering
open IntentumdiffLsp.Connection
open IntentumdiffLsp.Conversation
open IntentumdiffLsp.EndToEnd

/-- A step of a thread of the server, of the reader task of the client, or of the transport
between them. It is none of a call, and no stream ends. -/
inductive Internal : Conversation.Action → Prop
  | pull : Internal (.client .pull)
  | resolve : Internal (.client .resolve)
  | clear : Internal (.client .clear)
  | clientReads (n : Nat) : Internal (.clientReads n)
  | serverPull : Internal (.server .pull)
  | serverMain : Internal (.server .main)
  | serverReads (n : Nat) : Internal (.serverReads n)

/-- Nothing moves any more until a call does. -/
def Still (set : Setting) (s : Peers) : Prop :=
  ∀ a, Internal a → Conversation.step set s a = none

/-- The reader task has not left its loop. -/
def isListening : Client.Reader → Bool
  | .reading | .resolving _ _ => true
  | .ended | .cleared => false

def readerSteps : Client.Reader → Nat
  | .resolving _ _ => 3
  | .reading => 2
  | .ended => 1
  | .cleared => 0

/-- What the server has left to do with what is on the wire. -/
def serverEffort (s : Peers) : Nat :=
  effort s.server + 9 * (s.client.client.wire.length - s.server.loop.received.length)

/-- What the reader task has left to do with what the server has written so far. -/
def clientEffort (set : Setting) (s : Peers) : Nat :=
  5 * ((s.server.stdout set.program).length - s.client.loop.received.length) +
    3 * s.client.loop.decoder.buf.length + (if s.client.loop.pulling then 1 else 0) +
      readerSteps s.client.client.reader

/-- No message with the id of an entry of the map has been routed. -/
def Unheard (t : LspClient) : Prop :=
  ∀ c key, t.pending key = some c → ∀ msg ∈ dispatched t, messageId msg ≠ some key

section Unheard

variable {sess : Client.Session} {t t' : LspClient} {w w' : WiredClient}

theorem unheard_dispatch (hu : Unheard t) (msg : Value) (rest : List Value) :
    Unheard (t.dispatchMessage msg rest) := by
  intro c key hpending m hm
  rw [dispatchMessage_pending] at hpending
  split at hpending
  · cases hpending
  · rename_i hne
    rw [dispatched_dispatchMessage, List.mem_append, List.mem_singleton] at hm
    rcases hm with hold | rfl
    · exact hu c key hpending m hold
    · exact hne

/-- A request comes into the map with an id that no message has had yet. -/
theorem unheard_call (hs : Correlated sess t) (hu : Unheard t)
    (hnew : ∀ c, t.stage c = .idTaken → ∀ msg ∈ dispatched t, messageId msg ≠ some (t.ids c))
    {b : Client.Action} {c' : Nat} (hown : caller b = some c') (h : Client.Step sess t b t') :
    Unheard t' := by
  intro c key hpending msg hmsg
  rw [(inbox_of_call h hown).2.1] at hmsg
  rcases pending_of_step h hpending with hold | htaken
  · exact hu c key hold msg hmsg
  · obtain ⟨hids, -⟩ := (hs.step h).pending_ids hpending
    rw [h.ids_eq (by rw [htaken]; nofun)] at hids
    rw [← hids]
    exact hnew c htaken msg hmsg

theorem Unheard.connection (hs : Correlated sess w.client) (hu : Unheard w.client)
    (hnew : ∀ c, w.client.stage c = .idTaken → ∀ msg ∈ dispatched w.client,
      messageId msg ≠ some (w.client.ids c))
    {a : Connection.Action} (h : Connection.Step sess w a w') : Unheard w'.client := by
  cases h with
  | call own client => exact unheard_call hs hu hnew own client
  | pull _ _ pull =>
      cases pull with
      | frame => exact unheard_dispatch hu _ _
      | malformed | drained | fatal => exact hu
  | resolve client =>
      cases client with
      | resolve => exact hu
  | clear client =>
      cases client with
      | clear => exact nofun
  | read | endOfInput => exact hu

end Unheard

section Back

variable {sess : Client.Session} {t t' : LspClient} {w w' : WiredClient} {c : Nat}

theorem accepted_le {b : Client.Action} (h : Client.Step sess t b t') (c : Nat) :
    t.accepted c ≤ t'.accepted c := by
  by_cases hb : ∃ c' n, b = .accept c' n
  · obtain ⟨c', n, rfl⟩ := hb
    cases h with
    | accept =>
        rw [transmit_accepted, Function.update_apply]
        split
        · rename_i heq
          rw [heq]
          exact Nat.le_add_right _ _
        · exact Nat.le_refl _
  · rw [(written_of_step h fun c' n heq => hb ⟨c', n, heq⟩).1]

theorem message_of_step (hx : Exclusive sess t) {b : Client.Action} (h : Client.Step sess t b t')
    (hpos : 0 < t.accepted c) :
    0 < t'.accepted c ∧ t'.message sess c = t.message sess c := by
  refine ⟨hpos.trans_le (accepted_le h c), ?_⟩
  rw [LspClient.message, LspClient.message, h.ids_eq (not_idle_of_accepted hx hpos)]

theorem message_of_connection (hx : Exclusive sess w.client) {a : Connection.Action}
    (h : Connection.Step sess w a w') (hpos : 0 < w.client.accepted c) :
    0 < w'.client.accepted c ∧ w'.client.message sess c = w.client.message sess c := by
  cases h with
  | call _ client | resolve client | clear client => exact message_of_step hx client hpos
  | pull _ _ pull =>
      cases pull with
      | @frame msg =>
          refine ⟨by rwa [dispatchMessage_accepted], ?_⟩
          rw [LspClient.message, LspClient.message, dispatchMessage_ids]
      | malformed | drained | fatal => exact ⟨hpos, rfl⟩
  | read | endOfInput => exact ⟨hpos, rfl⟩

variable {set : Setting} {s s' : Peers} {a : Conversation.Action}

/-- What is understood in the end has been understood before. -/
theorem understood_back (hjoined : Joined set s s.client.client)
    (hx : Exclusive set.session s.client.client) (h : Conversation.Step set s a s')
    (hunderstood : Understood set s') : Understood set s := by
  obtain ⟨hrequests, hresponses, hdeclines⟩ := hunderstood
  have hclient : ∀ {b w}, Connection.step set.session s.client b = some w →
      ∀ c, 0 < s.client.client.accepted c → 0 < w.client.accepted c ∧
        w.client.message set.session c = s.client.client.message set.session c :=
    fun hstep _ hpos => message_of_connection hx (Connection.step_cases hstep) hpos
  have hserver : ∀ {b p}, Process.step set.program s.server b = some p →
      output s.server.session ⊆ output p.session :=
    fun hstep => (output_step (accounts_of_reachable hjoined.server)
      (Process.step_cases hstep)).subset
  cases h with
  | client _ hstep | clientReads hstep =>
      refine ⟨fun c hpos => ?_, hresponses, fun c hpos => ?_⟩
      · obtain ⟨hpos', hmessage⟩ := hclient hstep c hpos
        rw [← hmessage]
        exact hrequests c hpos'
      · obtain ⟨hpos', hmessage⟩ := hclient hstep c hpos
        rw [← hmessage]
        exact hdeclines c hpos'
  | server _ hstep | serverReads hstep =>
      exact ⟨hrequests, fun written hmem => hresponses written (hserver hstep hmem), hdeclines⟩

end Back

section Runs

variable {set : Setting} {s : Peers} {actions : List Conversation.Action}

/-- The id of a request whose frame has not been begun has not been answered. -/
theorem unanswered (hrun : (conversation set).Run (IntactCall set) (conversation set).init
      actions s) (hunderstood : Understood set s) (hfew : begun actions < 2 ^ 63) {c : Nat}
    (htaken : s.client.client.stage c = .idTaken) {msg : Value}
    (hmsg : msg ∈ dispatched s.client.client) :
    messageId msg ≠ some (s.client.client.ids c) := by
  intro hid
  obtain ⟨hjoined, clientActions, hcount, hclient⟩ :=
    client_of_run (intact_other set.session) hrun
  obtain ⟨hexclusive, complete, hframed⟩ := framed_of_run hclient
  have hlast := hcount.trans_lt hfew
  have hfresh := freshIds_of_run hclient.anything hlast
  have hrequest := (reachable_sound hclient.reachable).1.taken c htaken
  have hwritten := (dispatched_isPrefix hjoined hunderstood.responses).subset hmsg
  obtain ⟨c', hrequest', haccepted, hids, -⟩ :=
    call_of_answer hjoined hunderstood hexclusive hframed hfresh hlast hwritten hid
  obtain rfl := hfresh.injective c' c hrequest' hrequest
    (not_idle_of_accepted hexclusive haccepted) (by rw [htaken]; nofun) hids
  rw [hexclusive.unwritten c' (by rw [htaken]; rfl)] at haccepted
  exact absurd haccepted (Nat.lt_irrefl 0)

theorem unheard_of_run (hrun : (conversation set).Run (IntactCall set) (conversation set).init
      actions s) (hunderstood : Understood set s) (hfew : begun actions < 2 ^ 63) :
    Unheard s.client.client := by
  refine hrun.trace_invariant (P := fun actions s => Understood set s → begun actions < 2 ^ 63 →
    Unheard s.client.client) (fun _ _ => nofun) ?_ hunderstood hfew
  intro done u a u' hrun ih _ hstep hunderstood hfew
  have hstep := Conversation.step_cases hstep
  obtain ⟨hjoined, clientActions, -, hclient⟩ :=
    client_of_run (intact_other set.session) hrun
  have hbefore : begun done < 2 ^ 63 := by
    rw [begun, List.flatMap_append, idsTaken_append] at hfew
    exact (Nat.le_add_right _ _).trans_lt hfew
  have hunderstood := understood_back hjoined (framed_of_run hclient).1 hstep hunderstood
  have hu := ih hunderstood hbefore
  have hs := (reachable_sound hclient.reachable).1
  have hnew : ∀ c, u.client.client.stage c = .idTaken → ∀ msg ∈ dispatched u.client.client,
      messageId msg ≠ some (u.client.client.ids c) :=
    fun c htaken msg hmsg => unanswered hrun hunderstood hbefore htaken hmsg
  cases hstep with
  | client _ hconnection | clientReads hconnection =>
      exact hu.connection hs hnew (Connection.step_cases hconnection)
  | server | serverReads => exact hu

end Runs

section Rest

variable {set : Setting} {s : Peers}

theorem eq_of_nothing_left {read written : List UInt8} (h : read <+: written)
    (hnone : (written.drop read.length).take chunkSize = []) : read = written := by
  obtain ⟨rest, rfl⟩ := h
  rw [List.drop_left, List.take_eq_nil_iff] at hnone
  rcases hnone with hsize | rfl
  · cases hsize
  · exact (List.append_nil _).symm

/-- The server has read and handled everything. -/
theorem Still.server (hstill : Still set s) (hjoined : Joined set s s.client.client)
    (hreader : s.server.reader = .running) :
    AtRest set.program s.server ∧ s.server.loop.received = s.client.client.wire := by
  have hpull := Option.map_eq_none_iff.mp (hstill _ .serverPull)
  have hmain := Option.map_eq_none_iff.mp (hstill _ .serverMain)
  have hread := Option.map_eq_none_iff.mp (hstill _ (.serverReads chunkSize))
  refine ⟨⟨hmain, hpull⟩, eq_of_nothing_left hjoined.toServer ?_⟩
  by_contra hne
  have hguard : s.server.loop.pulling = false ∧ toServer s chunkSize ≠ [] ∧
      (toServer s chunkSize).length ≤ chunkSize :=
    ⟨pull_eq_none hpull hreader, hne, List.length_take_le _ _⟩
  simp only [Process.step, hreader, if_pos hguard] at hread
  cases hread

/-- The client has read and routed everything. -/
theorem Still.client (hstill : Still set s) (hjoined : Joined set s s.client.client)
    (hlistens : isListening s.client.client.reader = true) :
    s.client.client.reader = .reading ∧ s.client.loop.pulling = false ∧
      s.client.loop.received = s.server.stdout set.program := by
  have hpull := Option.map_eq_none_iff.mp (hstill _ .pull)
  have hresolve := Option.map_eq_none_iff.mp (hstill _ .resolve)
  have hread := Option.map_eq_none_iff.mp (hstill _ (.clientReads chunkSize))
  have hreader : s.client.client.reader = .reading := by
    cases hreader : s.client.client.reader with
    | reading => rfl
    | resolving c outcome => simp [Connection.step, Client.step, hreader] at hresolve
    | ended | cleared =>
        rw [hreader] at hlistens
        cases hlistens
  have hidle : s.client.loop.pulling = false := by
    simp only [Connection.step, hreader] at hpull
    split at hpull
    · cases hpull
    · rename_i hpulling
      exact Bool.eq_false_iff.mpr hpulling
  refine ⟨hreader, hidle, eq_of_nothing_left hjoined.toClient ?_⟩
  by_contra hne
  have hguard : s.client.loop.pulling = false ∧ toClient set s chunkSize ≠ [] ∧
      (toClient set s chunkSize).length ≤ chunkSize :=
    ⟨hidle, hne, List.length_take_le _ _⟩
  simp only [Connection.step, hreader, if_pos hguard] at hread
  cases hread

/-- Every message of the server has been routed. -/
theorem dispatched_of_still (hjoined : Joined set s s.client.client)
    (hresponses : ∀ written ∈ output s.server.session, set.serde.Faithful written)
    (hstill : Still set s) (hlistens : isListening s.client.client.reader = true) :
    dispatched s.client.client = output s.server.session := by
  obtain ⟨hreader, hidle, hreceived⟩ := hstill.client hjoined hlistens
  obtain ⟨events, hpulled, hevents⟩ := hjoined.keeps.pulled
  have hwhole := hjoined.keeps.whole hreader hidle
  rw [hreceived] at hwhole
  rw [hevents, hpulled.frames_eq hidle, hreceived]
  exact framesOf_whole hresponses hwhole

/-- Every request whose frame is complete has been answered. -/
theorem answered_of_still (hjoined : Joined set s s.client.client)
    (hrequests : ∀ c, 0 < s.client.client.accepted c →
      Deliverable set.serde (s.client.client.message set.session c)) {complete : List Nat}
    (hframed : Framed set.session s.client.client complete)
    (hstay : ∀ c, 0 < s.client.client.accepted c →
      ¬IsExit (s.client.client.message set.session c))
    (hstill : Still set s) (hreader : s.server.reader = .running) :
    (output s.server.session).filterMap answeredId =
      (complete.map (s.client.client.message set.session)).filterMap requestId := by
  obtain ⟨hrest, hreceived⟩ := hstill.server hjoined hreader
  have hframes : framesOf set.serde 64 s.server.loop.received =
      complete.map (s.client.client.message set.session) := by
    rw [hreceived]
    exact framesOf_wire hframed hrequests
  have hexit : ∀ msg ∈ framesOf set.serde 64 s.server.loop.received, ¬IsExit msg := by
    rw [hframes, List.forall_mem_map]
    intro c hc
    refine hstay c ?_
    rw [(hframed.mem c).mp hc]
    exact frame_pos _ _ c
  have hserved : s.server.session = served set.program s.server.batches ∧
      s.server.batches.flatten = framesOf set.serde 64 s.server.loop.received :=
    hrest.served hjoined.server hexit
  obtain ⟨hsession, hflatten⟩ := hserved
  obtain ⟨written, hwritten, hresponds⟩ :=
    responds_run set.ctx set.env s.server.batches (.new set.gitRef set.wasmDir) rfl
  have houtput : output s.server.session = written := by
    rw [hsession]
    exact hwritten
  rw [← hflatten] at hframes hexit
  rw [← hframes, houtput]
  exact answeredId_responds hresponds hexit

theorem requestId_of_message {c : Nat} {method : String} {params : Value}
    (hcall : set.calls c = .request method params) (hmethod : method ≠ "")
    (hrequest : method ∉ notifications) :
    requestId (s.client.client.message set.session c) = some (.ofI64 (s.client.client.ids c)) := by
  have hsent : set.session.calls c = .request method params := hcall
  have hname : methodName (request method params (s.client.client.ids c)) = some method := rfl
  rw [LspClient.message, hsent]
  dsimp only
  rw [requestId, hname]
  exact if_neg (not_or.mpr ⟨hmethod, hrequest⟩)

theorem messageId_of_answeredId {written : Value} {id : Int} (hlow : 0 ≤ id) (hhigh : id < 2 ^ 63)
    (h : answeredId written = some (.ofI64 id)) : messageId written = some id := by
  unfold answeredId at h
  split at h
  · rw [messageId, h, Option.bind_some, asI64_ofI64 hlow hhigh]
  · cases h

end Rest

section Descent

variable {set : Setting} {s s' : Peers}

theorem length_read {α : Type*} (read written : List α) (n : Nat) :
    ((written.drop read.length).take n).length ≤ written.length - read.length := by
  rw [List.length_take, List.length_drop]
  exact Nat.min_le_right _ _

theorem serverEffort_read {n : Nat} {p : ServerProcess}
    (h : Process.step set.program s.server (.read (toServer s n)) = some p) :
    serverEffort { s with server := p } < serverEffort s := by
  have hpaid := effort_step (Process.step_cases h)
  have hlength := length_read s.server.loop.received s.client.client.wire n
  cases Process.step_cases h with
  | read reader idle nonempty =>
      have hpos := List.length_pos_iff.mpr nonempty
      simp only [serverEffort, ReadLoop.feed, List.length_append, toServer] at hpaid hpos ⊢
      omega

theorem serverEffort_step {a : Process.Action} {p : ServerProcess} (ha : ∀ chunk, a ≠ .read chunk)
    (h : Process.step set.program s.server a = some p) :
    serverEffort { s with server := p } < serverEffort s := by
  have hpaid := effort_step (Process.step_cases h)
  rcases received_of_process h with hsame | ⟨chunk, rfl, -⟩
  · rw [hsame] at hpaid
    simp only [serverEffort, hsame]
    omega
  · exact absurd rfl (ha chunk)

/-- A step of the reader task leaves the wire alone, and is paid for by what it reads. -/
theorem clientEffort_read {n : Nat} {w : WiredClient}
    (h : Connection.step set.session s.client (.read (toClient set s n)) = some w) :
    serverEffort { s with client := w } = serverEffort s ∧
      clientEffort set { s with client := w } < clientEffort set s := by
  have hlength := length_read s.client.loop.received (s.server.stdout set.program) n
  cases Connection.step_cases h with
  | read reader idle nonempty =>
      refine ⟨rfl, ?_⟩
      have hpos := List.length_pos_iff.mpr nonempty
      simp only [clientEffort, ReadLoop.feed, FrameDecoder.feed, idle, List.length_append, toClient,
        if_true, Bool.false_eq_true, if_false] at hpos ⊢
      omega

theorem routed_effort {t : LspClient} (hreader : t.reader = .reading) (msg : Value)
    (rest : List Value) :
    (t.dispatchMessage msg rest).wire = t.wire ∧
      readerSteps (t.dispatchMessage msg rest).reader ≤ readerSteps t.reader + 1 := by
  rcases dispatchMessage_cases t msg with hroute | ⟨id, c, hid, hpending⟩
  · rw [dispatchMessage_unrouted hroute]
    exact ⟨rfl, Nat.le_succ _⟩
  · rw [dispatchMessage_routed hid hpending, hreader]
    exact ⟨rfl, Nat.le_refl _⟩

theorem clientEffort_pull {w : WiredClient}
    (h : Connection.step set.session s.client .pull = some w) :
    serverEffort { s with client := w } = serverEffort s ∧
      clientEffort set { s with client := w } < clientEffort set s := by
  have hle := @pull_le set.session.serde 64 s.client.loop
  have hreceived : (s.client.loop.pull set.session.serde 64).2.received =
      s.client.loop.received := rfl
  cases Connection.step_cases h with
  | pull reader pulling pull =>
      cases pull with
      | @frame msg result =>
          have hlt := pull_lt result
          obtain ⟨hwire, hsteps⟩ := routed_effort reader msg s.client.client.inbox
          refine ⟨by simp only [serverEffort, hwire], ?_⟩
          simp only [clientEffort, hreceived, pulling, pulling_pull, result, isEvent, if_true]
          omega
      | malformed result =>
          have hlt := pull_lt result
          refine ⟨rfl, ?_⟩
          simp only [clientEffort, hreceived, pulling, pulling_pull, result, isEvent, if_true]
          omega
      | drained result =>
          refine ⟨rfl, ?_⟩
          simp only [clientEffort, hreceived, pulling, pulling_pull, result, isEvent, if_true,
            Bool.false_eq_true, if_false]
          omega
      | fatal result =>
          refine ⟨rfl, ?_⟩
          simp only [clientEffort, hreceived, pulling, pulling_pull, result, isEvent, if_true,
            Bool.false_eq_true, if_false]
          have hended : readerSteps .ended ≤ readerSteps s.client.client.reader := by
            rw [reader]
            exact Nat.le_succ 1
          omega

theorem clientEffort_reader {a : Connection.Action} {w : WiredClient}
    (ha : a = .resolve ∨ a = .clear) (h : Connection.step set.session s.client a = some w) :
    serverEffort { s with client := w } = serverEffort s ∧
      clientEffort set { s with client := w } < clientEffort set s := by
  have hless : ∀ client : LspClient,
      readerSteps client.reader < readerSteps s.client.client.reader →
      clientEffort set { s with client := { s.client with client := client } } <
        clientEffort set s := fun client hlt => Nat.add_lt_add_left hlt _
  rcases ha with rfl | rfl
  · cases Connection.step_cases h with
    | resolve client =>
        cases client with
        | resolve reader => exact ⟨rfl, hless _ (by rw [reader]; exact Nat.lt_succ_self 2)⟩
  · cases Connection.step_cases h with
    | clear client =>
        cases client with
        | clear reader => exact ⟨rfl, hless _ (by rw [reader]; exact Nat.one_pos)⟩

/-- What the server has left to do goes down, or it stays and the reader task has less. -/
theorem internal_descends {a : Conversation.Action} (ha : Internal a)
    (h : Conversation.step set s a = some s') :
    serverEffort s' < serverEffort s ∨
      serverEffort s' = serverEffort s ∧ clientEffort set s' < clientEffort set s := by
  cases Conversation.step_cases h with
  | @client b w other hstep =>
      right
      cases ha with
      | pull => exact clientEffort_pull hstep
      | resolve => exact clientEffort_reader (.inl rfl) hstep
      | clear => exact clientEffort_reader (.inr rfl) hstep
  | clientReads hstep => exact .inr (clientEffort_read hstep)
  | server other hstep => exact .inl (serverEffort_step other hstep)
  | serverReads hstep => exact .inl (serverEffort_read hstep)

theorem internal_wellFounded (set : Setting) :
    WellFounded fun s' s => ∃ a, Internal a ∧ Conversation.step set s a = some s' := by
  have hlex := (Prod.lex Nat.lt_wfRel Nat.lt_wfRel).wf
  refine Subrelation.wf ?_
    (InvImage.wf (fun s : Peers => (serverEffort s, clientEffort set s)) hlex)
  rintro s' s ⟨a, ha, hstep⟩
  exact Prod.lex_def.mpr (internal_descends ha hstep)

end Descent

/-- As long as no call makes a step, the two ends come to rest from every state, whatever the
threads, the tasks and the transport do in turn. When they rest and neither stream has
ended, a request that waits has its answer: the outcome of all that the server has written
for the message of this request. The methods that the server takes for notifications are
not answered. -/
theorem conversation_settles (set : Setting) :
    (WellFounded fun s' s => ∃ a, Internal a ∧ Conversation.step set s a = some s') ∧
    ∀ (actions : List Conversation.Action) (s : Peers),
      (conversation set).Run (IntactCall set) (conversation set).init actions s →
      Understood set s → begun actions < 2 ^ 63 →
      (∀ c, 0 < s.client.client.accepted c →
        ¬IsExit (s.client.client.message set.session c)) →
      s.server.reader = .running → isListening s.client.client.reader = true → Still set s →
      ∀ c method params, set.calls c = .request method params → method ≠ "" →
        method ∉ notifications → s.client.client.stage c = .awaiting →
        ∃ event ∈ s.server.session.trace, ∃ written,
          event.cause = .message (request method params (s.client.client.ids c)) ∧
          event.written = [written] ∧
          s.client.client.slot c = .sent (messageOutcome written) := by
  refine ⟨internal_wellFounded set, ?_⟩
  intro actions s hrun hunderstood hfew hstay hserver hclient hstill c method params hcall
    hmethod hnotified hawaiting
  obtain ⟨hjoined, clientActions, hcount, hrunClient⟩ :=
    client_of_run (intact_other set.session) hrun
  obtain ⟨hexclusive, complete, hframed⟩ := framed_of_run hrunClient
  have hlast := hcount.trans_lt hfew
  have hfresh := freshIds_of_run hrunClient.anything hlast
  have hrequest : IsRequest set.session c := ⟨method, params, hcall⟩
  have hbegun : s.client.client.stage c ≠ .idle := by
    rw [hawaiting]
    nofun
  have hrange := hfresh.range c hrequest hbegun
  -- The server has said something under the id of this request.
  have hcomplete : c ∈ complete := by
    rw [hframed.mem]
    exact whole_of_reachable hrunClient.reachable c (by rw [hawaiting]; rfl)
  have hanswered := answered_of_still hjoined hunderstood.requests hframed hstay hstill hserver
  have hmem : .ofI64 (s.client.client.ids c) ∈ (output s.server.session).filterMap answeredId := by
    rw [hanswered, List.mem_filterMap]
    exact ⟨_, List.mem_map_of_mem hcomplete, requestId_of_message hcall hmethod hnotified⟩
  obtain ⟨answer, hanswer, hid⟩ := List.mem_filterMap.mp hmem
  have hrouted := messageId_of_answeredId (by omega) (by omega) hid
  -- It has been routed, so the request is not in the map any more.
  have hheard : answer ∈ dispatched s.client.client := by
    rw [dispatched_of_still hjoined hunderstood.responses hstill hclient]
    exact hanswer
  have hunlisted : s.client.client.pending (s.client.client.ids c) ≠ some c := fun hpending =>
    unheard_of_run hrun hunderstood hfew c _ hpending answer hheard hrouted
  have hreading := (hstill.client hjoined hclient).1
  have htracked := tracked_of_run hrunClient.anything hlast
    (by rw [hreading]; nofun) c hrequest (by rw [hawaiting]; rfl)
  rcases htracked with hpending | ⟨outcome, hcarried⟩ | ⟨outcome, hsent⟩
  · exact absurd hpending hunlisted
  · cases hreading.symm.trans hcarried
  · have hslot := (reachable_sound hrunClient.reachable).1.slots c outcome hsent
    obtain ⟨written, hdispatched, hwrittenId, rfl⟩ := mem_dispatched hslot
    have hwritten := (dispatched_isPrefix hjoined hunderstood.responses).subset hdispatched
    obtain ⟨event, hevent, now, hcause, hwhole, -⟩ :=
      event_of_answer hjoined hunderstood hexclusive hframed hfresh hlast hrequest hbegun
        hwritten hwrittenId
    have hsession : set.session.calls c = .request method params := hcall
    rw [LspClient.message, hsession] at hcause
    exact ⟨event, hevent, written, hcause, hwhole, hsent⟩

section Sample

def resolvedActions : List Conversation.Action :=
  [.client .resolve, .server .main, .server .main]

/-- The answer is in the slot of its request, and the main loop waits for more. -/
def resolvedPeers : Peers :=
  ((conversation shutdownSetting).play routedPeers resolvedActions).getD routedPeers

def drainedPeers : Peers :=
  { resolvedPeers with
    server := { resolvedPeers.server with
      loop := { resolvedPeers.server.loop with pulling := false } } }

/-- Nothing is left to be read or decoded. -/
def restPeers : Peers :=
  { drainedPeers with
    client := { drainedPeers.client with
      loop := { drainedPeers.client.loop with pulling := false } } }

def restActions : List Conversation.Action :=
  routing ++ (resolvedActions ++ [.server .pull, .client .pull])

theorem drainedPeers_step :
    (conversation shutdownSetting).step resolvedPeers (.server .pull) = some drainedPeers := by
  have hpull : resolvedPeers.server.loop.pull shutdownSetting.program.serde
      shutdownSetting.program.bits = (.ok none, drainedPeers.server.loop) := pull_nothing rfl
  show (some (resolvedPeers.server.pulled shutdownSetting.program)).map _ = _
  rw [ServerProcess.pulled, hpull]
  rfl

theorem restPeers_step :
    (conversation shutdownSetting).step drainedPeers (.client .pull) = some restPeers := by
  have hpull : drainedPeers.client.loop.pull shutdownSetting.session.serde 64 =
      (.ok none, restPeers.client.loop) := pull_nothing rfl
  have hreader : drainedPeers.client.client.reader = .reading := rfl
  have hpulling : drainedPeers.client.loop.pulling = true := rfl
  have hstep : Connection.step shutdownSetting.session drainedPeers.client .pull =
      some restPeers.client := by
    simp only [Connection.step, hreader, hpulling, if_true]
    rw [pulled, hpull]
    rfl
  show (Connection.step shutdownSetting.session drainedPeers.client .pull).map
    (fun client => ({ drainedPeers with client := client } : Peers)) = _
  rw [hstep]
  rfl

theorem restActions_run : (conversation shutdownSetting).Run (IntactCall shutdownSetting)
    (conversation shutdownSetting).init restActions restPeers := by
  have hresolved : (conversation shutdownSetting).Run (IntactCall shutdownSetting)
      routedPeers resolvedActions resolvedPeers := by
    apply (run_of_play rfl).meeting
    simp [resolvedActions, intactCall_of_callsOf, callsOf, callOf]
  have hserver : ∀ c n, Client.Action.accept c n ∉ callsOf (.server .pull) := by simp [callsOf]
  have hclient : ∀ c n, Client.Action.accept c n ∉ callsOf (.client .pull) := by
    simp [callsOf, callOf]
  exact routing_run.append (hresolved.append (.cons (intactCall_of_callsOf hserver _)
    drainedPeers_step (.cons (intactCall_of_callsOf hclient _) restPeers_step .start)))

theorem restPeers_understood : Understood shutdownSetting restPeers where
  requests c haccepted := by
    rcases c with _ | c
    · exact shutdownRequest_deliverable
    · exact absurd haccepted (Nat.lt_irrefl 0)
  responses := by
    have houtput : output restPeers.server.session = [shutdownAnswer] := rfl
    rw [houtput]
    exact List.forall_mem_singleton.mpr shutdownAnswer_deliverable.1
  declines c haccepted := by
    rcases c with _ | c
    · rfl
    · exact absurd haccepted (Nat.lt_irrefl 0)

theorem restPeers_still : Still shutdownSetting restPeers := by
  have hclient : ∀ n, toClient shutdownSetting restPeers n = [] := by
    intro n
    have hall : restPeers.server.stdout shutdownSetting.program =
        restPeers.client.loop.received := rfl
    rw [toClient, hall, List.drop_length, List.take_nil]
  have hserver : ∀ n, toServer restPeers n = [] := by
    intro n
    have hall : restPeers.client.client.wire = restPeers.server.loop.received := rfl
    rw [toServer, hall, List.drop_length, List.take_nil]
  intro a ha
  cases ha with
  | clientReads n =>
      simp only [Conversation.step, hclient]
      rfl
  | serverReads n =>
      simp only [Conversation.step, hserver]
      rfl
  | pull | resolve | clear | serverPull | serverMain => rfl

theorem conversation_settles_rest : ∃ event ∈ restPeers.server.session.trace, ∃ written,
    event.cause = .message shutdownRequest ∧ event.written = [written] ∧
      restPeers.client.client.slot 0 = .sent (messageOutcome written) := by
  have hstay : ∀ c, 0 < restPeers.client.client.accepted c →
      ¬IsExit (restPeers.client.client.message shutdownSetting.session c) := by
    intro c haccepted
    rcases c with _ | c
    · rw [isExit_iff]
      decide
    · exact absurd haccepted (Nat.lt_irrefl 0)
  exact (conversation_settles shutdownSetting).2 restActions restPeers restActions_run
    restPeers_understood (by decide) hstay rfl rfl restPeers_still 0 "shutdown" .null rfl
    (by decide) (by decide) rfl

end Sample

end IntentumdiffLsp.Quiescence
