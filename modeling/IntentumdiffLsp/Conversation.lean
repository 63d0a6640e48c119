import IntentumdiffLsp.Answering
import IntentumdiffLsp.Connection

/-!
The two ends of the codec together: the client over the output of the server, and the
server over what the client has written. Each reads what the other has written so far
in chunks of any size.
-/

namespace IntentumdiffLsp.Conversation

open Foundations
open Foundations.ActionSystem
open IntentumdiffLsp.Json
open IntentumdiffLsp.Client
open IntentumdiffLsp.Wire
open IntentumdiffLsp.Callers
open IntentumdiffLsp.Server
open IntentumdiffLsp.Process
open IntentumdiffLsp.Serving
open IntentumdiffLsp.Answering
open IntentumdiffLsp.Connection

/-- The calls on the client, and what the server is started with. -/
structure Setting where
  serde : SerdeJson
  debugStr : String → String
  timeout : String
  calls : Nat → Client.Call
  ctx : Context
  env : Nat → Env
  gitRef : String
  wasmDir : String

def Setting.session (set : Setting) : Client.Session where
  serde := set.serde
  debugStr := set.debugStr
  timeout := set.timeout
  calls := set.calls

def Setting.program (set : Setting) : Program where
  serde := set.serde
  bits := 64
  ctx := set.ctx
  env := set.env
  gitRef := set.gitRef
  wasmDir := set.wasmDir

structure Peers where
  client : WiredClient
  server : ServerProcess

inductive Action where
  | client (a : Connection.Action)
  | clientReads (n : Nat)
  | server (a : Process.Action)
  | serverReads (n : Nat)

section Steps

variable (set : Setting) (s : Peers)

/-- The next bytes for the client, of those that the server has written. -/
def toClient (n : Nat) : List UInt8 :=
  ((s.server.stdout set.program).drop s.client.loop.received.length).take n

/-- The next bytes for the server, of those that the transport has taken. -/
def toServer (n : Nat) : List UInt8 :=
  (s.client.client.wire.drop s.server.loop.received.length).take n

def step : Action → Option Peers
  | .client (.read _) => none
  | .client a =>
      (Connection.step set.session s.client a).map fun client => { s with client := client }
  | .clientReads n =>
      (Connection.step set.session s.client (.read (toClient set s n))).map fun client =>
        { s with client := client }
  | .server (.read _) => none
  | .server a =>
      (Process.step set.program s.server a).map fun server => { s with server := server }
  | .serverReads n =>
      (Process.step set.program s.server (.read (toServer s n))).map fun server =>
        { s with server := server }

end Steps

def conversation (set : Setting) : ActionSystem Peers Action where
  init := { client := (connection set.session).init, server := set.program.started }
  step := step set

/-- The action of the client or of the server that a step is. -/
inductive Step (set : Setting) (s : Peers) : Action → Peers → Prop
  | client {a client} (other : ∀ chunk, a ≠ .read chunk)
      (step : Connection.step set.session s.client a = some client) :
      Step set s (.client a) { s with client := client }
  | clientReads {n client}
      (step : Connection.step set.session s.client (.read (toClient set s n)) = some client) :
      Step set s (.clientReads n) { s with client := client }
  | server {a server} (other : ∀ chunk, a ≠ .read chunk)
      (step : Process.step set.program s.server a = some server) :
      Step set s (.server a) { s with server := server }
  | serverReads {n server}
      (step : Process.step set.program s.server (.read (toServer s n)) = some server) :
      Step set s (.serverReads n) { s with server := server }

theorem step_cases {set : Setting} {s s' : Peers} {a : Action}
    (h : step set s a = some s') : Step set s a s' := by
  unfold step at h
  split at h
  · cases h
  · obtain ⟨client, hclient, rfl⟩ := Option.map_eq_some_iff.mp h
    exact .client ‹_› hclient
  · obtain ⟨client, hclient, rfl⟩ := Option.map_eq_some_iff.mp h
    exact .clientReads hclient
  · cases h
  · obtain ⟨server, hserver, rfl⟩ := Option.map_eq_some_iff.mp h
    exact .server ‹_› hserver
  · obtain ⟨server, hserver, rfl⟩ := Option.map_eq_some_iff.mp h
    exact .serverReads hserver

def callsOf : Action → List Client.Action
  | .client a => callOf a
  | _ => []

def FollowsCalls (a : Action) (actions : List Client.Action) : Prop :=
  actions.filter (fun b => (caller b).isSome) = callsOf a

/-- As `Intact`, for the calls on the client. -/
def IntactCall (set : Setting) (s : Peers) (a : Action) : Prop :=
  ∀ b ∈ callsOf a, Intact set.session s.client.client b

/-- Each end has read a part of what the other has written. -/
structure Joined (set : Setting) (s : Peers) (client : LspClient) : Prop where
  keeps : Keeps set.session s.client client
  server : (process set.program).Reachable s.server
  toServer : s.server.loop.received <+: s.client.client.wire
  toClient : s.client.loop.received <+: s.server.stdout set.program

section Runs

variable {set : Setting} {s s' : Peers} {client : LspClient} {a : Action}

theorem prefix_read {α : Type*} {read written : List α} (h : read <+: written) (n : Nat) :
    read ++ (written.drop read.length).take n <+: written := by
  obtain ⟨rest, rfl⟩ := h
  rw [List.drop_left]
  exact (List.prefix_append_right_inj read).mpr (List.take_prefix n rest)

theorem stdout_step {prog : Program} {p p' : ServerProcess} {b : Process.Action}
    (hreachable : (process prog).Reachable p) (h : Process.step prog p b = some p') :
    p.stdout prog <+: p'.stdout prog := by
  obtain ⟨more, hmore⟩ := output_step (accounts_of_reachable hreachable) (Process.step_cases h)
  rw [ServerProcess.stdout, ServerProcess.stdout, ← hmore, List.flatMap_append]
  exact List.prefix_append _ _

theorem received_of_connection {sess : Client.Session} {w w' : WiredClient}
    {b : Connection.Action} (h : Connection.step sess w b = some w') :
    w'.loop.received = w.loop.received ∨
      ∃ chunk, b = .read chunk ∧ w'.loop.received = w.loop.received ++ chunk := by
  cases Connection.step_cases h with
  | read => exact .inr ⟨_, rfl, rfl⟩
  | pull _ _ pull => cases pull <;> exact .inl rfl
  | call | endOfInput | resolve | clear => exact .inl rfl

theorem received_of_process {prog : Program} {p p' : ServerProcess} {b : Process.Action}
    (h : Process.step prog p b = some p') :
    p'.loop.received = p.loop.received ∨
      ∃ chunk, b = .read chunk ∧ p'.loop.received = p.loop.received ++ chunk := by
  cases Process.step_cases h with
  | read => exact .inr ⟨_, rfl, rfl⟩
  | pull _ _ pull => cases pull <;> exact .inl rfl
  | endOfInput => exact .inl rfl
  | main main =>
      rw [(main_frame main).1]
      exact .inl rfl

theorem Joined.step_client (h : Joined set s client) {b : Connection.Action} {w : WiredClient}
    (hstep : Connection.step set.session s.client b = some w)
    (hread : ∀ chunk, b = .read chunk → s.client.loop.received ++ chunk <+:
      s.server.stdout set.program)
    {cond : LspClient → Client.Action → Prop} (hother : ∀ t b, caller b = none → cond t b)
    (hcond : ∀ b' ∈ callOf b, cond s.client.client b') :
    ∃ actions client', Connection.Follows b actions ∧
      (Client.client set.session).Run cond client actions client' ∧
      Joined set { s with client := w } client' := by
  obtain ⟨actions, client', hfollows, hrun, hkeeps⟩ :=
    (client_simulates hother set.session).step h.keeps hcond hstep
  refine ⟨actions, client', hfollows, hrun, hkeeps, h.server, ?_, ?_⟩
  · have hwire := wire_run hrun
    rw [hkeeps.same, h.keeps.same] at hwire
    exact h.toServer.trans hwire
  · show w.loop.received <+: s.server.stdout set.program
    rcases received_of_connection hstep with hsame | ⟨chunk, hb, hchunk⟩
    · rw [hsame]
      exact h.toClient
    · rw [hchunk]
      exact hread chunk hb

theorem Joined.step_server (h : Joined set s client) {b : Process.Action} {p : ServerProcess}
    (hstep : Process.step set.program s.server b = some p)
    (hread : ∀ chunk, b = .read chunk → s.server.loop.received ++ chunk <+:
      s.client.client.wire) :
    Joined set { s with server := p } client where
  keeps := h.keeps
  server := (Leads.of_step hstep).reachable h.server
  toServer := by
    show p.loop.received <+: s.client.client.wire
    rcases received_of_process hstep with hsame | ⟨chunk, hb, hchunk⟩
    · rw [hsame]
      exact h.toServer
    · rw [hchunk]
      exact hread chunk hb
  toClient := h.toClient.trans (stdout_step h.server hstep)

/-- Whatever the two ends do in turn, the client goes through a run of its own. -/
theorem joined_simulates (set : Setting) {cond : LspClient → Client.Action → Prop}
    (hother : ∀ t b, caller b = none → cond t b) :
    Simulates (conversation set) (Client.client set.session)
      (fun s a => ∀ b ∈ callsOf a, cond s.client.client b) cond (Joined set) FollowsCalls where
  init := ⟨keeps_new set.session, ⟨[], .start⟩, List.nil_prefix, List.nil_prefix⟩
  step := by
    intro s s' client a hjoined hcond hstep
    cases step_cases hstep with
    | client other hclient =>
        exact hjoined.step_client hclient (fun chunk heq => absurd heq (other chunk)) hother hcond
    | clientReads hclient =>
        refine hjoined.step_client hclient ?_ hother nofun
        rintro chunk ⟨⟩
        exact prefix_read hjoined.toClient _
    | server other hserver =>
        exact ⟨[], client, rfl, .start,
          hjoined.step_server hserver fun chunk heq => absurd heq (other chunk)⟩
    | serverReads hserver =>
        refine ⟨[], client, rfl, .start, hjoined.step_server hserver ?_⟩
        rintro chunk ⟨⟩
        exact prefix_read hjoined.toServer _

end Runs

end IntentumdiffLsp.Conversation
