import IntentumdiffLsp.Serving

/-!
Which message the process has written an answer to, while it asks nothing itself.
-/

namespace IntentumdiffLsp.Answering

open Foundations
open IntentumdiffLsp.Json
open IntentumdiffLsp.Server
open IntentumdiffLsp.Sessions
open IntentumdiffLsp.Responses
open IntentumdiffLsp.Process
open IntentumdiffLsp.Serving

def messageOf : Cause → Option Value
  | .message msg => some msg
  | .computation _ _ => none

/-- The messages that have been handled, in order. -/
def handledIn (s : Session) : List Value :=
  s.trace.filterMap fun event => messageOf event.cause

/-- What is left of the batch in hand. -/
def pendingIn : MainLoop → List Value
  | .handling rest => rest
  | _ => []

/-- The messages handled are those of the batches, but for the rest of the last one. -/
structure Handled (p : ServerProcess) : Prop where
  running : isOver p.main = false →
    handledIn p.session ++ pendingIn p.main = p.batches.flatten
  prefix_ : handledIn p.session <+: p.batches.flatten

section Process

variable {prog : Program} {p p' : ServerProcess}

theorem handledIn_handle {s : Session} (hexited : s.exited = false) (msg : Value) :
    handledIn (s.handle prog.ctx prog.env msg) = handledIn s ++ [msg] := by
  rw [handle_running hexited, handledIn, List.filterMap_append]
  rfl

theorem handledIn_computeAndPush (s : Session) (uri : String) :
    handledIn (s.computeAndPush prog.ctx prog.env uri) = handledIn s := by
  rw [handledIn, Session.computeAndPush, List.filterMap_append]
  exact List.append_nil _

/-- A message is only ever handled while the session runs. -/
theorem running_of_handling (hs : Accounts prog p) {rest : List Value}
    (hmain : p.main = .handling rest) : p.session.exited = false := by
  have hstands := hs.stands
  rw [hmain] at hstands
  obtain ⟨-, -, -, -, hrunning⟩ := hstands
  exact hrunning

theorem Handled.of_all (h : handledIn p.session ++ pendingIn p.main = p.batches.flatten) :
    Handled p :=
  ⟨fun _ => h, h ▸ List.prefix_append _ _⟩

theorem Handled.main (hs : Accounts prog p) (hh : Handled p) (h : MainStep prog p p') :
    Handled p' := by
  have hall : ∀ {main : MainLoop}, p.main = main → isOver main = false →
      handledIn p.session ++ pendingIn main = p.batches.flatten := by
    rintro main rfl hover
    exact hh.running hover
  cases h with
  | receive main | collect main | handled main | computed main =>
      have hsame := hall main rfl
      exact .of_all hsame
  | @batch batch main =>
      have hbefore := hall main rfl
      rw [show pendingIn (.collecting batch) = [] from rfl, List.append_nil] at hbefore
      refine .of_all ?_
      rw [List.flatten_append, List.flatten_singleton, ← hbefore]
      rfl
  | @handle msg rest main =>
      refine .of_all ?_
      rw [handledIn_handle (running_of_handling hs main), List.append_assoc]
      exact hall main rfl
  | @exit msg rest main =>
      have hbefore := hall main rfl
      refine ⟨nofun, ?_⟩
      rw [handledIn_handle (running_of_handling hs main), ← hbefore]
      exact ⟨rest, List.append_assoc _ _ _⟩
  | @compute uri rest main =>
      have hbefore := hall main rfl
      refine .of_all ?_
      rw [handledIn_computeAndPush]
      exact hbefore
  | hangUp | leave | join => exact ⟨nofun, hh.prefix_⟩

theorem session_of_reader {a : Action} (h : Step prog p a p') (ha : a ≠ .main) :
    p'.session = p.session ∧ p'.main = p.main ∧ p'.batches = p.batches := by
  cases h with
  | read | endOfInput => exact ⟨rfl, rfl, rfl⟩
  | pull _ _ pull => cases pull <;> exact ⟨rfl, rfl, rfl⟩
  | main => exact absurd rfl ha

theorem handled_of_reachable (h : (process prog).Reachable p) : Handled p := by
  have hall : Accounts prog p ∧ Handled p := by
    refine h.invariant (P := fun p => Accounts prog p ∧ Handled p)
      ⟨accounts_started prog, .of_all rfl⟩ ?_
    rintro u a u' ⟨hs, hh⟩ hstep
    have hstep := step_cases hstep
    refine ⟨hs.step hstep, ?_⟩
    rcases eq_or_ne a .main with rfl | ha
    · cases hstep with
      | main main => exact hh.main hs main
    · obtain ⟨hsession, hmain, hbatches⟩ := session_of_reader hstep ha
      exact ⟨by rw [hsession, hmain, hbatches]; exact hh.running,
        by rw [hsession, hbatches]; exact hh.prefix_⟩
  exact hall.2

/-- What clearing the dirty list, handling a message and computing a diff preserve
holds of the session of the process at any time. -/
theorem session_invariant {P : Session → Prop} (hstart : P (.new prog.gitRef prog.wasmDir))
    (hclear : ∀ s, P s → P { s with dirty := [] })
    (hhandle : ∀ s msg, s.exited = false → P s → P (s.handle prog.ctx prog.env msg))
    (hcompute : ∀ s uri, P s → P (s.computeAndPush prog.ctx prog.env uri))
    (h : (process prog).Reachable p) : P p.session := by
  have hall : Accounts prog p ∧ P p.session := by
    refine h.invariant (P := fun p => Accounts prog p ∧ P p.session)
      ⟨accounts_started prog, hstart⟩ ?_
    rintro u a u' ⟨hs, hu⟩ hstep
    have hstep := step_cases hstep
    refine ⟨hs.step hstep, ?_⟩
    rcases eq_or_ne a .main with rfl | ha
    · cases hstep with
      | main main =>
          cases main with
          | batch => exact hclear _ hu
          | handle main | exit main => exact hhandle _ _ (running_of_handling hs main) hu
          | compute => exact hcompute _ _ hu
          | receive | hangUp | collect | handled | computed | leave | join => exact hu
    · rw [(session_of_reader hstep ha).1]
      exact hu
  exact hall.2

theorem recorded_of_reachable (h : (process prog).Reachable p) :
    Recorded prog.ctx prog.env p.session :=
  session_invariant ⟨⟨rfl, rfl, nofun⟩, Journal.explained_nil⟩
    (fun _ hs => ⟨hs.follows, hs.explained⟩) (fun _ msg hrunning hs => hs.handle hrunning msg)
    (fun _ uri hs => hs.compute uri) h

/-- What the server writes, it never takes back. -/
theorem output_step {a : Action} (hs : Accounts prog p) (h : Step prog p a p') :
    output p.session <+: output p'.session := by
  rcases eq_or_ne a .main with rfl | ha
  · cases h with
    | main main =>
        cases main with
        | handle main | exit main =>
            rw [output_handle prog.ctx prog.env (running_of_handling hs main)]
            exact List.prefix_append _ _
        | @compute uri =>
            obtain ⟨served, houtput, -, -⟩ :=
              output_computeAndPush prog.ctx prog.env p.session uri
            rw [houtput]
            exact List.prefix_append _ _
        | batch | receive | hangUp | collect | handled | computed | leave | join =>
            exact List.prefix_refl _
  · rw [(session_of_reader h ha).1]

end Process

/-- A message that, should it initialize the server, does not declare support for a
refresh of the lenses. -/
def Declines (msg : Value) : Prop :=
  declares false msg = false

/-- The server has not been told that a refresh of the lenses is supported. -/
structure Unasking (s : Session) : Prop where
  supports : s.server.supportsCodelensRefresh = false
  found : ∀ event ∈ s.trace, event.found.supportsCodelensRefresh = false

section Unasking

variable {prog : Program} {p : ServerProcess}

theorem Unasking.append {s s' : Session} (h : Unasking s) {event : Event}
    (htrace : s'.trace = s.trace ++ [event]) (hfound : event.found = s.server)
    (hsupports : s'.server.supportsCodelensRefresh = false) : Unasking s' where
  supports := hsupports
  found := by
    intro event' hmem
    rw [htrace] at hmem
    rcases List.mem_append.mp hmem with hold | hnew
    · exact h.found event' hold
    · rw [List.mem_singleton.mp hnew, hfound]
      exact h.supports

theorem unasking_of_reachable (h : (process prog).Reachable p)
    (hdeclines : ∀ msg ∈ handledIn p.session, Declines msg) : Unasking p.session := by
  refine session_invariant (P := fun s => (∀ msg ∈ handledIn s, Declines msg) → Unasking s)
    (fun _ => ⟨rfl, nofun⟩) ?_ ?_ ?_ h hdeclines
  · exact fun s hs hdeclines => ⟨(hs hdeclines).supports, (hs hdeclines).found⟩
  · intro s msg hrunning hs hdeclines
    rw [handledIn_handle hrunning] at hdeclines
    have hbefore := hs fun msg hmsg => hdeclines msg (List.mem_append_left _ hmsg)
    have hmsg := hdeclines msg (List.mem_append_right _ (List.mem_singleton_self msg))
    obtain ⟨hsupports, -⟩ := dispatch_supports prog.ctx (prog.env s.trace.length) s msg
    rw [handle_running hrunning]
    refine hbefore.append rfl rfl (hsupports.trans ?_)
    rw [hbefore.supports]
    exact hmsg
  · intro s uri hs hdeclines
    rw [handledIn_computeAndPush] at hdeclines
    have hbefore := hs hdeclines
    refine hbefore.append rfl rfl ?_
    show (cacheDiff s.server uri _).supportsCodelensRefresh = false
    unfold cacheDiff
    split <;> exact hbefore.supports

theorem get_id_of_pushes {ctx : Context} {server : ServerState}
    (hnone : server.supportsCodelensRefresh = false) (uri : String)
    (served : Option (String × Value)) {written : Value}
    (hwritten : written ∈ pushes ctx server uri served) : written.get "id" = none := by
  rcases served with _ | ⟨content, diff⟩
  · cases hwritten
  · rw [pushes, hnone] at hwritten
    rw [List.mem_singleton.mp hwritten]
    rfl

theorem get_id_of_requestId {msg id : Value} (h : requestId msg = some id) :
    msg.get "id" = some id := by
  unfold requestId at h
  split at h
  · cases h
  · split at h
    · cases h
    · exact h

theorem answers_singleton {id : Option Value} {answers : List Value} {written : Value}
    (h : List.Forall₂ Answers id.toList answers) (hwritten : written ∈ answers) :
    ∃ id', id = some id' ∧ answers = [written] ∧ Answers id' written := by
  rcases id with _ | id'
  · cases h
    cases hwritten
  · obtain ⟨answer, rest, hanswer, hrest, rfl⟩ := List.forall₂_cons_left_iff.mp h
    obtain rfl := List.forall₂_nil_left_iff.mp hrest
    obtain rfl := List.mem_singleton.mp hwritten
    exact ⟨id', rfl, rfl, hanswer⟩

/-- While it asks nothing itself, what the server writes with an id answers a message
that bears this id, and it is all that the server writes for it. -/
theorem answered_message (h : (process prog).Reachable p)
    (hdeclines : ∀ msg ∈ handledIn p.session, Declines msg) {written id : Value}
    (hwritten : written ∈ output p.session) (hid : written.get "id" = some id) :
    ∃ event ∈ p.session.trace, ∃ msg now, event.cause = .message msg ∧
      event.written = [written] ∧ msg.get "id" = some id ∧ Reacts prog.ctx now event := by
  obtain ⟨event, hevent, hmem⟩ := List.mem_flatMap.mp hwritten
  obtain ⟨front, -, hreacts⟩ := (recorded_of_reachable h).explained.of_mem hevent
  have hfound := (unasking_of_reachable h hdeclines).found event hevent
  have hcaused := hreacts
  rw [Reacts] at hcaused
  rcases hcause : event.cause with msg | ⟨uri, served⟩
  · rw [hcause] at hcaused
    obtain ⟨s, -, hdispatch⟩ := hcaused
    have hanswers := dispatch_answers prog.ctx (prog.env front.length) s msg
    rw [hdispatch] at hanswers
    obtain ⟨id', hrequest, hwhole, hanswer⟩ := answers_singleton hanswers hmem
    cases hid.symm.trans hanswer.id
    exact ⟨event, hevent, msg, _, hcause, hwhole, get_id_of_requestId hrequest, hreacts⟩
  · rw [hcause] at hcaused
    rw [hcaused.2] at hmem
    rw [get_id_of_pushes hfound uri served hmem] at hid
    cases hid

end Unasking

end IntentumdiffLsp.Answering
