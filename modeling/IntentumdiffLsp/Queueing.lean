import IntentumdiffLsp.Callers

/-!
The queue for the writer. Its mutex is fair: it goes to the calls in the order in which
they have asked for it.
-/

namespace IntentumdiffLsp.Queueing

open Foundations.ActionSystem
open IntentumdiffLsp.Client
open IntentumdiffLsp.Callers

/-- `waiters` are the calls that have asked for the writer, the next one in front. -/
structure QueuedClient where
  client : LspClient
  waiters : List Nat

inductive Action where
  | ask (c : Nat)
  | client (a : Client.Action)

def Action.caller : Action → Option Nat
  | .ask c => some c
  | .client a => Callers.caller a

def Action.isUnaided : Action → Bool
  | .ask _ => true
  | .client a => Callers.isUnaided a

def step (sess : Session) (s : QueuedClient) : Action → Option QueuedClient
  -- `self.writer.lock()` is polled for the first time
  | .ask c =>
      match s.client.stage c with
      | .queued =>
          if c ∈ s.waiters then none else some { s with waiters := s.waiters ++ [c] }
      | _ => none
  -- the mutex is handed to the front of its queue, and to nobody else
  | .client (.lock c) =>
      match s.waiters with
      | first :: waiters =>
          if first = c then
            (Client.step sess s.client (.lock c)).map fun client =>
              { client := client, waiters := waiters }
          else none
      | [] => none
  | .client a => (Client.step sess s.client a).map fun client => { s with client := client }

def queueing (sess : Session) : Foundations.ActionSystem QueuedClient Action where
  init := { client := .new, waiters := [] }
  step := step sess

/-- What a step can do, with its guards. -/
inductive Step (sess : Session) (s : QueuedClient) : Action → QueuedClient → Prop
  | ask {c} (stage : s.client.stage c = .queued) (new : c ∉ s.waiters) :
      Step sess s (.ask c) { s with waiters := s.waiters ++ [c] }
  | lock {c waiters client'} (first : s.waiters = c :: waiters)
      (client : Client.Step sess s.client (.lock c) client') :
      Step sess s (.client (.lock c)) { client := client', waiters := waiters }
  | client {a client'} (other : ∀ c, a ≠ .lock c)
      (client : Client.Step sess s.client a client') :
      Step sess s (.client a) { s with client := client' }

theorem step_iff {sess : Session} {s s' : QueuedClient} {a : Action} :
    step sess s a = some s' ↔ Step sess s a s' := by
  constructor
  · intro h
    unfold step at h
    split at h
    · split at h
      · split at h
        · cases h
        · cases h
          exact .ask ‹_› ‹_›
      · cases h
    · split at h
      · split at h
        · rename_i hwaiters heq
          subst heq
          obtain ⟨client, hclient, rfl⟩ := Option.map_eq_some_iff.mp h
          exact .lock hwaiters (Client.step_iff.mp hclient)
        · cases h
      · cases h
    · rename_i hother
      obtain ⟨client, hclient, rfl⟩ := Option.map_eq_some_iff.mp h
      exact .client hother (Client.step_iff.mp hclient)
  · intro h
    cases h with
    | ask stage new => simp only [step, stage, if_neg new]
    | lock first client => simp [step, first, Client.step_iff.mpr client]
    | @client a client' other client =>
        have hclient := Client.step_iff.mpr client
        cases a with
        | lock c => exact absurd rfl (other c)
        | _ => simp [step, hclient]

/-- Who waits for the writer has not got it, and waits at one place. -/
structure Lined (s : QueuedClient) : Prop where
  queued : ∀ c ∈ s.waiters, s.client.stage c = .queued
  nodup : s.waiters.Nodup

section Runs

variable {sess : Session} {s s' : QueuedClient} {a : Action} {c : Nat}

/-- The queue takes nothing from what is known about the client. -/
theorem client_of_reachable (h : (queueing sess).Reachable s) :
    (client sess).Reachable s.client := by
  refine h.invariant (P := fun s => (client sess).Reachable s.client) ⟨[], .start⟩ ?_
  intro u a u' hreachable hstep
  cases step_iff.mp hstep with
  | ask => exact hreachable
  | lock _ client | client _ client =>
      have hstep : (Client.client sess).Leads u.client _ :=
        Leads.of_step (Client.step_iff.mpr client)
      exact hstep.reachable hreachable

theorem queued_kept {t : LspClient} {b : Client.Action} (h : Client.Step sess s.client b t)
    (hlock : b ≠ .lock c) (hqueued : s.client.stage c = .queued) : t.stage c = .queued := by
  rcases h.stage_moves c with hsame | hmoves
  · exact hsame.trans hqueued
  · generalize t.stage c = stage at hmoves
    cases hmoves with
    | locked => exact absurd rfl hlock
    | _ => simp_all

theorem Lined.step (hl : Lined s) (h : Step sess s a s') : Lined s' := by
  cases h with
  | @ask c stage new =>
      refine ⟨?_, ?_⟩
      · intro c' hc'
        rcases List.mem_append.mp hc' with hold | hnew
        · exact hl.queued c' hold
        · rw [List.mem_singleton.mp hnew]
          exact stage
      · exact hl.nodup.append (List.nodup_singleton c) (List.disjoint_singleton.mpr new)
  | @lock c waiters client' first client =>
      have hnodup := hl.nodup
      rw [first, List.nodup_cons] at hnodup
      refine ⟨?_, hnodup.2⟩
      intro c' hc'
      refine queued_kept client ?_ (hl.queued c' (first ▸ List.mem_cons_of_mem _ hc'))
      rintro ⟨⟩
      exact hnodup.1 hc'
  | client other client =>
      exact ⟨fun c' hc' => queued_kept client (other c') (hl.queued c' hc'), hl.nodup⟩

end Runs

end IntentumdiffLsp.Queueing
