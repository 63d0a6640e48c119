import IntentumdiffLsp.Queueing
import IntentumdiffLsp.Release
import Mathlib.Algebra.Order.BigOperators.Group.List
import Mathlib.Algebra.Order.Ring.Nat

/-!
Nothing waits for good. Calls that share a client return with steps and timers of their
own, and so its owner comes to the end of `connect`, and of `shutdown` once the killed
child has exited or the transport has shut down.
-/

namespace IntentumdiffLsp.Progress

open Foundations.ActionSystem
open Function
open IntentumdiffLsp.Client
open IntentumdiffLsp.Wire
open IntentumdiffLsp.Callers
open IntentumdiffLsp.Queueing
open IntentumdiffLsp.Lifecycle

/-- A step that one of the calls makes by itself. -/
def OfCalls (calls : List Nat) (_ : QueuedClient) (a : Queueing.Action) : Prop :=
  a.isUnaided = true ∧ ∃ c ∈ calls, a.caller = some c

/-- Who holds the writer or waits for it is one of the calls. -/
structure Among (calls : List Nat) (s : QueuedClient) : Prop where
  holder : ∀ c, s.client.writer = some c → c ∈ calls
  waiters : ∀ c ∈ s.waiters, c ∈ calls

theorem rank_le_six (stage : Stage) : rank stage ≤ 6 := by
  cases stage <;> simp [rank]

section Calls

variable {sess : Session} {s t : LspClient} {a : Client.Action} {calls : List Nat} {c : Nat}

/-- Every step of a call brings it nearer to its end, unless it only hands on some bytes. -/
theorem rank_lt_of_own (h : Client.Step sess s a t) (hown : caller a = some c)
    (haccept : ∀ c n, a ≠ .accept c n) : rank (t.stage c) < rank (s.stage c) :=
  Moves.rank_lt (moves_of_caller h hown haccept)

theorem writer_of_step (hx : Exclusive sess s) (h : Client.Step sess s a t)
    (hwriter : t.writer = some c) : s.writer = some c ∨ caller a = some c := by
  have hwriting := ((hx.step h).holder c).mpr hwriter
  rcases h.stage_moves c with hsame | hmoves
  · exact .inl ((hx.holder c).mp (hsame.symm.trans hwriting))
  · exact .inr (Moves.caller_eq hmoves)

end Calls

/-- The steps that a call has before it at most, by itself. -/
def pace (s : QueuedClient) (c : Nat) : Nat :=
  match s.client.stage c with
  | .queued => if c ∈ s.waiters then 3 else 4
  | .writing => 2
  | stage => rank stage

def paces (calls : List Nat) (s : QueuedClient) : Nat :=
  (calls.map (pace s)).sum

section Queues

variable {sess : Session} {s t : QueuedClient} {a : Queueing.Action} {calls : List Nat} {c : Nat}

theorem pace_eq (hstage : t.client.stage c = s.client.stage c)
    (hwaiters : c ∈ t.waiters ↔ c ∈ s.waiters) : pace t c = pace s c := by
  simp only [pace, hstage, hwaiters]

/-- A move of a call that is not of the transport. -/
theorem pace_lt_of_moves {b : Client.Action} {stage : Stage}
    (hmoves : Moves sess s.client c b stage) (hunaided : Callers.isUnaided b = true)
    (hstage : t.client.stage c = stage) (hlock : b = .lock c → c ∈ s.waiters) :
    pace t c < pace s c := by
  have hqueued : (if c ∈ t.waiters then 3 else 4) < 5 := by split <;> decide
  cases hmoves with
  | taken _ stage | registered stage | notified _ stage =>
      simp only [pace, hstage, stage, rank]
      omega
  | locked stage => simp [pace, hstage, stage, hlock rfl]
  | written | sent => cases hunaided
  | failing stage _ cause | lost stage _ cause => simp [pace, hstage, stage, rank]
  | expired stage | answered stage | closed stage | failed stage | timedOut stage =>
      simp [pace, hstage, stage, rank]

/-- A step of a call by itself brings this call nearer to its end and no other one away
from it. -/
theorem pace_step (h : Queueing.Step sess s a t) (hunaided : a.isUnaided = true)
    (hcaller : a.caller = some c) : pace t c < pace s c ∧ ∀ c', pace t c' ≤ pace s c' := by
  have hmove : pace t c < pace s c ∧ ∀ c' ≠ c, pace t c' = pace s c' := by
    cases h with
    | ask stage new =>
        obtain rfl := Option.some.inj hcaller
        refine ⟨by simp [pace, stage, new], fun c' hne => pace_eq rfl ?_⟩
        simp [hne]
    | @lock c waiters client' first client =>
        obtain rfl := Option.some.inj hcaller
        have hmoves := moves_of_caller client rfl (by simp)
        have hfront : c ∈ s.waiters := first ▸ List.mem_cons_self
        refine ⟨pace_lt_of_moves hmoves rfl rfl fun _ => hfront, fun c' hne => ?_⟩
        refine pace_eq (stage_of_other client ?_) (by simp [first, hne])
        rintro ⟨⟩
        exact hne rfl
    | @client b client' other client =>
        have hmoves := moves_of_caller client hcaller (by rintro c n rfl; cases hunaided)
        refine ⟨pace_lt_of_moves hmoves hunaided rfl fun hb => absurd hb (other c), ?_⟩
        intro c' hne
        refine pace_eq (stage_of_other client fun hc' => hne ?_) Iff.rfl
        exact Option.some.inj (hc'.symm.trans hcaller)
  refine ⟨hmove.1, fun c' => ?_⟩
  by_cases hc' : c' = c
  · rw [hc']
    exact hmove.1.le
  · exact (hmove.2 c' hc').le

theorem paces_lt (h : Queueing.Step sess s a t) (hown : OfCalls calls s a) :
    paces calls t < paces calls s := by
  obtain ⟨hunaided, c, hc, hcaller⟩ := hown
  obtain ⟨hlt, hle⟩ := pace_step h hunaided hcaller
  exact List.sum_lt_sum _ _ (fun c' _ => hle c') ⟨c, hc, hlt⟩

theorem among_of_step (hm : Among calls s) (hx : Exclusive sess s.client)
    (h : Queueing.Step sess s a t) (hown : OfCalls calls s a) : Among calls t := by
  obtain ⟨-, c, hc, hcaller⟩ := hown
  have hholder : ∀ {b t'}, Client.Step sess s.client b t' → Callers.caller b = some c →
      ∀ c', t'.writer = some c' → c' ∈ calls := by
    intro b t' hclient hcaller c' hwriter
    rcases writer_of_step hx hclient hwriter with hold | hnew
    · exact hm.holder c' hold
    · obtain rfl := Option.some.inj (hcaller.symm.trans hnew)
      exact hc
  cases h with
  | ask =>
      obtain rfl := Option.some.inj hcaller
      refine ⟨hm.holder, List.forall_mem_append.mpr ⟨hm.waiters, ?_⟩⟩
      exact List.forall_mem_singleton.mpr hc
  | lock first client =>
      refine ⟨hholder client hcaller, fun c' hc' => hm.waiters c' ?_⟩
      rw [first]
      exact List.mem_cons_of_mem _ hc'
  | client _ client => exact ⟨hholder client hcaller, hm.waiters⟩

/-- A state that can be reached and in which the calls wait for each other alone. -/
def Ready (sess : Session) (calls : List Nat) (s : QueuedClient) : Prop :=
  (queueing sess).Reachable s ∧ Among calls s

theorem Ready.step (hr : Ready sess calls s) (hown : OfCalls calls s a)
    (h : (queueing sess).step s a = some t) : Ready sess calls t := by
  obtain ⟨hreachable, hm⟩ := hr
  have hx := exclusive_of_reachable (client_of_reachable hreachable)
  exact ⟨(Leads.of_step h).reachable hreachable,
    among_of_step hm hx (Queueing.step_iff.mp h) hown⟩

theorem Ready.run (hr : Ready sess calls s) {actions : List Queueing.Action}
    (hrun : (queueing sess).Run (OfCalls calls) s actions t) :
    Ready sess calls t ∧ actions.length + paces calls t ≤ paces calls s := by
  refine hrun.trace_invariant
    (P := fun done u => Ready sess calls u ∧ done.length + paces calls u ≤ paces calls s)
    ⟨hr, by simp⟩ ?_
  rintro done u a u' _ ⟨hu, hpaid⟩ hown hstep
  have hlt := paces_lt (Queueing.step_iff.mp hstep) hown
  refine ⟨hu.step hown hstep, ?_⟩
  rw [List.length_append, List.length_singleton]
  omega

end Queues

/-- The steps and timers of the owner alone. Nothing comes from the server, the transport
or the child, the reader task and the stderr task stand still, no wait fails, and the
client is not dropped. -/
def isOwn : Turn → Bool
  | .client a => (caller a).isSome && isUnaided a
  | .handshaken | .announced | .shutdown | .asked | .exited | .waited | .waitTimeout
  | .killed => true
  | _ => false

def Own (_ : Lifetime) (turn : Turn) : Prop :=
  isOwn turn = true

/-- Besides, a child that has been killed exits, and where there is no child
`writer.shutdown` returns, for which no timer runs. -/
inductive Helped (s : Lifetime) : Turn → Prop
  | own {turn} (own : isOwn turn = true) : Helped s turn
  | childExited {child} (process : s.process = some child) (killed : child.killed = true) :
      Helped s .childExited
  | writerShut (process : s.process = none) : Helped s .writerShut

section Rest

variable {l : Launch} {s s' : Lifetime} {turn : Turn} {c : Nat}

theorem client_of_step (h : Lifecycle.Step l s turn s') :
    s'.client = s.client ∨ ∃ a, Client.Step l.session s.client a s'.client := by
  cases h with
  | call _ _ client | reader _ client => exact .inr ⟨_, client⟩
  | _ => exact .inl rfl

theorem client_step (hreachable : (client l.session).Reachable s.client)
    (h : Lifecycle.Step l s turn s') : (client l.session).Reachable s'.client := by
  obtain ⟨actions, hrun⟩ := hreachable
  rcases client_of_step h with hsame | ⟨a, hclient⟩
  · rw [hsame]
    exact ⟨actions, hrun⟩
  · exact ⟨_, .next hrun trivial (Client.step_iff.mpr hclient)⟩

theorem client_reachable (h : (lifecycle l).Reachable s) :
    (client l.session).Reachable s.client :=
  h.invariant (P := fun s => (client l.session).Reachable s.client) ⟨[], .start⟩
    fun _ _ _ hreachable hstep => client_step hreachable (step_cases hstep)

/-- Only a call whose turn it is may be in the middle of its work. -/
def Tidy (l : Launch) (s : Lifetime) : Prop :=
  s.phase.isUsing = true → ∀ c, mayAct l s.phase c = false → isResting (s.client.stage c) = true

theorem isResting_of_returned {stage : Stage} {outcome : Outcome} (h : stage = .returned outcome) :
    isResting stage = true := by
  rw [h]
  rfl

/-- The call that the owner waits for. -/
def awaited : Phase → Option Nat
  | .handshaking => some initializeCall
  | .announcing => some initializedCall
  | .closing => some shutdownCall
  | .exiting => some exitCall
  | _ => none

theorem mayAct_iff {phase : Phase} {c' : Nat} (h : awaited phase = some c') :
    mayAct l phase c = true ↔ c = c' := by
  cases phase <;> cases h <;> rcases c with _ | _ | _ | _ | i <;>
    simp [mayAct, initializeCall, initializedCall, shutdownCall, exitCall]

theorem using_of_awaited {phase : Phase} (h : awaited phase = some c) : phase.isUsing = true := by
  cases phase <;> first | rfl | cases h

/-- Between two phases every call is at rest. -/
theorem Tidy.all_rest (ht : Tidy l s) (husing : s.phase.isUsing = true)
    (hdone : ∀ c, mayAct l s.phase c = true → isResting (s.client.stage c) = true) (c : Nat) :
    isResting (s.client.stage c) = true := by
  rcases hmay : mayAct l s.phase c with _ | _
  · exact ht husing c hmay
  · exact hdone c hmay

theorem Tidy.all_rest_of_returned (ht : Tidy l s) {c' : Nat} {outcome : Outcome}
    (hawaited : awaited s.phase = some c') (hreturned : s.client.stage c' = .returned outcome)
    (c : Nat) : isResting (s.client.stage c) = true := by
  refine ht.all_rest (using_of_awaited hawaited) ?_ c
  intro c hmay
  obtain rfl := (mayAct_iff hawaited).mp hmay
  exact isResting_of_returned hreturned

theorem Tidy.client (ht : Tidy l s) {a : Client.Action} {t : LspClient}
    (h : Client.Step l.session s.client a t)
    (hturn : ∀ c, caller a = some c → mayAct l s.phase c = true)
    (husing : s.phase.isUsing = true) (hbarred : mayAct l s.phase c = false) :
    isResting (t.stage c) = true := by
  have hother : caller a ≠ some c := by
    intro hc
    cases (hturn c hc).symm.trans hbarred
  rw [stage_of_other h hother]
  exact ht husing c hbarred

theorem isResting_user (hrest : usersRest l s.client = true)
    (hmay : mayAct l .connected c = true) : isResting (s.client.stage c) = true := by
  rcases c with _ | _ | _ | _ | i
  · cases hmay
  · cases hmay
  · cases hmay
  · cases hmay
  · have hi : i < l.calls.length := by simpa [mayAct] using hmay
    exact List.all_eq_true.mp hrest i (List.mem_range.mpr hi)

theorem Tidy.step (ht : Tidy l s) (h : Lifecycle.Step l s turn s') : Tidy l s' := by
  cases h with
  | @call a c client' own turn client =>
      intro husing c' hbarred
      refine ht.client client ?_ husing hbarred
      intro c'' hc''
      obtain rfl := Option.some.inj (own.symm.trans hc'')
      exact turn
  | reader own client =>
      intro husing c' hbarred
      refine ht.client client ?_ husing hbarred
      intro c'' hc''
      cases own.symm.trans hc''
  | handshaken phase stage | announced phase stage | asked phase stage =>
      intro _ c _
      exact ht.all_rest_of_returned (by rw [phase]; rfl) stage c
  | shutdown phase rest =>
      intro _ c _
      refine ht.all_rest (by rw [phase]; rfl) ?_ c
      intro c hmay
      rw [phase] at hmay
      exact isResting_user rest hmay
  | readerDropped | stderr | stderrEnded | childExited => exact ht
  | _ => exact nofun

theorem tidy_of_reachable (h : (lifecycle l).Reachable s) : Tidy l s :=
  h.invariant (fun _ _ _ => rfl) fun _ _ _ ht hstep => ht.step (step_cases hstep)

/-- As long as its call has not returned, the owner can make a step of it. -/
theorem call_moves (h : (lifecycle l).Reachable s) (hawaited : awaited s.phase = some c)
    (hreturned : ∀ outcome, s.client.stage c ≠ .returned outcome) :
    ∃ a client', caller a = some c ∧ isUnaided a = true ∧
      Lifecycle.step l s (.client a) = some { s with client := client' } ∧
      rank (client'.stage c) < rank (s.client.stage c) := by
  have hx := exclusive_of_reachable (client_reachable h)
  have hfree : s.client.stage c = .queued → s.client.writer = none := by
    intro hqueued
    by_contra hheld
    obtain ⟨c', hc'⟩ := Option.ne_none_iff_exists'.mp hheld
    have hwriting := (hx.holder c').mpr hc'
    have hbarred : mayAct l s.phase c' = false := by
      refine Bool.eq_false_iff.mpr fun hmay => ?_
      obtain rfl := (mayAct_iff hawaited).mp hmay
      cases hqueued.symm.trans hwriting
    have hrests := tidy_of_reachable h (using_of_awaited hawaited) c' hbarred
    rw [hwriting] at hrests
    cases hrests
  obtain ⟨a, client', hcaller, hunaided, hstep⟩ :=
    exists_unaided_move l.session hreturned hfree
  have haccept : ∀ c n, a ≠ .accept c n := by
    rintro c n rfl
    cases hunaided
  refine ⟨a, client', hcaller, hunaided, ?_, rank_lt_of_own hstep hcaller haccept⟩
  have hallowed : allowed l s a = true := by
    simp only [allowed, hcaller]
    exact (mayAct_iff hawaited).mpr rfl
  have hafter : s.readerTask.afterAction a = s.readerTask := by
    cases a <;> first | rfl | cases hcaller
  rw [Lifecycle.step, if_pos hallowed, Client.step_iff.mpr hstep, Option.map_some, hafter]

end Rest

/-- The phases of `connect`, and where it ends. -/
def connects : Phase → Bool
  | .handshaking | .announcing | .connected | .gone (.failed _) => true
  | _ => false

/-- The phases of `shutdown`, and where it ends. -/
def shutsDown : Phase → Bool
  | .closing | .exiting | .waiting | .killing | .lastWait | .closingWriter | .gone .closed => true
  | _ => false

/-- The steps that the owner has before it at most. -/
def distance (s : Lifetime) : Nat :=
  match s.phase with
  | .handshaking => rank (s.client.stage initializeCall) + 8
  | .announcing => rank (s.client.stage initializedCall) + 1
  | .closing => rank (s.client.stage shutdownCall) + 12
  | .exiting => rank (s.client.stage exitCall) + 5
  | .waiting => 4
  | .killing => if s.process.any Child.exited then 2 else 3
  | .lastWait | .closingWriter => 1
  | .connected | .gone _ => 0

/-- The owner has come to the end of what it does. -/
def AtRest (s : Lifetime) : Prop :=
  s.phase = .connected ∨ ∃ ending, s.phase = .gone ending

/-- There is a child to wait for, or none at all. -/
structure Attended (s : Lifetime) : Prop where
  child : s.phase = .waiting ∨ s.phase = .killing ∨ s.phase = .lastWait →
    s.process.isSome = true
  alone : s.phase = .closingWriter → s.process = none

section Steps

variable {l : Launch} {s s' t : Lifetime} {turn : Turn} {c : Nat}

theorem Attended.step (ha : Attended s) (h : Lifecycle.Step l s turn s') : Attended s' := by
  cases h with
  | call | reader | readerDropped | stderr | stderrEnded => exact ⟨ha.child, ha.alone⟩
  | exited _ _ process =>
      refine ⟨fun _ => ?_, by simp⟩
      simp only [Lifetime.killProcess, Lifetime.teardownTasks, process]
      split <;> rfl
  | exitedAlone _ _ process =>
      refine ⟨by simp, fun _ => ?_⟩
      simp only [Lifetime.killProcess, Lifetime.teardownTasks, process]
      split <;> rfl
  | waitTimeout phase =>
      refine ⟨fun _ => ?_, by simp⟩
      rw [Option.isSome_map]
      exact ha.child (.inl phase)
  | killed phase => exact ⟨fun _ => ha.child (.inr (.inl phase)), by simp⟩
  | childExited process =>
      refine ⟨fun _ => rfl, fun phase => ?_⟩
      cases process.symm.trans (ha.alone phase)
  | _ => exact ⟨by simp, by simp⟩

theorem attended_of_reachable (h : (lifecycle l).Reachable s) : Attended s :=
  h.invariant ⟨by simp [start, lifecycle], nofun⟩ fun _ _ _ ha hstep =>
    ha.step (step_cases hstep)

/-- A step that meets the condition and stays on the course brings the owner nearer to its
end. -/
def Nearer (l : Launch) (cond : Lifetime → Turn → Prop) (course : Phase → Bool)
    (s : Lifetime) : Prop :=
  ∃ turn t, cond s turn ∧ (lifecycle l).step s turn = some t ∧ course t.phase = true ∧
    distance t < distance s

theorem Nearer.helped {course : Phase → Bool} (h : Nearer l Own course s) :
    Nearer l Helped course s := by
  obtain ⟨turn, t, hown, hnearer⟩ := h
  exact ⟨turn, t, .own hown, hnearer⟩

theorem nearer_step {cond : Lifetime → Turn → Prop} {course : Phase → Bool}
    (hstep : Lifecycle.step l s turn = some t) (hmeets : cond s turn)
    (hcourse : course t.phase = true) (hlt : distance t < distance s) :
    Nearer l cond course s :=
  ⟨turn, t, hmeets, hstep, hcourse, hlt⟩

/-- The call that the owner waits for makes a step, or it has returned. -/
theorem nearer_awaiting {course : Phase → Bool} (h : (lifecycle l).Reachable s)
    (hawaited : awaited s.phase = some c) (hcourse : course s.phase = true)
    (hdone : ∀ outcome, s.client.stage c = .returned outcome → Nearer l Own course s) :
    Nearer l Own course s := by
  by_cases hreturned : ∃ outcome, s.client.stage c = .returned outcome
  · obtain ⟨outcome, hstage⟩ := hreturned
    exact hdone outcome hstage
  · obtain ⟨a, client', hcaller, hunaided, hstep, hlt⟩ :=
      call_moves h hawaited fun outcome hstage => hreturned ⟨outcome, hstage⟩
    refine ⟨.client a, _, ?_, hstep, hcourse, ?_⟩
    · simp [Own, isOwn, hcaller, hunaided]
    · rcases s with ⟨client, phase⟩
      cases phase <;> cases hawaited <;>
        simpa only [distance, Nat.add_lt_add_iff_right] using hlt

theorem nearer_handshaking (h : (lifecycle l).Reachable s) (hphase : s.phase = .handshaking) :
    Nearer l Own connects s := by
  have hcourse : connects s.phase = true := by rw [hphase]; rfl
  refine nearer_awaiting h (by rw [hphase]; rfl) hcourse fun outcome hstage => ?_
  rcases outcome with error | value
  · have hstep : Lifecycle.step l s .handshaken = some
        (s.teardownTasks.killProcess.drop (.failed (explained error s.ring.hint))) := by
      simp only [Lifecycle.step, hphase, hstage]
    refine nearer_step hstep rfl rfl ?_
    simp [distance, hphase]
  · have hstep : Lifecycle.step l s .handshaken = some { s with phase := .announcing } := by
      simp only [Lifecycle.step, hphase, hstage]
    refine nearer_step hstep rfl rfl ?_
    have := rank_le_six (s.client.stage initializedCall)
    simp only [distance, hphase]
    omega

theorem nearer_announcing (h : (lifecycle l).Reachable s) (hphase : s.phase = .announcing) :
    Nearer l Own connects s := by
  have hcourse : connects s.phase = true := by rw [hphase]; rfl
  refine nearer_awaiting h (by rw [hphase]; rfl) hcourse fun outcome hstage => ?_
  rcases outcome with error | value
  · have hstep : Lifecycle.step l s .announced = some (s.drop (.failed error)) := by
      simp only [Lifecycle.step, hphase, hstage]
    refine nearer_step hstep rfl rfl ?_
    simp [distance, hphase]
  · have hstep : Lifecycle.step l s .announced = some { s with phase := .connected } := by
      simp only [Lifecycle.step, hphase, hstage]
    refine nearer_step hstep rfl rfl ?_
    simp [distance, hphase]

theorem nearer_closing (h : (lifecycle l).Reachable s) (hphase : s.phase = .closing) :
    Nearer l Own shutsDown s := by
  have hcourse : shutsDown s.phase = true := by rw [hphase]; rfl
  refine nearer_awaiting h (by rw [hphase]; rfl) hcourse fun outcome hstage => ?_
  have hstep : Lifecycle.step l s .asked = some { s with phase := .exiting } := by
    simp only [Lifecycle.step, hphase, hstage]
  refine nearer_step hstep rfl rfl ?_
  have := rank_le_six (s.client.stage exitCall)
  simp only [distance, hphase]
  omega

theorem nearer_exiting (h : (lifecycle l).Reachable s) (hphase : s.phase = .exiting) :
    Nearer l Own shutsDown s := by
  have hcourse : shutsDown s.phase = true := by rw [hphase]; rfl
  refine nearer_awaiting h (by rw [hphase]; rfl) hcourse fun outcome hstage => ?_
  rcases hprocess : s.process with _ | child
  · have hstep : Lifecycle.step l s .exited =
        some { s.teardownTasks.killProcess with phase := .closingWriter } := by
      simp only [Lifecycle.step, hphase, hstage, hprocess]
    refine nearer_step hstep rfl rfl ?_
    simp only [distance, hphase]
    omega
  · have hstep : Lifecycle.step l s .exited =
        some { s.teardownTasks.killProcess with phase := .waiting } := by
      simp only [Lifecycle.step, hphase, hstage, hprocess]
    refine nearer_step hstep rfl rfl ?_
    simp only [distance, hphase]
    omega

theorem nearer_waiting (hphase : s.phase = .waiting) : Nearer l Own shutsDown s := by
  have hstep : Lifecycle.step l s .waitTimeout =
      some { s with process := s.process.map Child.startKill, phase := .killing } := by
    simp only [Lifecycle.step, hphase]
  refine nearer_step hstep rfl rfl ?_
  simp only [distance, hphase]
  split <;> omega

/-- The child has been killed by then, so that it may be expected to exit. -/
theorem nearer_killing (h : (lifecycle l).Reachable s) (hphase : s.phase = .killing) :
    Nearer l Helped shutsDown s := by
  obtain ⟨child, hprocess⟩ :=
    Option.isSome_iff_exists.mp ((attended_of_reachable h).child (.inr (.inl hphase)))
  have hreleased := (Release.stands_of_reachable h).released (by rw [hphase]; rfl)
  rcases hexited : child.exited with _ | _
  · have hkilled : child.killed = true := by
      refine (hreleased.child child hprocess).resolve_right ?_
      rw [hexited]
      exact Bool.false_ne_true
    have hstep : Lifecycle.step l s .childExited =
        some { s with process := some { child with exited := true } } := by
      simp only [Lifecycle.step, hprocess, hexited, Bool.false_eq_true, if_false]
    refine nearer_step hstep (.childExited hprocess hkilled) (by rw [hphase]; rfl) ?_
    simp [distance, hphase, hprocess, hexited]
  · have hstep : Lifecycle.step l s .killed = some { s with phase := .lastWait } := by
      simp only [Lifecycle.step, hphase, hprocess, hexited, if_true]
    refine nearer_step hstep (.own rfl) rfl ?_
    simp [distance, hphase, hprocess, hexited]

theorem nearer_lastWait (hphase : s.phase = .lastWait) : Nearer l Own shutsDown s := by
  have hstep : Lifecycle.step l s .waitTimeout = some (s.drop .closed) := by
    simp only [Lifecycle.step, hphase]
  exact nearer_step hstep rfl rfl (by simp [distance, hphase])

theorem nearer_closingWriter (h : (lifecycle l).Reachable s) (hphase : s.phase = .closingWriter) :
    Nearer l Helped shutsDown s := by
  have hstep : Lifecycle.step l s .writerShut = some (s.drop .closed) := by
    simp only [Lifecycle.step, hphase]
  have hnone := (attended_of_reachable h).alone hphase
  exact nearer_step hstep (.writerShut hnone) rfl (by simp [distance, hphase])

theorem nearer_of_connects (h : (lifecycle l).Reachable s) (hcourse : connects s.phase = true)
    (hrest : ¬AtRest s) : Nearer l Own connects s := by
  cases hphase : s.phase with
  | handshaking => exact nearer_handshaking h hphase
  | announcing => exact nearer_announcing h hphase
  | connected => exact absurd (.inl hphase) hrest
  | gone ending => exact absurd (.inr ⟨ending, hphase⟩) hrest
  | _ =>
      rw [hphase] at hcourse
      cases hcourse

theorem nearer_of_shutsDown (h : (lifecycle l).Reachable s) (hcourse : shutsDown s.phase = true)
    (hrest : ¬AtRest s) : Nearer l Helped shutsDown s := by
  cases hphase : s.phase with
  | closing => exact (nearer_closing h hphase).helped
  | exiting => exact (nearer_exiting h hphase).helped
  | waiting => exact (nearer_waiting hphase).helped
  | killing => exact nearer_killing h hphase
  | lastWait => exact (nearer_lastWait hphase).helped
  | closingWriter => exact nearer_closingWriter h hphase
  | gone ending => exact absurd (.inr ⟨ending, hphase⟩) hrest
  | _ =>
      rw [hphase] at hcourse
      cases hcourse

theorem distance_le (s : Lifetime) : distance s ≤ 18 := by
  have hrank := fun c => rank_le_six (s.client.stage c)
  have hopening := hrank initializeCall
  have hopened := hrank initializedCall
  have hclosing := hrank shutdownCall
  have hexiting := hrank exitCall
  unfold distance
  split <;> (try split) <;> omega

theorem distance_le_of_connects (h : connects s.phase = true) : distance s ≤ 14 := by
  cases hphase : s.phase with
  | handshaking =>
      have := rank_le_six (s.client.stage initializeCall)
      simp only [distance, hphase]
      omega
  | announcing =>
      have := rank_le_six (s.client.stage initializedCall)
      simp only [distance, hphase]
      omega
  | connected | gone => simp [distance, hphase]
  | _ =>
      rw [hphase] at h
      cases h

/-- Where the owner can always come nearer to its end, it comes there. -/
theorem run_to_rest {cond : Lifetime → Turn → Prop} {course : Phase → Bool}
    (hnearer : ∀ t, (lifecycle l).Reachable t → course t.phase = true → ¬AtRest t →
      Nearer l cond course t) (h : (lifecycle l).Reachable s) (hcourse : course s.phase = true) :
    ∃ actions t, (lifecycle l).Run cond s actions t ∧ course t.phase = true ∧ AtRest t ∧
      actions.length ≤ distance s := by
  have happroach : ∀ t, (lifecycle l).Reachable t ∧ course t.phase = true → ¬AtRest t →
      ∃ turn t', cond t turn ∧ (lifecycle l).step t turn = some t' ∧
        ((lifecycle l).Reachable t' ∧ course t'.phase = true) ∧ distance t' < distance t := by
    rintro t ⟨hreachable, ht⟩ hrest
    obtain ⟨turn, t', hmeets, hstep, ht', hlt⟩ := hnearer t hreachable ht hrest
    exact ⟨turn, t', hmeets, hstep, ⟨(Leads.of_step hstep).reachable hreachable, ht'⟩, hlt⟩
  obtain ⟨actions, t, hrun, ⟨-, ht⟩, hrest, hlength⟩ :=
    run_to_goal distance happroach ⟨h, hcourse⟩
  exact ⟨actions, t, hrun, ht, hrest, hlength⟩

end Steps

/-- With steps of its own `connect` comes to its end in at most fourteen of them: whatever
the server and the transport do or do not do, no call waits for good, for another one or
for an answer. With at most eighteen `shutdown` does, if the child that it has killed exits
or, where there is no child, the transport lets itself be shut down. -/
theorem owner_progresses (l : Launch) (s : Lifetime) (h : (lifecycle l).Reachable s) :
    (connects s.phase = true → ∃ actions t, (lifecycle l).Run Own s actions t ∧
      actions.length ≤ 14 ∧
      (t.phase = .connected ∨ ∃ error, t.phase = .gone (.failed error))) ∧
    (shutsDown s.phase = true → ∃ actions t, (lifecycle l).Run Helped s actions t ∧
      actions.length ≤ 18 ∧ t.phase = .gone .closed) := by
  constructor
  · intro hs
    obtain ⟨actions, t, hrun, ht, hrest, hlength⟩ :=
      run_to_rest (fun _ => nearer_of_connects) h hs
    refine ⟨actions, t, hrun, hlength.trans (distance_le_of_connects hs), ?_⟩
    rcases hrest with hconnected | ⟨error | _ | _, hgone⟩
    · exact .inl hconnected
    · exact .inr ⟨error, hgone⟩
    · rw [hgone] at ht
      cases ht
    · rw [hgone] at ht
      cases ht
  · intro hs
    obtain ⟨actions, t, hrun, ht, hrest, hlength⟩ :=
      run_to_rest (fun _ => nearer_of_shutsDown) h hs
    refine ⟨actions, t, hrun, hlength.trans (distance_le s), ?_⟩
    rcases hrest with hconnected | ⟨error | _ | _, hgone⟩
    · rw [hconnected] at ht
      cases ht
    · rw [hgone] at ht
      cases ht
    · exact hgone
    · rw [hgone] at ht
      cases ht

theorem owner_progresses_shutdown :
    ∃ actions t, (lifecycle quietLaunch).Run Helped { connectedLifetime with phase := .closing }
      actions t ∧ actions.length ≤ 18 ∧ t.phase = .gone .closed := by
  have hconnected := run_of_play connectedLifetime_play
  have hclosing : (lifecycle quietLaunch).Run Anything connectedLifetime [.shutdown]
      { connectedLifetime with phase := .closing } := run_of_play rfl
  exact (owner_progresses quietLaunch _ ⟨_, hconnected.append hclosing⟩).2 rfl

end IntentumdiffLsp.Progress
