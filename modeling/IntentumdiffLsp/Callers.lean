import IntentumdiffLsp.Delivery
import IntentumdiffLsp.Wire

/-!
What a single call does over a run of the client.
-/

namespace IntentumdiffLsp.Callers

open Foundations
open Foundations.ActionSystem
open Function
open IntentumdiffLsp.Json
open IntentumdiffLsp.Client
open IntentumdiffLsp.Client.LspClient
open IntentumdiffLsp.Correlation
open IntentumdiffLsp.Delivery
open IntentumdiffLsp.Wire

/-- The call whose task makes a step. The reader task and the server make theirs for none. -/
def caller : Action → Option Nat
  | .takeId c | .notify c | .register c | .lock c | .accept c _ | .flushed c | .writeTimeout c
  | .writeError c _ | .expire c | .receive c | .unregister c => some c
  | .arrive _ | .dispatch | .resolve | .stop | .clear => none

/-- The transport has no part in the step: it neither takes bytes nor fails. -/
def isUnaided : Action → Bool
  | .accept _ _ | .flushed _ | .writeError _ _ => false
  | _ => true

/-- The step with which a call begins. -/
def startOf : Action → Option Nat
  | .takeId c | .notify c => some c
  | _ => none

def startsOf (c : Nat) (actions : List Action) : Nat :=
  actions.countP fun a => startOf a == some c

/-- How far a call is from its end. -/
def rank : Stage → Nat
  | .idle => 6
  | .idTaken => 5
  | .queued => 4
  | .writing => 3
  | .awaiting => 2
  | .failing _ | .expired => 1
  | .returned _ => 0

def hasReturned : Stage → Bool
  | .returned _ => true
  | _ => false

theorem hasReturned_iff {stage : Stage} :
    hasReturned stage = true ↔ ∃ outcome, stage = .returned outcome := by
  cases stage <;> simp [hasReturned]

section Single

variable {sess : Session} {s s' : LspClient} {a : Action} {c : Nat}

theorem Moves.caller_eq {stage : Stage} (h : Moves sess s c a stage) : caller a = some c := by
  cases h with
  | failing _ _ cause | lost _ _ cause => cases cause <;> rfl
  | _ => rfl

theorem Moves.rank_lt {stage : Stage} (h : Moves sess s c a stage) :
    rank stage < rank (s.stage c) := by
  cases h <;> simp_all [rank]

theorem stage_of_other (h : Step sess s a s') (hc : caller a ≠ some c) :
    s'.stage c = s.stage c := by
  rcases h.stage_moves c with hsame | hmoves
  · exact hsame
  · exact absurd (Moves.caller_eq hmoves) hc

theorem rank_le (h : Step sess s a s') (c : Nat) : rank (s'.stage c) ≤ rank (s.stage c) := by
  rcases h.stage_moves c with hsame | hmoves
  · rw [hsame]
  · exact (Moves.rank_lt hmoves).le

/-- A call that has not returned can make a step by itself, unless it waits for the
writer. -/
theorem exists_unaided_move (sess : Session)
    (hreturned : ∀ outcome, s.stage c ≠ .returned outcome)
    (hfree : s.stage c = .queued → s.writer = none) :
    ∃ a s', caller a = some c ∧ isUnaided a = true ∧ Step sess s a s' := by
  cases hstage : s.stage c with
  | idle =>
      rcases hcall : sess.calls c with ⟨method, params⟩ | ⟨method, params⟩
      · exact ⟨_, _, rfl, rfl, .takeId hcall hstage⟩
      · exact ⟨_, _, rfl, rfl, .notify hcall hstage⟩
  | idTaken => exact ⟨_, _, rfl, rfl, .register hstage⟩
  | queued => exact ⟨_, _, rfl, rfl, .lock hstage (hfree hstage)⟩
  | writing => exact ⟨_, _, rfl, rfl, .writeTimeout hstage⟩
  | awaiting =>
      cases hslot : s.slot c with
      | empty => exact ⟨_, _, rfl, rfl, .expire hstage hslot⟩
      | sent outcome => exact ⟨_, _, rfl, rfl, .receive hstage hslot⟩
      | closed => exact ⟨_, _, rfl, rfl, .receiveClosed hstage hslot⟩
  | failing error => exact ⟨_, _, rfl, rfl, .unregisterFailed hstage⟩
  | expired => exact ⟨_, _, rfl, rfl, .unregisterExpired hstage⟩
  | returned outcome => exact absurd hstage (hreturned outcome)

/-- A step of a call moves it, but for handing bytes to the transport. -/
theorem moves_of_caller (h : Step sess s a s') (hcaller : caller a = some c)
    (haccept : ∀ c n, a ≠ .accept c n) : Moves sess s c a (s'.stage c) := by
  have hmoved : ∀ c' stage, caller a = some c' → Moves sess s c' a stage →
      Moves sess s c a (update s.stage c' stage c) := by
    intro c' stage hcaller' hmoves
    obtain rfl := Option.some.inj (hcaller.symm.trans hcaller')
    rwa [update_self]
  cases h with
  | takeId call stage => exact hmoved _ _ rfl (.taken ⟨_, _, call⟩ stage)
  | register stage => exact hmoved _ _ rfl (.registered stage)
  | notify call stage => exact hmoved _ _ rfl (.notified (by simp [IsRequest, call]) stage)
  | lock stage free => exact hmoved _ _ rfl (.locked stage free)
  | accept => exact absurd rfl (haccept _ _)
  | flushed stage => exact hmoved _ _ rfl (moves_afterWrite stage)
  | writeTimeout stage => exact hmoved _ _ rfl (moves_afterFailure stage .timeout)
  | writeError stage => exact hmoved _ _ rfl (moves_afterFailure stage (.lost _))
  | expire stage slot => exact hmoved _ _ rfl (.expired stage slot)
  | receive stage slot => exact hmoved _ _ rfl (.answered stage slot)
  | receiveClosed stage slot => exact hmoved _ _ rfl (.closed stage slot)
  | unregisterFailed stage => exact hmoved _ _ rfl (.failed stage)
  | unregisterExpired stage => exact hmoved _ _ rfl (.timedOut stage)
  | dispatch | arrive | resolve | stop | clear => cases hcaller

/-- A call that has not returned can make a step, unless it waits for the writer. -/
theorem exists_move (sess : Session) (hreturned : ∀ outcome, s.stage c ≠ .returned outcome)
    (hfree : s.stage c = .queued → s.writer = none) :
    ∃ a s', caller a = some c ∧ Step sess s a s' ∧ rank (s'.stage c) < rank (s.stage c) := by
  obtain ⟨a, s', hcaller, hunaided, hstep⟩ := exists_unaided_move sess hreturned hfree
  have haccept : ∀ c n, a ≠ .accept c n := by
    rintro c n rfl
    cases hunaided
  exact ⟨a, s', hcaller, hstep, Moves.rank_lt (moves_of_caller hstep hcaller haccept)⟩

theorem startOf_moves (h : Step sess s a s') (hstart : startOf a = some c) :
    s.stage c = .idle ∧ s'.stage c ≠ .idle := by
  cases h with
  | takeId _ stage | notify _ stage =>
      cases hstart
      refine ⟨stage, ?_⟩
      rw [setStage_stage, update_self]
      exact Stage.noConfusion
  | _ => cases hstart

theorem idle_of_other (h : Step sess s a s') (hstart : startOf a ≠ some c) :
    s'.stage c = .idle ↔ s.stage c = .idle := by
  rcases h.stage_moves c with hsame | hmoves
  · rw [hsame]
  · generalize s'.stage c = stage at hmoves
    cases hmoves with
    | taken | notified => exact absurd rfl hstart
    | _ => simp_all

/-- A call begins once, and has begun if it is not idle. -/
theorem startsOf_run {actions : List Action}
    (hrun : (client sess).Run Anything .new actions s) (c : Nat) :
    (s.stage c = .idle ∧ startsOf c actions = 0) ∨
      (s.stage c ≠ .idle ∧ startsOf c actions = 1) := by
  refine hrun.trace_invariant
    (P := fun actions s => (s.stage c = .idle ∧ startsOf c actions = 0) ∨
      (s.stage c ≠ .idle ∧ startsOf c actions = 1)) (.inl ⟨rfl, rfl⟩) ?_
  intro done u a u' _ ih _ hstep
  have hstep := step_iff.mp hstep
  have hcount : startsOf c (done ++ [a]) = startsOf c done + startsOf c [a] :=
    List.countP_append
  rw [hcount]
  by_cases hstart : startOf a = some c
  · obtain ⟨hidle, hbegun⟩ := startOf_moves hstep hstart
    have hone : startsOf c [a] = 1 := by simp [startsOf, hstart]
    have hzero := ih.resolve_right fun h => h.1 hidle
    exact .inr ⟨hbegun, by omega⟩
  · have hnone : startsOf c [a] = 0 := by simp [startsOf, hstart]
    rw [ne_eq, idle_of_other hstep hstart, hnone, Nat.add_zero]
    exact ih

theorem exclusive_of_reachable (h : (client sess).Reachable s) : Exclusive sess s :=
  h.invariant exclusive_new fun _ _ _ hx hstep => hx.step (step_iff.mp hstep)

/-- What is known about a call that has returned. -/
structure Finished (sess : Session) (s : LspClient) : Prop where
  unlisted : ∀ c outcome, s.stage c = .returned outcome → ∀ key, s.pending key ≠ some c
  written : ∀ c value, ¬IsRequest sess c → s.stage c = .returned (.ok value) →
    s.accepted c = (s.frame sess c).length

theorem unlisted_step (hs : Correlated sess s) (ho : SenderOnce s) (hf : Finished sess s)
    (h : Step sess s a s') {outcome : Outcome} (hreturned : s'.stage c = .returned outcome)
    (key : Int) : s'.pending key ≠ some c := by
  intro hkey
  have hmoves := h.stage_moves c
  rw [hreturned] at hmoves
  have hpending : s.pending key = some c := by
    refine (pending_of_step h hkey).resolve_right fun htaken => ?_
    rcases hmoves with hsame | hmoves
    · cases hsame.trans htaken
    · cases hmoves <;> simp_all
  have hempty := ho.held key c hpending
  rcases hmoves with hsame | hmoves
  · exact hf.unlisted c outcome hsame.symm key hpending
  · have hrequest := hs.requests c key (hs.pending_iff.mp hpending).registered_mem
    have hgone : (s.removePending c).pending key ≠ some c := by
      rw [removePending_pending, (hs.pending_ids hpending).1, update_self]
      exact nofun
    cases hmoves with
    | sent _ hnot | lost _ hnot => exact hnot hrequest
    | answered _ slot | closed _ slot => cases hempty.symm.trans slot
    | failed | timedOut => cases h <;> exact hgone hkey

theorem written_step (hs : Correlated sess s) (hf : Finished sess s) (h : Step sess s a s')
    {value : Value} (hnot : ¬IsRequest sess c) (hreturned : s'.stage c = .returned (.ok value)) :
    s'.accepted c = (s'.frame sess c).length := by
  have hmoves := h.stage_moves c
  rw [hreturned] at hmoves
  rcases hmoves with hsame | hmoves
  · have hframe : s'.frame sess c = s.frame sess c :=
      Wire.Step.frame_eq h (by rw [← hsame]; exact Stage.noConfusion)
    have hold := hf.written c value hnot hsame.symm
    have haccepted : s'.accepted c = s.accepted c := by
      cases h with
      | @accept c' n stage =>
          have hne : c ≠ c' := by
            rintro rfl
            cases hsame.trans stage
          rw [transmit_accepted, update_of_ne hne]
      | dispatch => rw [dispatchMessage_accepted]
      | _ => rfl
    rw [hframe, haccepted, hold]
  · cases hmoves with
    | sent =>
        cases h with
        | flushed _ complete => exact complete
    | answered _ slot => exact absurd (Correlated.answer_request hs (hs.slots c _ slot)) hnot

theorem finished_of_reachable (h : (client sess).Reachable s) : Finished sess s := by
  have hall : (Correlated sess s ∧ SenderOnce s) ∧ Finished sess s := by
    refine h.invariant (P := fun s => (Correlated sess s ∧ SenderOnce s) ∧ Finished sess s)
      ⟨⟨correlated_new sess, senderOnce_new⟩, ⟨nofun, nofun⟩⟩ ?_
    rintro u a u' ⟨⟨hs, ho⟩, hf⟩ hstep
    have hstep := step_iff.mp hstep
    refine ⟨⟨hs.step hstep, ho.step hs hstep⟩, ⟨?_, ?_⟩⟩
    · intro c outcome hreturned key
      exact unlisted_step hs ho hf hstep hreturned key
    · intro c value hnot hreturned
      exact written_step hs hf hstep hnot hreturned
  exact hall.2

theorem wire_step (h : Step sess s a s') : s.wire <+: s'.wire := by
  by_cases ha : ∃ c n, a = .accept c n
  · obtain ⟨c, n, rfl⟩ := ha
    cases h with
    | accept => exact List.prefix_append _ _
  · obtain ⟨-, hwire⟩ := written_of_step h fun c n heq => ha ⟨c, n, heq⟩
    exact ⟨[], by rw [List.append_nil, hwire]⟩

theorem wire_run {cond : LspClient → Action → Prop} {actions : List Action}
    (hrun : (client sess).Run cond s actions s') : s.wire <+: s'.wire :=
  hrun.invariant (P := fun u => s.wire <+: u.wire) (List.prefix_refl _)
    fun _ _ _ hu _ hstep => hu.trans (wire_step (step_iff.mp hstep))

/-- A call in the map has begun and has not returned. -/
theorem stage_of_pending (h : (client sess).Reachable s) {key : Int}
    (hpending : s.pending key = some c) :
    s.stage c ≠ .idle ∧ ∀ outcome, s.stage c ≠ .returned outcome := by
  obtain ⟨hs, -⟩ := reachable_sound h
  have hf := finished_of_reachable h
  refine ⟨not_idle_of_registered (hs.pending_ids hpending).2, ?_⟩
  intro outcome hreturned
  exact hf.unlisted c outcome hreturned key hpending

end Single

end IntentumdiffLsp.Callers
