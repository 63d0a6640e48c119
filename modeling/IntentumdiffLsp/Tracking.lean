import IntentumdiffLsp.Callers
import IntentumdiffLsp.Disconnect

/-!
Where the frame of a call is, and where the answer of a request that is in flight.
-/

namespace IntentumdiffLsp.Tracking

open Foundations.ActionSystem
open Function
open IntentumdiffLsp.Client
open IntentumdiffLsp.Client.LspClient
open IntentumdiffLsp.Correlation
open IntentumdiffLsp.Delivery
open IntentumdiffLsp.Disconnect
open IntentumdiffLsp.Wire

/-- The whole frame of a call has been written. -/
def isWritten : Stage → Bool
  | .awaiting | .expired | .returned (.ok _) => true
  | _ => false

/-- A call waits for its answer, and succeeds, only behind its whole frame. -/
def Whole (sess : Session) (s : LspClient) : Prop :=
  ∀ c, isWritten (s.stage c) = true → s.accepted c = (s.frame sess c).length

section Written

variable {sess : Session} {s s' : LspClient} {a : Client.Action} {c : Nat}

/-- The frame of a call that is not being written stays as it is. -/
theorem accepted_of_step (h : Client.Step sess s a s') (hc : s.stage c ≠ .writing) :
    s'.accepted c = s.accepted c := by
  by_cases ha : ∃ c' n, a = .accept c' n
  · obtain ⟨c', n, rfl⟩ := ha
    cases h with
    | accept stage =>
        have hne : c ≠ c' := by
          rintro rfl
          exact hc stage
        rw [transmit_accepted, update_of_ne hne]
  · rw [(written_of_step h fun c' n heq => ha ⟨c', n, heq⟩).1]

theorem Whole.kept (hw : Whole sess s) (h : Client.Step sess s a s')
    (hc : isWritten (s.stage c) = true) : s'.accepted c = (s'.frame sess c).length := by
  have hidle : s.stage c ≠ .idle := by
    intro hidle
    rw [hidle] at hc
    cases hc
  have hwriting : s.stage c ≠ .writing := by
    intro hwriting
    rw [hwriting] at hc
    cases hc
  rw [accepted_of_step h hwriting, Wire.Step.frame_eq h hidle]
  exact hw c hc

theorem Whole.step (hw : Whole sess s) (h : Client.Step sess s a s') : Whole sess s' := by
  intro c hc
  rcases h.stage_moves c with hsame | hmoves
  · rw [hsame] at hc
    exact hw.kept h hc
  · generalize s'.stage c = stage at hmoves hc
    cases hmoves with
    | written | sent =>
        cases h with
        | flushed _ complete => exact complete
    | expired stage | answered stage => exact hw.kept h (by rw [stage]; rfl)
    | _ => cases hc

theorem whole_of_reachable (h : (client sess).Reachable s) : Whole sess s :=
  h.invariant nofun fun _ _ _ hw hstep => hw.step (Client.step_iff.mp hstep)

end Written

/-- What only a request comes to. -/
def isAsking : Stage → Bool
  | .awaiting | .failing _ | .expired => true
  | _ => false

/-- A request in flight is in the map, or its answer is with the reader task or in its
slot. -/
def Tracked (sess : Session) (s : LspClient) : Prop :=
  s.reader ≠ .cleared → ∀ c, IsRequest sess c → inFlight (s.stage c) = true →
    s.pending (s.ids c) = some c ∨ (∃ outcome, s.reader = .resolving c outcome) ∨
      ∃ outcome, s.slot c = .sent outcome

section Answers

variable {sess : Session} {s s' : LspClient} {a : Client.Action} {c : Nat}

theorem asking_step (hs : ∀ c, isAsking (s.stage c) = true → IsRequest sess c)
    (h : Client.Step sess s a s') (hc : isAsking (s'.stage c) = true) : IsRequest sess c := by
  rcases h.stage_moves c with hsame | hmoves
  · rw [hsame] at hc
    exact hs c hc
  · generalize s'.stage c = stage at hmoves hc
    cases hmoves with
    | written _ request | failing _ request => exact request
    | expired stage => exact hs c (by rw [stage]; rfl)
    | _ => cases hc

theorem request_of_asking (h : (client sess).Reachable s) (hc : isAsking (s.stage c) = true) :
    IsRequest sess c :=
  h.invariant (P := fun s => ∀ c, isAsking (s.stage c) = true → IsRequest sess c) nofun
    (fun _ _ _ hs hstep _ => asking_step hs (Client.step_iff.mp hstep)) c hc

/-- An entry leaves the map when its call ends, or with its answer. -/
theorem pending_kept {n : Nat} (hreachable : (client sess).Reachable s)
    (hf : FreshIds sess n s) (h : Client.Step sess s a s') (hreader : s'.reader ≠ .cleared)
    (hrequest : IsRequest sess c) (hflight : inFlight (s.stage c) = true)
    (hpending : s.pending (s.ids c) = some c) :
    s'.pending (s.ids c) = some c ∨ ∃ outcome, s'.reader = .resolving c outcome := by
  have hs := (reachable_sound hreachable).1
  have hidle : s.stage c ≠ .idle := by
    intro hidle
    rw [hidle] at hflight
    cases hflight
  -- Another call has another id.
  have hother : ∀ c', IsRequest sess c' → s.stage c' ≠ .idle → inFlight (s.stage c') = false →
      s.ids c ≠ s.ids c' := by
    intro c' hrequest' hidle' hnot hids
    obtain rfl := hf.injective c c' hrequest hrequest' hidle hidle' hids
    cases hflight.symm.trans hnot
  cases h with
  | @register c' stage =>
      have hne := hother c' (hs.taken c' stage) (by rw [stage]; nofun) (by rw [stage]; rfl)
      left
      rwa [setStage_pending, insertPending_pending, update_of_ne hne]
  | @unregisterFailed c' error stage =>
      have hne := hother c' (request_of_asking hreachable (by rw [stage]; rfl))
        (by rw [stage]; nofun) (by rw [stage]; rfl)
      left
      rwa [setStage_pending, removePending_pending, update_of_ne hne]
  | @unregisterExpired c' stage =>
      have hne := hother c' (request_of_asking hreachable (by rw [stage]; rfl))
        (by rw [stage]; nofun) (by rw [stage]; rfl)
      left
      rwa [setStage_pending, removePending_pending, update_of_ne hne]
  | @dispatch msg rest =>
      rcases eq_or_ne (messageId msg) (some (s.ids c)) with hid | hid
      · right
        exact ⟨_, by rw [dispatchMessage_routed hid hpending]⟩
      · left
        rwa [dispatchMessage_pending, if_neg hid]
  | clear => exact absurd rfl hreader
  | _ => exact .inl hpending

theorem Tracked.step {n : Nat} (hreachable : (client sess).Reachable s) (hf : FreshIds sess n s)
    (ht : Tracked sess s) (h : Client.Step sess s a s') : Tracked sess s' := by
  intro hreader c hrequest hflight
  obtain ⟨hs, ho⟩ := reachable_sound hreachable
  have hkept : inFlight (s.stage c) = true → s'.pending (s'.ids c) = some c ∨
      (∃ outcome, s'.reader = .resolving c outcome) ∨ ∃ outcome, s'.slot c = .sent outcome := by
    intro hold
    have hidle : s.stage c ≠ .idle := by
      intro hidle
      rw [hidle] at hold
      cases hold
    rw [h.ids_eq hidle]
    rcases ht (mt (cleared_kept h) hreader) c hrequest hold with hpending | ⟨outcome, hcarried⟩ |
      ⟨outcome, hsent⟩
    · exact (pending_kept hreachable hf h hreader hrequest hold hpending).imp_right .inl
    · rcases resolving_kept h hcarried with hsame | rfl
      · exact .inr (.inl ⟨outcome, hsame⟩)
      · refine .inr (.inr ⟨outcome, ?_⟩)
        have hreceives : (s.stage c).receives = true := by
          cases hstage : s.stage c <;> simp_all [inFlight, Stage.receives]
        rw [resolve_slot, if_pos hreceives, update_self]
    · exact .inr (.inr ⟨outcome, sent_kept hs ho h hsent⟩)
  rcases h.stage_moves c with hsame | hmoves
  · exact hkept (by rwa [← hsame])
  · generalize hstage : s'.stage c = stage at hmoves hflight
    cases hmoves with
    | registered stage =>
        cases h with
        | register =>
            left
            exact update_self _ _ _
    | locked stage => exact hkept (by rw [stage]; rfl)
    | written stage => exact hkept (by rw [stage]; rfl)
    | notified hnot => exact absurd hrequest hnot
    | _ => cases hflight

theorem tracked_of_run {actions : List Client.Action}
    (hrun : (client sess).Run Anything .new actions s) (hfew : idsTaken actions < 2 ^ 63) :
    Tracked sess s := by
  refine hrun.trace_invariant
    (P := fun actions s => idsTaken actions < 2 ^ 63 → Tracked sess s) (fun _ _ _ _ => nofun)
    ?_ hfew
  intro done u a u' hrun ih _ hstep hfew
  have hbefore : idsTaken done < 2 ^ 63 := by
    rw [idsTaken, List.countP_append] at hfew
    exact (Nat.le_add_right _ _).trans_lt hfew
  exact (ih hbefore).step hrun.reachable (freshIds_of_run hrun hbefore) (Client.step_iff.mp hstep)

end Answers

end IntentumdiffLsp.Tracking
