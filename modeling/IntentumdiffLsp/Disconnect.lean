import IntentumdiffLsp.Delivery

/-!
The client after the reader task has cleared the pending map for the last time.
-/

namespace IntentumdiffLsp.Disconnect

open Foundations
open Foundations.ActionSystem
open Function
open IntentumdiffLsp.Json
open IntentumdiffLsp.Client
open IntentumdiffLsp.Client.LspClient
open IntentumdiffLsp.Correlation
open IntentumdiffLsp.Delivery

/-- No write of a request times out, and no request whose sender was not dropped
gets its frame written. -/
def Refused (sess : Session) (s : LspClient) (a : Action) : Prop :=
  ∀ c, IsRequest sess c → a ≠ .writeTimeout c ∧ (a = .flushed c → s.slot c ≠ .empty)

/-- A request that can only end with a connection error. -/
def Doomed (s : LspClient) (c : Nat) : Prop :=
  match s.stage c with
  | .idle | .idTaken | .queued | .writing => ∀ outcome, s.slot c ≠ .sent outcome
  | .awaiting => s.slot c = .closed
  | .failing error => ∃ msg, error = .connection msg
  | .expired => False
  | .returned result => ∃ msg, result = .error (.connection msg)

section Cleared

variable {sess : Session} {s s' : LspClient} {a : Action}

theorem cleared_kept (h : Step sess s a s') (hreader : s.reader = .cleared) :
    s'.reader = .cleared := by
  cases h with
  | dispatch reader => cases hreader.symm.trans reader
  | resolve reader => cases hreader.symm.trans reader
  | stop reader => cases hreader.symm.trans reader
  | clear reader => cases hreader.symm.trans reader
  | _ => exact hreader

theorem slot_of_cleared (hs : Correlated sess s) (h : Step sess s a s')
    (hreader : s.reader = .cleared) (c : Nat) :
    s'.slot c = s.slot c ∨ s'.slot c = (s.slot c).close := by
  rcases slot_moves hs h c with hsame | ⟨-, -, -, hclose⟩ | ⟨outcome, hresolving, -, -⟩
  · exact .inl hsame
  · exact .inr hclose
  · cases hreader.symm.trans hresolving

theorem Doomed.step (hs : Correlated sess s) (h : Step sess s a s')
    (hreader : s.reader = .cleared) {c : Nat} (hrequest : IsRequest sess c)
    (hrefused : Refused sess s a) (hdoomed : Doomed s c) : Doomed s' c := by
  have hunsent : (∀ outcome, s.slot c ≠ .sent outcome) → ∀ outcome, s'.slot c ≠ .sent outcome := by
    intro hold outcome
    rcases slot_of_cleared hs h hreader c with hsame | hclose
    · rw [hsame]
      exact hold outcome
    · rw [hclose]
      exact fun hsent => hold outcome (close_eq_sent.mp hsent)
  have hclosed : s.slot c = .closed → s'.slot c = .closed := by
    intro hold
    rcases slot_of_cleared hs h hreader c with hsame | hclose
    · rw [hsame, hold]
    · rw [hclose, hold]
      rfl
  unfold Doomed at hdoomed ⊢
  rcases h.stage_moves c with hsame | hmoves
  · rw [hsame]
    cases hstage : s.stage c <;> rw [hstage] at hdoomed
    case idle | idTaken | queued | writing => exact hunsent hdoomed
    case awaiting => exact hclosed hdoomed
    all_goals exact hdoomed
  · generalize hstage' : s'.stage c = stage' at hmoves
    cases hmoves with
    | taken _ stage | registered stage | locked stage =>
        rw [stage] at hdoomed
        exact hunsent hdoomed
    | written stage =>
        rw [stage] at hdoomed
        have hempty := (hrefused c hrequest).2 rfl
        refine hclosed ?_
        cases hslot : s.slot c with
        | empty => exact absurd hslot hempty
        | sent outcome => exact absurd hslot (hdoomed outcome)
        | closed => rfl
    | notified hnot => exact absurd hrequest hnot
    | sent _ hnot => exact absurd hrequest hnot
    | lost _ hnot => exact absurd hrequest hnot
    | failing _ _ cause =>
        cases cause with
        | timeout => exact absurd rfl (hrefused c hrequest).1
        | lost e => exact ⟨_, rfl⟩
    | expired stage slot =>
        rw [stage] at hdoomed
        cases hdoomed.symm.trans slot
    | answered stage slot =>
        rw [stage] at hdoomed
        cases hdoomed.symm.trans slot
    | closed => exact ⟨_, rfl⟩
    | failed stage =>
        rw [stage] at hdoomed
        obtain ⟨msg, rfl⟩ := hdoomed
        exact ⟨msg, rfl⟩
    | timedOut stage =>
        rw [stage] at hdoomed
        exact hdoomed.elim

end Cleared

end IntentumdiffLsp.Disconnect
