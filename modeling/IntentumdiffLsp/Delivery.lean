import IntentumdiffLsp.Correlation

/-!
An outcome that the reader task holds or has sent reaches its request.
-/

namespace IntentumdiffLsp.Delivery

open Foundations
open Foundations.ActionSystem
open Function
open IntentumdiffLsp.Json
open IntentumdiffLsp.Client
open IntentumdiffLsp.Client.LspClient
open IntentumdiffLsp.Correlation

/-- The sender of a request is in one place at a time: not created, in the map,
or with the reader task. Nothing is in the slot before it is used. -/
structure SenderOnce (s : LspClient) : Prop where
  unsent : ∀ c, (s.stage c).isRegistered = false → s.slot c = .empty
  held : ∀ id c, s.pending id = some c → s.slot c = .empty
  carried : ∀ c outcome, s.reader = .resolving c outcome →
    s.slot c = .empty ∧ ∀ id, s.pending id ≠ some c

section Sender

variable {sess : Session} {s s' : LspClient} {a : Action}

theorem dropSender_of_ne {key : Int} {c : Nat} (h : s.pending key ≠ some c) :
    s.dropSender key c = s.slot c := by
  rcases hkey : s.pending key with _ | c'
  · simp only [dropSender, hkey]
  · have hne : c ≠ c' := by
      rintro rfl
      exact h hkey
    simp only [dropSender, hkey, update_of_ne hne]

theorem dropSender_self {key : Int} {c : Nat} (h : s.pending key = some c) :
    s.dropSender key c = (s.slot c).close := by
  simp only [dropSender, h, update_self]

/-- What a step can do to the slot of a call: its sender leaves the map and is
dropped, or the reader task uses it. -/
theorem slot_moves (hs : Correlated sess s) (h : Step sess s a s') (c : Nat) :
    s'.slot c = s.slot c ∨
      (∃ key, s.pending key = some c ∧ s'.pending key ≠ some c ∧
        s'.slot c = (s.slot c).close) ∨
      ∃ outcome, s.reader = .resolving c outcome ∧ s'.reader = .reading ∧
        s'.slot c = .sent outcome := by
  have hremove : ∀ c', (s.removePending c').slot c = s.slot c ∨
      ∃ key, s.pending key = some c ∧ (s.removePending c').pending key ≠ some c ∧
        (s.removePending c').slot c = (s.slot c).close := by
    intro c'
    by_cases hkey : s.pending (s.ids c') = some c
    · exact .inr ⟨_, hkey, by simp, dropSender_self hkey⟩
    · exact .inl (dropSender_of_ne hkey)
  cases h with
  | @register c' stage =>
      by_cases hkey : s.pending (s.ids c') = some c
      · have hne : c' ≠ c := by
          rintro rfl
          have hregistered := (hs.pending_ids hkey).2
          rw [stage] at hregistered
          cases hregistered
        exact .inr (.inl ⟨_, hkey, by simpa using hne, dropSender_self hkey⟩)
      · exact .inl (dropSender_of_ne hkey)
  | unregisterFailed => exact (hremove _).imp_right .inl
  | unregisterExpired => exact (hremove _).imp_right .inl
  | clear =>
      rw [clearPending_slot]
      split
      · rename_i hkey
        exact .inr (.inl ⟨_, hkey, nofun, rfl⟩)
      · exact .inl rfl
  | dispatch =>
      rw [dispatchMessage_slot]
      exact .inl rfl
  | @resolve c' outcome reader =>
      rw [resolve_slot]
      split
      · by_cases hc : c = c'
        · subst hc
          exact .inr (.inr ⟨outcome, reader, rfl, update_self _ _ _⟩)
        · exact .inl (update_of_ne hc _ _)
      · exact .inl rfl
  | _ => exact .inl rfl

theorem pending_of_step (h : Step sess s a s') {key : Int} {c : Nat}
    (hpending : s'.pending key = some c) :
    s.pending key = some c ∨ s.stage c = .idTaken := by
  cases h with
  | register stage =>
      rw [setStage_pending, insertPending_pending, update_apply] at hpending
      split at hpending
      · cases hpending
        exact .inr stage
      · exact .inl hpending
  | unregisterFailed | unregisterExpired =>
      rw [setStage_pending, removePending_pending, update_apply] at hpending
      split at hpending
      · cases hpending
      · exact .inl hpending
  | clear => cases hpending
  | dispatch =>
      rw [dispatchMessage_pending] at hpending
      split at hpending
      · cases hpending
      · exact .inl hpending
  | _ => exact .inl hpending

theorem resolving_of_step (h : Step sess s a s') {c : Nat} {outcome : Outcome}
    (hreader : s'.reader = .resolving c outcome) :
    s.reader = .resolving c outcome ∨
      ∃ key, s.pending key = some c ∧ s'.pending key = none ∧ s'.slot = s.slot ∧
        ∀ key', s'.pending key' = some c → s.pending key' = some c := by
  cases h with
  | @dispatch msg rest reader inbox =>
      rcases dispatchMessage_cases s msg with hroute | ⟨key, c', hkey, hpending⟩
      · rw [dispatchMessage_reader, hroute] at hreader
        exact .inl hreader
      · rw [dispatchMessage_reader, hkey, Option.bind_some, hpending] at hreader
        cases hreader
        refine .inr ⟨key, hpending, ?_, dispatchMessage_slot s msg rest, ?_⟩
        · rw [dispatchMessage_pending, if_pos hkey]
        · intro key' hkey'
          rw [dispatchMessage_pending] at hkey'
          split at hkey'
          · cases hkey'
          · exact hkey'
  | resolve | stop | clear => cases hreader
  | _ => exact .inl hreader

theorem unregistered_not_pending (hs : Correlated sess s) {c : Nat}
    (hc : (s.stage c).isRegistered = false) (key : Int) : s.pending key ≠ some c := by
  intro hkey
  rw [(hs.pending_ids hkey).2] at hc
  cases hc

/-- A call whose outcome the reader carries is not registered again. -/
theorem pending_of_carried (hs : Correlated sess s) (h : Step sess s a s') {c : Nat}
    {outcome : Outcome} (hreader : s.reader = .resolving c outcome) {key : Int}
    (hpending : s'.pending key = some c) : s.pending key = some c := by
  rcases pending_of_step h hpending with hold | htaken
  · exact hold
  · have hregistered := hs.answer_registered (hs.resolving c outcome hreader)
    rw [htaken] at hregistered
    cases hregistered

theorem SenderOnce.step (hs : Correlated sess s) (ho : SenderOnce s) (h : Step sess s a s') :
    SenderOnce s' where
  unsent c hc := by
    have hold : (s.stage c).isRegistered = false := by
      by_contra hne
      rw [h.registered_stage (by simpa using hne)] at hc
      cases hc
    rcases slot_moves hs h c with hslot | ⟨key, hkey, -, -⟩ | ⟨outcome, hreader, -, -⟩
    · rw [hslot]
      exact ho.unsent c hold
    · exact absurd hkey (unregistered_not_pending hs hold key)
    · rw [hs.answer_registered (hs.resolving c outcome hreader)] at hold
      cases hold
  -- A sender in the map has not left it: one that left would be gone from this key.
  held key c hpending := by
    have hempty : s.slot c = .empty := by
      rcases pending_of_step h hpending with hold | htaken
      · exact ho.held key c hold
      · exact ho.unsent c (by rw [htaken]; rfl)
    rcases slot_moves hs h c with hslot | ⟨key', hkey', hgone, -⟩ | ⟨outcome, hreader, -, -⟩
    · rw [hslot, hempty]
    · exfalso
      rcases pending_of_step h hpending with hold | htaken
      · rw [(hs.pending_ids hold).1.symm, (hs.pending_ids hkey').1] at hpending
        exact hgone hpending
      · exact unregistered_not_pending hs (by rw [htaken]; rfl) key' hkey'
    · have hold := pending_of_carried hs h hreader hpending
      exact absurd hold ((ho.carried c outcome hreader).2 key)
  carried c outcome hreader := by
    rcases resolving_of_step h hreader with hold | ⟨key, hkey, hgone, hslot, hsame⟩
    · obtain ⟨hempty, hout⟩ := ho.carried c outcome hold
      constructor
      · rcases slot_moves hs h c with hslot | ⟨key, hkey, -, -⟩ | ⟨outcome', -, hreading, -⟩
        · rw [hslot, hempty]
        · exact absurd hkey (hout key)
        · rw [hreading] at hreader
          cases hreader
      · intro key hpending
        exact hout key (pending_of_carried hs h hold hpending)
    · constructor
      · rw [hslot]
        exact ho.held key c hkey
      · intro key' hkey'
        have hsame := hsame key' hkey'
        rw [(hs.pending_ids hsame).1.symm, (hs.pending_ids hkey).1, hgone] at hkey'
        cases hkey'

theorem senderOnce_new : SenderOnce .new where
  unsent _ _ := rfl
  held _ _ h := by cases h
  carried _ _ h := by cases h

theorem reachable_sound (h : (client sess).Reachable s) : Correlated sess s ∧ SenderOnce s :=
  h.invariant (P := fun s => Correlated sess s ∧ SenderOnce s)
    ⟨correlated_new sess, senderOnce_new⟩ fun _ _ _ hs hstep =>
      ⟨hs.1.step (step_iff.mp hstep), hs.2.step hs.1 (step_iff.mp hstep)⟩

end Sender

/-- The request has registered and has neither failed nor come to an end. -/
def inFlight : Stage → Bool
  | .queued | .writing | .awaiting => true
  | _ => false

/-- The outcome is on its way to the request, or has arrived. -/
def Owed (s : LspClient) (c : Nat) (outcome : Outcome) : Prop :=
  (inFlight (s.stage c) = true ∧
      (s.reader = .resolving c outcome ∨ s.slot c = .sent outcome)) ∨
    s.stage c = .returned outcome

/-- The write of the frame of `c` does not fail, and its timer does not fire
while the reader task is about to send. -/
def Punctual (c : Nat) (s : LspClient) (a : Action) : Prop :=
  a ≠ .writeTimeout c ∧ (∀ e, a ≠ .writeError c e) ∧
    (a = .expire c → ∀ outcome, s.reader ≠ .resolving c outcome)

section Delivered

variable {sess : Session} {s s' : LspClient} {a : Action} {c : Nat} {outcome : Outcome}

theorem Correlated.answer_request (hs : Correlated sess s) (h : Answer s c outcome) :
    IsRequest sess c := by
  obtain ⟨k, msg, hanswered, -⟩ := h
  exact hs.requests c _ hanswered.registered_mem

theorem resolving_kept (h : Step sess s a s') (hreader : s.reader = .resolving c outcome) :
    s'.reader = .resolving c outcome ∨ s' = s.resolve c outcome := by
  cases h with
  | dispatch reader => cases hreader.symm.trans reader
  | resolve reader =>
      cases hreader.symm.trans reader
      exact .inr rfl
  | stop reader => cases hreader.symm.trans reader
  | clear reader => cases hreader.symm.trans reader
  | _ => exact .inl hreader

theorem sent_kept (hs : Correlated sess s) (ho : SenderOnce s) (h : Step sess s a s')
    (hslot : s.slot c = .sent outcome) : s'.slot c = .sent outcome := by
  rcases slot_moves hs h c with hsame | ⟨-, -, -, hclose⟩ | ⟨outcome', hreader, -, -⟩
  · rw [hsame, hslot]
  · rw [hclose, hslot]
    rfl
  · rw [(ho.carried c outcome' hreader).1] at hslot
    cases hslot

theorem returned_kept (h : Step sess s a s') (hreturned : s.stage c = .returned outcome) :
    s'.stage c = .returned outcome := by
  rcases h.stage_moves c with hsame | hmoves
  · rw [hsame, hreturned]
  · generalize s'.stage c = stage at hmoves
    cases hmoves <;> simp_all

theorem stage_punctual (h : Step sess s a s') (hpunctual : Punctual c s a)
    (hrequest : IsRequest sess c) (hflight : inFlight (s.stage c) = true)
    (hempty : s.slot c = .empty → ∃ outcome', s.reader = .resolving c outcome')
    (hclosed : s.slot c ≠ .closed) :
    inFlight (s'.stage c) = true ∨
      ∃ outcome', s.slot c = .sent outcome' ∧ s'.stage c = .returned outcome' := by
  rcases h.stage_moves c with hsame | hmoves
  · exact .inl (by rwa [hsame])
  · generalize s'.stage c = stage at hmoves ⊢
    cases hmoves with
    | locked | written => exact .inl rfl
    | sent _ hnot => exact absurd hrequest hnot
    | lost _ hnot => exact absurd hrequest hnot
    | failing _ _ cause =>
        cases cause with
        | timeout => exact absurd rfl hpunctual.1
        | lost e => exact absurd rfl (hpunctual.2.1 e)
    | expired _ slot =>
        obtain ⟨outcome', hreader⟩ := hempty slot
        exact absurd hreader (hpunctual.2.2 rfl outcome')
    | answered _ slot => exact .inr ⟨_, slot, rfl⟩
    | closed _ slot => exact absurd slot hclosed
    | taken _ stage | notified _ stage | registered stage | failed stage | timedOut stage =>
        rw [stage] at hflight
        cases hflight

theorem Owed.step (hs : Correlated sess s) (ho : SenderOnce s) (h : Step sess s a s')
    (hpunctual : Punctual c s a) (howed : Owed s c outcome) : Owed s' c outcome := by
  rcases howed with ⟨hflight, hreader | hslot⟩ | hreturned
  · have hempty := (ho.carried c outcome hreader).1
    have hrequest := Correlated.answer_request hs (hs.resolving c outcome hreader)
    have hstage := stage_punctual h hpunctual hrequest hflight (fun _ => ⟨outcome, hreader⟩)
      (by rw [hempty]; exact Slot.noConfusion)
    rcases hstage with hstage | ⟨outcome', hsent, -⟩
    · refine .inl ⟨hstage, ?_⟩
      rcases resolving_kept h hreader with hkept | hresolved
      · exact .inl hkept
      · have hreceives : (s.stage c).receives = true := by
          cases hc : s.stage c <;> simp_all [inFlight, Stage.receives]
        refine .inr ?_
        rw [hresolved, resolve_slot, if_pos hreceives, update_self]
    · rw [hempty] at hsent
      cases hsent
  · have hrequest := Correlated.answer_request hs (hs.slots c outcome hslot)
    have hstage := stage_punctual h hpunctual hrequest hflight
      (fun hempty => by rw [hslot] at hempty; cases hempty)
      (by rw [hslot]; exact Slot.noConfusion)
    rcases hstage with hstage | ⟨outcome', hsent, hreturned⟩
    · exact .inl ⟨hstage, .inr (sent_kept hs ho h hslot)⟩
    · cases hslot.symm.trans hsent
      exact .inr hreturned
  · exact .inr (returned_kept h hreturned)

theorem Owed.run (hs : Correlated sess s) (ho : SenderOnce s) (howed : Owed s c outcome)
    {actions : List Action} (hrun : (client sess).Run (Punctual c) s actions s') :
    Correlated sess s' ∧ SenderOnce s' ∧ Owed s' c outcome := by
  refine hrun.invariant (P := fun s => Correlated sess s ∧ SenderOnce s ∧ Owed s c outcome)
    ⟨hs, ho, howed⟩ ?_
  rintro u a u' ⟨hs, ho, howed⟩ hpunctual hstep
  have hstep := step_iff.mp hstep
  exact ⟨hs.step hstep, ho.step hs hstep, howed.step hs ho hstep hpunctual⟩

theorem owed_of_dispatch (hs : Correlated sess s) (hflight : inFlight (s.stage c) = true)
    (hwaiting : Waiting s.log c (s.ids c)) {msg : Value} (hid : messageId msg = some (s.ids c))
    (rest : List Value) : Owed (s.dispatchMessage msg rest) c (messageOutcome msg) := by
  refine .inl ⟨by rwa [dispatchMessage_stage], .inl ?_⟩
  rw [dispatchMessage_reader, hid, Option.bind_some, hs.pending_iff.mpr hwaiting]

end Delivered

section Late

variable {sess : Session} {s : LspClient} {c c' : Nat}

end Late

def answeredEarly : List Action :=
  [.takeId 0, .register 0, .lock 0, .accept 0 80,
    .arrive (.object [("id", .ofI64 1), ("result", .null)]), .dispatch, .resolve, .flushed 0,
    .receive 0]

end IntentumdiffLsp.Delivery
