import IntentumdiffLsp.Client
import IntentumdiffLsp.Foundations.Journal

namespace IntentumdiffLsp.Correlation

open Foundations
open Foundations.ActionSystem
open Function
open IntentumdiffLsp.Json
open IntentumdiffLsp.Client
open IntentumdiffLsp.Client.LspClient

def write : Event → Int → Option (Option Nat)
  | .registered c id, key => if key = id then some (some c) else none
  | .deregistered id, key => if key = id then some none else none
  | .dispatched msg, key => if messageId msg = some key then some none else none
  | .cleared, _ => some none

/-- Call `c` registered under `id`, and nothing has touched that id since. -/
def Waiting (log : List Event) (c : Nat) (id : Int) : Prop :=
  ∃ front back, log = front ++ .registered c id :: back ∧ ∀ event ∈ back, write event id = none

/-- The event at place `k` of the history dispatches `msg`, the first message
with the id of `c` after `c` registered and before its sender left the map. -/
def AnsweredBy (log : List Event) (k c : Nat) (id : Int) (msg : Value) : Prop :=
  messageId msg = some id ∧
    ∃ front back, log = front ++ .dispatched msg :: back ∧ front.length = k ∧ Waiting front c id

theorem AnsweredBy.append {log : List Event} {k c : Nat} {id : Int} {msg : Value}
    (h : AnsweredBy log k c id msg) (more : List Event) :
    AnsweredBy (log ++ more) k c id msg := by
  obtain ⟨hid, front, back, rfl, hk, hwaiting⟩ := h
  exact ⟨hid, front, back ++ more, by simp, hk, hwaiting⟩

theorem AnsweredBy.getElem? {log : List Event} {k c : Nat} {id : Int} {msg : Value}
    (h : AnsweredBy log k c id msg) : log[k]? = some (.dispatched msg) := by
  obtain ⟨-, front, back, rfl, rfl, -⟩ := h
  simp

theorem Waiting.registered_mem {log : List Event} {c : Nat} {id : Int}
    (h : Waiting log c id) : .registered c id ∈ log := by
  obtain ⟨front, back, rfl, -⟩ := h
  simp

theorem AnsweredBy.registered_mem {log : List Event} {k c : Nat} {id : Int} {msg : Value}
    (h : AnsweredBy log k c id msg) : .registered c id ∈ log := by
  obtain ⟨-, front, back, rfl, -, hwaiting⟩ := h
  exact List.mem_append_left _ hwaiting.registered_mem

theorem replay_write_iff {log : List Event} {c : Nat} {id : Int} :
    Journal.replay write log id = some c ↔ Waiting log c id := by
  rw [Journal.replay_eq_some_iff]
  constructor
  · rintro ⟨front, event, back, rfl, hevent, hback⟩
    refine ⟨front, back, ?_, hback⟩
    rcases event with ⟨c', id'⟩ | id' | msg | _ <;> simp only [write] at hevent
    · split at hevent
      · rename_i heq
        cases hevent
        rw [heq]
      · cases hevent
    · split at hevent <;> cases hevent
    · split at hevent <;> cases hevent
    · cases hevent
  · rintro ⟨front, back, rfl, hback⟩
    exact ⟨front, _, back, rfl, by simp [write], hback⟩

/-- The message that answers call `c` has this outcome. -/
def Answer (s : LspClient) (c : Nat) (outcome : Outcome) : Prop :=
  ∃ k msg, AnsweredBy s.log k c (s.ids c) msg ∧ outcome = messageOutcome msg

/-- The map, the slots, the reader and the results agree with the history. -/
structure Correlated (sess : Session) (s : LspClient) : Prop where
  replayed : ∀ key, s.pending key = Journal.replay write s.log key
  settled : ∀ c id, .registered c id ∈ s.log → s.ids c = id ∧ (s.stage c).isRegistered = true
  taken : ∀ c, s.stage c = .idTaken → IsRequest sess c
  requests : ∀ c id, .registered c id ∈ s.log → IsRequest sess c
  slots : ∀ c outcome, s.slot c = .sent outcome → Answer s c outcome
  resolving : ∀ c outcome, s.reader = .resolving c outcome → Answer s c outcome
  failing : ∀ c error, s.stage c = .failing error → ¬FromServer (.error error)
  returned : ∀ c outcome, s.stage c = .returned outcome → FromServer outcome →
    IsRequest sess c → Answer s c outcome

section Invariant

variable {sess : Session} {s s' : LspClient} {a : Action}

theorem Correlated.pending_iff (hs : Correlated sess s) {c : Nat} {id : Int} :
    s.pending id = some c ↔ Waiting s.log c id := by
  rw [hs.replayed, replay_write_iff]

theorem Correlated.pending_ids (hs : Correlated sess s) {c : Nat} {id : Int}
    (h : s.pending id = some c) : s.ids c = id ∧ (s.stage c).isRegistered = true :=
  hs.settled c id (hs.pending_iff.mp h).registered_mem

theorem Correlated.answer_registered (hs : Correlated sess s) {c : Nat} {outcome : Outcome}
    (h : Answer s c outcome) : (s.stage c).isRegistered = true := by
  obtain ⟨k, msg, hanswered, -⟩ := h
  exact (hs.settled c _ hanswered.registered_mem).2

theorem Correlated.answer_step (hs : Correlated sess s) (h : Step sess s a s') {c : Nat}
    {outcome : Outcome} (hanswer : Answer s c outcome) : Answer s' c outcome := by
  have hids : s'.ids c = s.ids c :=
    h.ids_eq (not_idle_of_registered (hs.answer_registered hanswer))
  obtain ⟨k, msg, hanswered, houtcome⟩ := hanswer
  obtain ⟨more, hmore⟩ := h.log_isPrefix
  refine ⟨k, msg, ?_, houtcome⟩
  rw [hids, ← hmore]
  exact hanswered.append more

theorem replayed_append {event : Event}
    (hs : ∀ key, s.pending key = Journal.replay write s.log key)
    (hlog : s'.log = s.log ++ [event])
    (hpending : ∀ key, s'.pending key = (write event key).getD (s.pending key)) (key : Int) :
    s'.pending key = Journal.replay write s'.log key := by
  rw [hlog, Journal.replay_append_singleton, hpending, hs]

theorem replayed_step (hs : Correlated sess s) (h : Step sess s a s') (key : Int) :
    s'.pending key = Journal.replay write s'.log key := by
  have hremove : ∀ c key, (s.removePending c).pending key =
      (write (.deregistered (s.ids c)) key).getD (s.pending key) := by
    intro c key
    simp only [removePending_pending, update_apply, write]
    split <;> rfl
  cases h with
  | register =>
      refine replayed_append hs.replayed rfl (fun key => ?_) key
      simp only [setStage_pending, insertPending_pending, update_apply, write]
      split <;> rfl
  | unregisterFailed => exact replayed_append hs.replayed rfl (hremove _) key
  | unregisterExpired => exact replayed_append hs.replayed rfl (hremove _) key
  | clear => exact replayed_append hs.replayed rfl (fun key => rfl) key
  | dispatch =>
      refine replayed_append hs.replayed (dispatchMessage_log s _ _) (fun key => ?_) key
      rw [dispatchMessage_pending]
      simp only [write]
      split <;> rfl
  | _ => exact hs.replayed key

theorem registered_mem_of_step (h : Step sess s a s') {c : Nat} {id : Int}
    (hmem : .registered c id ∈ s'.log) :
    .registered c id ∈ s.log ∨
      (s.stage c = .idTaken ∧ s'.ids c = id ∧ s'.stage c = .queued) := by
  have hlast : ∀ event, .registered c id ∈ s.log ++ [event] → event ≠ .registered c id →
      .registered c id ∈ s.log := by
    intro event hmem hne
    rcases List.mem_append.mp hmem with hold | hnew
    · exact hold
    · exact absurd (List.mem_singleton.mp hnew).symm hne
  cases h with
  | @register c' stage =>
      by_cases hevent : Event.registered c' (s.ids c') = .registered c id
      · cases hevent
        exact .inr ⟨stage, rfl, update_self _ _ _⟩
      · exact .inl (hlast _ hmem hevent)
  | unregisterFailed => exact .inl (hlast _ hmem Event.noConfusion)
  | unregisterExpired => exact .inl (hlast _ hmem Event.noConfusion)
  | clear => exact .inl (hlast _ hmem Event.noConfusion)
  | dispatch =>
      rw [dispatchMessage_log] at hmem
      exact .inl (hlast _ hmem Event.noConfusion)
  | _ => exact .inl hmem

theorem settled_step (hs : Correlated sess s) (h : Step sess s a s') {c : Nat} {id : Int}
    (hmem : .registered c id ∈ s'.log) : s'.ids c = id ∧ (s'.stage c).isRegistered = true := by
  rcases registered_mem_of_step h hmem with hold | ⟨-, hids, hstage⟩
  · obtain ⟨hids, hstage⟩ := hs.settled c id hold
    exact ⟨(h.ids_eq (not_idle_of_registered hstage)).trans hids, h.registered_stage hstage⟩
  · exact ⟨hids, by rw [hstage]; rfl⟩

theorem Correlated.taken_step (hs : Correlated sess s) (h : Step sess s a s') {c : Nat}
    (htaken : s'.stage c = .idTaken) : IsRequest sess c := by
  have hmoves := h.stage_moves c
  rw [htaken] at hmoves
  rcases hmoves with hsame | hmoves
  · exact hs.taken c hsame.symm
  · cases hmoves with
    | taken hrequest => exact hrequest

theorem close_eq_sent {slot : Slot} {outcome : Outcome} :
    slot.close = .sent outcome ↔ slot = .sent outcome := by
  cases slot <;> simp [Slot.close]

theorem dropSender_eq_sent {key : Int} {c : Nat} {outcome : Outcome} :
    s.dropSender key c = .sent outcome ↔ s.slot c = .sent outcome := by
  rcases hkey : s.pending key with _ | c'
  · simp only [dropSender, hkey]
  · simp only [dropSender, hkey, update_apply]
    split
    · rename_i heq
      rw [close_eq_sent, heq]
    · exact Iff.rfl

theorem sent_of_step (h : Step sess s a s') {c : Nat} {outcome : Outcome}
    (hsent : s'.slot c = .sent outcome) :
    s.slot c = .sent outcome ∨ s.reader = .resolving c outcome := by
  cases h with
  | register => exact .inl (dropSender_eq_sent.mp hsent)
  | unregisterFailed => exact .inl (dropSender_eq_sent.mp hsent)
  | unregisterExpired => exact .inl (dropSender_eq_sent.mp hsent)
  | clear =>
      rw [clearPending_slot] at hsent
      split at hsent
      · exact .inl (close_eq_sent.mp hsent)
      · exact .inl hsent
  | dispatch =>
      rw [dispatchMessage_slot] at hsent
      exact .inl hsent
  | @resolve c' outcome' reader =>
      rw [resolve_slot] at hsent
      split at hsent
      · rw [update_apply] at hsent
        split at hsent
        · rename_i heq
          cases hsent
          rw [heq]
          exact .inr reader
        · exact .inl hsent
      · exact .inl hsent
  | _ => exact .inl hsent

theorem slots_step (hs : Correlated sess s) (h : Step sess s a s') {c : Nat} {outcome : Outcome}
    (hsent : s'.slot c = .sent outcome) : Answer s' c outcome := by
  rcases sent_of_step h hsent with hslot | hreader
  · exact hs.answer_step h (hs.slots c outcome hslot)
  · exact hs.answer_step h (hs.resolving c outcome hreader)

/-- A message that is routed to `c` is the first one since `c` registered. -/
theorem Correlated.answer_dispatch (hs : Correlated sess s) {msg : Value} {id : Int} {c : Nat}
    (hid : messageId msg = some id) (hpending : s.pending id = some c) (rest : List Value) :
    Answer (s.dispatchMessage msg rest) c (messageOutcome msg) := by
  refine ⟨s.log.length, msg, ?_, rfl⟩
  rw [dispatchMessage_log, dispatchMessage_ids, (hs.pending_ids hpending).1]
  exact ⟨hid, s.log, [], rfl, rfl, hs.pending_iff.mp hpending⟩

theorem resolving_step (hs : Correlated sess s) (h : Step sess s a s') {c : Nat}
    {outcome : Outcome} (hreader : s'.reader = .resolving c outcome) : Answer s' c outcome := by
  have hkeep : s.reader = .resolving c outcome → Answer s' c outcome :=
    fun hold => hs.answer_step h (hs.resolving c outcome hold)
  cases h with
  | @dispatch msg rest reader inbox =>
      rcases dispatchMessage_cases s msg with hroute | ⟨id, c', hid, hpending⟩
      · rw [dispatchMessage_reader, hroute] at hreader
        exact hkeep hreader
      · rw [dispatchMessage_reader, hid, Option.bind_some, hpending] at hreader
        cases hreader
        exact hs.answer_dispatch hid hpending rest
  | resolve => cases hreader
  | stop => cases hreader
  | clear => cases hreader
  | _ => exact hkeep hreader

theorem Correlated.returned_step (hs : Correlated sess s) (h : Step sess s a s') {c : Nat}
    {outcome : Outcome} (hreturned : s'.stage c = .returned outcome)
    (hserver : FromServer outcome) (hrequest : IsRequest sess c) : Answer s' c outcome := by
  have hmoves := h.stage_moves c
  rw [hreturned] at hmoves
  rcases hmoves with hsame | hmoves
  · exact hs.answer_step h (hs.returned c outcome hsame.symm hserver hrequest)
  · cases hmoves with
    | sent _ hnot => exact absurd hrequest hnot
    | lost _ hnot => exact absurd hrequest hnot
    | answered _ slot => exact hs.answer_step h (hs.slots c outcome slot)
    | closed => exact absurd hserver not_false
    | failed stage => exact absurd hserver (hs.failing c _ stage)
    | timedOut => exact absurd hserver not_false

theorem Correlated.failing_step (hs : Correlated sess s) (h : Step sess s a s') {c : Nat}
    {error : LspError} (hfailing : s'.stage c = .failing error) : ¬FromServer (.error error) := by
  have hmoves := h.stage_moves c
  rw [hfailing] at hmoves
  rcases hmoves with hsame | hmoves
  · exact hs.failing c error hsame.symm
  · cases hmoves with
    | failing _ _ cause => exact cause.not_fromServer

theorem Correlated.step (hs : Correlated sess s) (h : Step sess s a s') :
    Correlated sess s' where
  replayed := replayed_step hs h
  settled _ _ := settled_step hs h
  taken _ := hs.taken_step h
  requests c id hmem := by
    rcases registered_mem_of_step h hmem with hold | ⟨htaken, -, -⟩
    · exact hs.requests c id hold
    · exact hs.taken c htaken
  slots _ _ := slots_step hs h
  resolving _ _ := resolving_step hs h
  failing _ _ := hs.failing_step h
  returned _ _ := hs.returned_step h

theorem correlated_new (sess : Session) : Correlated sess .new where
  replayed _ := rfl
  settled _ _ h := by cases h
  taken _ h := by cases h
  requests _ _ h := by cases h
  slots _ _ h := by cases h
  resolving _ _ h := by cases h
  failing _ _ h := by cases h
  returned _ _ h := by cases h

end Invariant

def idsTaken (actions : List Action) : Nat :=
  actions.countP fun
    | .takeId _ => true
    | _ => false

/-- After `n` ids the counter stands behind all of them, and no two requests
share one. -/
structure FreshIds (sess : Session) (n : Nat) (s : LspClient) : Prop where
  next : s.nextId = wrapI64 (n + 1)
  range : ∀ c, IsRequest sess c → s.stage c ≠ .idle → 1 ≤ s.ids c ∧ s.ids c ≤ n
  injective : ∀ c c', IsRequest sess c → IsRequest sess c' → s.stage c ≠ .idle →
    s.stage c' ≠ .idle → s.ids c = s.ids c' → c = c'

section Ids

variable {sess : Session} {s s' : LspClient} {a : Action}

theorem freshIds_new (sess : Session) : FreshIds sess 0 .new where
  next := rfl
  range _ _ h := absurd rfl h
  injective _ _ _ _ h := absurd rfl h

theorem idle_of_step (h : Step sess s a s') {c : Nat} (hrequest : IsRequest sess c)
    (ha : a ≠ .takeId c) (hidle : s.stage c = .idle) : s'.stage c = .idle := by
  rcases h.stage_moves c with hsame | hmoves
  · rw [hsame, hidle]
  · generalize s'.stage c = stage at hmoves
    cases hmoves with
    | taken => exact absurd rfl ha
    | notified hnot => exact absurd hrequest hnot
    | _ => simp_all

theorem nextId_of_step (h : Step sess s a s') (ha : ∀ c, a ≠ .takeId c) :
    s'.nextId = s.nextId := by
  cases h with
  | takeId => exact absurd rfl (ha _)
  | @dispatch msg rest =>
      rcases dispatchMessage_cases s msg with hroute | ⟨id, c, hid, hpending⟩
      · rw [dispatchMessage_unrouted hroute]
      · rw [dispatchMessage_routed hid hpending]
  | _ => rfl

theorem FreshIds.step_other {n : Nat} (hs : FreshIds sess n s) (h : Step sess s a s')
    (ha : ∀ c, a ≠ .takeId c) : FreshIds sess n s' where
  next := (nextId_of_step h ha).trans hs.next
  range c hrequest hstage := by
    have hold := mt (idle_of_step h hrequest (ha c)) hstage
    rw [h.ids_eq hold]
    exact hs.range c hrequest hold
  injective c c' hrequest hrequest' hstage hstage' hids := by
    have hold := mt (idle_of_step h hrequest (ha c)) hstage
    have hold' := mt (idle_of_step h hrequest' (ha c')) hstage'
    rw [h.ids_eq hold, h.ids_eq hold'] at hids
    exact hs.injective c c' hrequest hrequest' hold hold' hids

theorem FreshIds.step_takeId {n : Nat} (hs : FreshIds sess n s) (hn : n + 1 < 2 ^ 63) {c : Nat}
    (h : Step sess s (.takeId c) s') : FreshIds sess (n + 1) s' := by
  have hnext : s.nextId = n + 1 := hs.next.trans (wrapI64_eq_self (by omega) (by omega))
  cases h with
  | takeId call stage =>
      have hrange : ∀ c', c' ≠ c → IsRequest sess c' →
          ((s.fetchId c).setStage c .idTaken).stage c' ≠ .idle →
          s.stage c' ≠ .idle ∧ 1 ≤ s.ids c' ∧ s.ids c' ≤ n := by
        intro c' hne hrequest hstage
        rw [setStage_stage, update_of_ne hne] at hstage
        exact ⟨hstage, hs.range c' hrequest hstage⟩
      refine ⟨?_, ?_, ?_⟩
      · rw [setStage_nextId, fetchId_nextId, hnext]
        rfl
      · intro c' hrequest hstage
        rw [setStage_ids, fetchId_ids, update_apply]
        split
        · omega
        · obtain ⟨-, hlow, hhigh⟩ := hrange c' ‹_› hrequest hstage
          omega
      · intro c₁ c₂ hrequest₁ hrequest₂ hstage₁ hstage₂ hids
        simp only [setStage_ids, fetchId_ids] at hids
        by_cases h₁ : c₁ = c <;> by_cases h₂ : c₂ = c
        · rw [h₁, h₂]
        · obtain ⟨-, hlow, hhigh⟩ := hrange c₂ h₂ hrequest₂ hstage₂
          rw [h₁, update_self, update_of_ne h₂] at hids
          omega
        · obtain ⟨-, hlow, hhigh⟩ := hrange c₁ h₁ hrequest₁ hstage₁
          rw [h₂, update_self, update_of_ne h₁] at hids
          omega
        · rw [update_of_ne h₁, update_of_ne h₂] at hids
          exact hs.injective c₁ c₂ hrequest₁ hrequest₂ (hrange c₁ h₁ hrequest₁ hstage₁).1
            (hrange c₂ h₂ hrequest₂ hstage₂).1 hids

theorem freshIds_of_run {actions : List Action}
    (hrun : (client sess).Run Anything .new actions s) (hfew : idsTaken actions < 2 ^ 63) :
    FreshIds sess (idsTaken actions) s := by
  refine hrun.trace_invariant
    (P := fun actions s => idsTaken actions < 2 ^ 63 → FreshIds sess (idsTaken actions) s)
    (fun _ => freshIds_new sess) ?_ hfew
  intro done u a u' _ ih _ hstep hfew
  have hstep := step_iff.mp hstep
  have hcount : idsTaken (done ++ [a]) = idsTaken done + idsTaken [a] := List.countP_append
  rw [hcount] at hfew ⊢
  by_cases ha : ∃ c, a = .takeId c
  · obtain ⟨c, rfl⟩ := ha
    exact (ih (by omega)).step_takeId hfew hstep
  · have hzero : idsTaken [a] = 0 := by
      cases a with
      | takeId c => exact absurd ⟨c, rfl⟩ ha
      | _ => rfl
    rw [hzero] at hfew ⊢
    exact (ih hfew).step_other hstep fun c hc => ha ⟨c, hc⟩

end Ids

end IntentumdiffLsp.Correlation
