import IntentumdiffLsp.Enrichment
import Mathlib.Algebra.BigOperators.Intervals
import Mathlib.Algebra.Order.BigOperators.Group.Finset

/-!
A batch can always be brought to its end, and what it has done by then.
-/

namespace IntentumdiffLsp.Bracket

open Foundations
open Foundations.ActionSystem
open Function
open IntentumdiffLsp.Json
open IntentumdiffLsp.Client
open IntentumdiffLsp.Client.LspClient
open IntentumdiffLsp.Wire
open IntentumdiffLsp.Callers
open IntentumdiffLsp.Enrich
open IntentumdiffLsp.Enrichment

/-- The steps that the calls of the batch still have before them. -/
def callsLeft (b : Batch) (client : LspClient) : Nat :=
  ∑ c ∈ Finset.range (hoverCall b.targets.length), rank (client.stage c)

def resultsLeft (b : Batch) : Phase → Nat
  | .opening => b.targets.length
  | .querying _ join => b.targets.length - join.done
  | .panicked | .closing _ | .finished _ => 0

def phasesLeft : Phase → Nat
  | .opening => 3
  | .querying _ _ => 2
  | .closing _ => 1
  | .panicked | .finished _ => 0

def workLeft (b : Batch) (s : Enriching) : Nat :=
  callsLeft b s.client + resultsLeft b s.phase + phasesLeft s.phase

/-- Less work can be left than in this state. -/
def Nearer (base : Session) (b : Batch) (s : Enriching) : Prop :=
  ∃ t, (enrich base b).Leads s t ∧ workLeft b t < workLeft b s

section Progress

variable {base : Session} {b : Batch} {s : Enriching} {client client' : LspClient} {a : Action}
  {c : Nat}

theorem callsLeft_le (h : Client.Step (withBatch base b) client a client') :
    callsLeft b client' ≤ callsLeft b client :=
  Finset.sum_le_sum fun c _ => rank_le h c

theorem callsLeft_lt (h : Client.Step (withBatch base b) client a client')
    (hc : c < hoverCall b.targets.length) (hlt : rank (client'.stage c) < rank (client.stage c)) :
    callsLeft b client' < callsLeft b client :=
  Finset.sum_lt_sum (fun c _ => rank_le h c) ⟨c, Finset.mem_range.mpr hc, hlt⟩

theorem call_cases (hc : c < hoverCall b.targets.length) :
    c = openCall ∨ c = closeCall ∨ ∃ i, i < b.targets.length ∧ c = hoverCall i := by
  rcases c with _ | _ | i
  · exact .inl rfl
  · exact .inr (.inl rfl)
  · exact .inr (.inr ⟨i, Nat.lt_of_add_lt_add_right hc, rfl⟩)

theorem mayAct_other {phase : Phase} (hc : hoverCall b.targets.length ≤ c) :
    mayAct b phase c = true := by
  obtain ⟨i, rfl⟩ := Nat.exists_eq_add_of_le hc
  have hi : ¬b.targets.length + i < b.targets.length := by omega
  rw [hoverCall, Nat.add_right_comm]
  exact if_neg hi

theorem leads_step {s' : Enriching} {turn : Turn} (h : Enrich.Step base b s turn s') :
    (enrich base b).Leads s s' :=
  .of_step (a := turn) (Enrich.step_iff.mpr h)

theorem leads_client (hc : caller a = some c) (hmay : mayAct b s.phase c = true)
    (h : Client.Step (withBatch base b) s.client a client') :
    (enrich base b).Leads s ⟨client', s.phase⟩ := by
  refine leads_step (.client ?_ h)
  intro c' hc'
  cases hc.symm.trans hc'
  exact hmay

/-- A call of the batch whose turn it is comes nearer to its end. Another task that
holds the writer lets it go first. -/
theorem leads_call (hx : Exclusive (withBatch base b) s.client)
    (hc : c < hoverCall b.targets.length) (hmay : mayAct b s.phase c = true)
    (hreturned : ∀ outcome, s.client.stage c ≠ .returned outcome)
    (hwriter : ∀ c', s.client.writer = some c' → c' = c ∨ hoverCall b.targets.length ≤ c') :
    Nearer base b s := by
  by_cases hfree : s.client.stage c = .queued → s.client.writer = none
  · obtain ⟨a, client', hcaller, hstep, hlt⟩ :=
      exists_move (withBatch base b) hreturned hfree
    refine ⟨_, leads_client hcaller hmay hstep, ?_⟩
    have hcalls := callsLeft_lt hstep hc hlt
    simp only [workLeft]
    omega
  · obtain ⟨hqueued, hheld⟩ := Classical.not_imp.mp hfree
    obtain ⟨c', hc'⟩ := Option.ne_none_iff_exists'.mp hheld
    have hwriting := (hx.holder c').mpr hc'
    have hne : c ≠ c' := by
      rintro rfl
      cases hqueued.symm.trans hwriting
    have hother := (hwriter c' hc').resolve_left hne.symm
    have hrelease : Client.Step (withBatch base b) s.client (.writeTimeout c') _ :=
      .writeTimeout hwriting
    have hstill : (s.client.release.setStage c' (afterFailure (withBatch base b) c'
        ((withBatch base b).writeTimedOut c'))).stage c = .queued := by
      rw [setStage_stage, update_of_ne hne]
      exact hqueued
    have hlock : Client.Step (withBatch base b) _ (.lock c) _ := .lock hstill rfl
    refine ⟨_, (leads_client rfl (mayAct_other hother) hrelease).trans
      (leads_client (s := ⟨_, s.phase⟩) rfl hmay hlock), ?_⟩
    have hcalls := callsLeft_le (b := b) hrelease
    have hcalls' := callsLeft_lt (b := b) hlock hc (by
      rw [hstill, setStage_stage, update_self]
      decide)
    simp only [workLeft]
    omega

theorem writer_elsewhere (hx : Exclusive (withBatch base b) s.client)
    (hidle : ∀ c', c' < hoverCall b.targets.length → c' ≠ c → s.client.stage c' ≠ .writing)
    (c' : Nat) (hwriter : s.client.writer = some c') :
    c' = c ∨ hoverCall b.targets.length ≤ c' := by
  by_contra hnot
  obtain ⟨hne, hlt⟩ := not_or.mp hnot
  exact hidle c' (Nat.lt_of_not_le hlt) hne ((hx.holder c').mpr hwriter)

theorem approach_opening (hx : Exclusive (withBatch base b) s.client) (hu : Unstarted b s.client)
    (hphase : s.phase = .opening) :
    Nearer base b s := by
  by_cases hreturned : ∃ outcome, s.client.stage openCall = .returned outcome
  · obtain ⟨error | value, hstage⟩ := hreturned
    · refine ⟨_, leads_step (.refused hphase hstage), ?_⟩
      simp only [workLeft, hphase, resultsLeft, phasesLeft]
      omega
    · by_cases htargets : b.targets = []
      · refine ⟨_, leads_step (.openedEmpty hphase hstage htargets), ?_⟩
        simp only [workLeft, hphase, resultsLeft, phasesLeft]
        omega
      · refine ⟨_, leads_step (.opened hphase hstage htargets), ?_⟩
        simp only [workLeft, hphase, resultsLeft, phasesLeft]
        omega
  · refine leads_call hx (Nat.succ_pos _) (by rw [hphase]; rfl)
      (fun outcome hstage => hreturned ⟨outcome, hstage⟩) (writer_elsewhere hx ?_)
    intro c' hc' hne hwriting
    rcases call_cases hc' with rfl | rfl | ⟨i, hi, rfl⟩
    · exact hne rfl
    · cases hu.close.symm.trans hwriting
    · cases (hu.hovers i hi).symm.trans hwriting

theorem approach_closing (hx : Exclusive (withBatch base b) s.client)
    {map : String → Option String} (hcollected : Collected base b s.client map)
    (hphase : s.phase = .closing map) :
    Nearer base b s := by
  by_cases hreturned : ∃ outcome, s.client.stage closeCall = .returned outcome
  · obtain ⟨outcome, hstage⟩ := hreturned
    refine ⟨_, leads_step (.closed hphase hstage), ?_⟩
    simp only [workLeft, hphase, resultsLeft, phasesLeft]
    omega
  · refine leads_call hx (Nat.succ_lt_succ (Nat.succ_pos _)) (by rw [hphase]; rfl)
      (fun outcome hstage => hreturned ⟨outcome, hstage⟩) (writer_elsewhere hx ?_)
    intro c' hc' hne hwriting
    rcases call_cases hc' with rfl | rfl | ⟨i, hi, rfl⟩
    · obtain ⟨value, hopened⟩ := hcollected.opened
      cases hopened.symm.trans hwriting
    · exact hne rfl
    · obtain ⟨outcome, hstage⟩ := hcollected.returned hi
      cases hstage.symm.trans hwriting

section Query

variable {sem : Semaphore Nat maxConcurrentHovers} {join : JoinAll (Option (String × String))}

/-- The same join with the cursor at another place. -/
def atCursor (join : JoinAll (Option (String × String))) (k : Nat) :
    JoinAll (Option (String × String)) :=
  { join with cursor := some k }

/-- No hover has returned without having its result stored. -/
def NoneUnstored (client : LspClient) (join : JoinAll (Option (String × String))) : Prop :=
  ∀ i, join.results[i]? = some none → hasReturned (client.stage (hoverCall i)) = false

theorem NoneUnstored.not_returned (hnone : NoneUnstored client join) {i : Nat}
    (hresult : join.results[i]? = some none) (outcome : Outcome) :
    client.stage (hoverCall i) ≠ .returned outcome := by
  intro hstage
  have hwaits := hnone i hresult
  rw [hstage] at hwaits
  cases hwaits

theorem leads_ahead (hnone : NoneUnstored client join) {m k : Nat}
    (hk : m + k ≤ join.results.length) :
    (enrich base b).Leads ⟨client, .querying sem (atCursor join m)⟩
      ⟨client, .querying sem (atCursor join (m + k))⟩ := by
  induction k with
  | zero => exact .refl _
  | succ k ih =>
      have hnext : Enrich.Step base b ⟨client, .querying sem (atCursor join (m + k))⟩ .pending
          ⟨client, .querying sem (atCursor join (m + k + 1))⟩ := by
        refine @Enrich.Step.pending _ _ _ sem (atCursor join (m + k)) _ rfl rfl
          (Nat.lt_of_succ_le hk) ?_
        rintro ⟨hpolled, hreturned⟩
        rw [hnone (m + k) (polled_eq_some_iff.mp hpolled).2] at hreturned
        cases hreturned
      exact (ih (by omega)).trans (leads_step hnext)

/-- The task goes round until it polls the future at place `k`. -/
theorem leads_cursor (hq : Querying base b client sem join) (hnone : NoneUnstored client join)
    {k : Nat} (hk : k ≤ join.results.length)
    (hround : join.done ≠ join.results.length ∨ k = join.results.length) :
    (enrich base b).Leads ⟨client, .querying sem join⟩
      ⟨client, .querying sem (atCursor join k)⟩ := by
  have hzero : (enrich base b).Leads ⟨client, .querying sem (atCursor join 0)⟩
      ⟨client, .querying sem (atCursor join k)⟩ := by
    have hahead : (enrich base b).Leads ⟨client, .querying sem (atCursor join 0)⟩
        ⟨client, .querying sem (atCursor join (0 + k))⟩ := leads_ahead hnone (by omega)
    rwa [Nat.zero_add] at hahead
  rcases hcursor : join.cursor with _ | m
  · have hwake : Enrich.Step base b ⟨client, .querying sem join⟩ .wake
        ⟨client, .querying sem (atCursor join 0)⟩ := .wake rfl hcursor
    exact (leads_step hwake).trans hzero
  · have hm := hq.inside m hcursor
    have hself : join = atCursor join m := by
      obtain ⟨results, done, cursor⟩ := join
      cases hcursor
      rfl
    have hend : (enrich base b).Leads ⟨client, .querying sem join⟩
        ⟨client, .querying sem (atCursor join join.results.length)⟩ := by
      have hahead : (enrich base b).Leads ⟨client, .querying sem (atCursor join m)⟩
          ⟨client, .querying sem (atCursor join (m + (join.results.length - m)))⟩ :=
        leads_ahead hnone (by omega)
      rw [Nat.add_sub_cancel' hm, ← hself] at hahead
      exact hahead
    rcases hround with hshort | rfl
    · have hpark : Enrich.Step base b ⟨client, .querying sem (atCursor join join.results.length)⟩
          .park ⟨client, .querying sem (atCursor join join.results.length).park⟩ :=
        .park rfl rfl hshort
      have hwake : Enrich.Step base b
          ⟨client, .querying sem (atCursor join join.results.length).park⟩ .wake
          ⟨client, .querying sem (atCursor join 0)⟩ :=
        @Enrich.Step.wake _ _ _ sem (atCursor join join.results.length).park rfl rfl
      exact (hend.trans (leads_step hpark)).trans ((leads_step hwake).trans hzero)
    · exact hend

/-- A hover that holds a permit comes nearer to its end, if no other one holds the writer. -/
theorem approach_hover (hx : Exclusive (withBatch base b) client)
    (hq : Querying base b client sem join) (hnone : NoneUnstored client join) {i : Nat}
    (hholds : i ∈ sem.holders)
    (hwriter : ∀ j, j < b.targets.length → client.writer = some (hoverCall j) → j = i) :
    Nearer base b ⟨client, .querying sem join⟩ := by
  have hresult := hq.holding i hholds
  have hi := hq.lt hresult
  have hcursor := leads_cursor hq hnone (k := i) (by rw [hq.length]; exact hi.le)
    (.inl (hq.counted.done_lt hresult).ne)
  have hpolled : (atCursor join i).polled = some i := polled_eq_some_iff.mpr ⟨rfl, hresult⟩
  have hmay : mayAct b (.querying sem (atCursor join i)) (hoverCall i) = true := by
    rw [mayAct_hover hi, hoverPolled, hpolled]
    simpa using hholds
  have hfree : ∀ c', client.writer = some c' →
      c' = hoverCall i ∨ hoverCall b.targets.length ≤ c' := by
    refine writer_elsewhere (s := ⟨client, .querying sem join⟩) hx ?_
    intro c' hc' hne hwriting
    rcases call_cases hc' with rfl | rfl | ⟨j, hj, rfl⟩
    · obtain ⟨value, hopened⟩ := hq.opened
      cases hopened.symm.trans hwriting
    · cases hq.close.symm.trans hwriting
    · exact hne (congrArg hoverCall (hwriter j hj ((hx.holder _).mp hwriting)))
  obtain ⟨t, ht, hlt⟩ := leads_call (s := ⟨client, .querying sem (atCursor join i)⟩) hx
    (Nat.add_lt_add_right hi 2) hmay (hnone.not_returned hresult) hfree
  exact ⟨t, hcursor.trans ht, hlt⟩

/-- A hover whose frame is being written holds a permit. -/
theorem holds_of_writing (hq : Querying base b client sem join) {i : Nat}
    (hi : i < b.targets.length) (hwriting : client.stage (hoverCall i) = .writing) :
    i ∈ sem.holders := by
  have hs : Sound base b ⟨client, .querying sem join⟩ := hq
  refine holds_of_underway hs hi ?_ ?_
  · rw [hwriting]
    exact Stage.noConfusion
  · intro outcome hstage
    cases hwriting.symm.trans hstage

/-- While no hover holds a permit, one of those that are left takes one and begins. -/
theorem approach_first (hx : Exclusive (withBatch base b) client)
    (hq : Querying base b client sem join) (hnone : NoneUnstored client join)
    (hshort : join.done ≠ join.results.length) (hholders : sem.holders = [])
    (hwriter : ∀ j, j < b.targets.length → client.writer ≠ some (hoverCall j)) :
    Nearer base b ⟨client, .querying sem join⟩ := by
  obtain ⟨i, hresult⟩ := hq.counted.exists_missing hshort
  have hi : i ≤ join.results.length := by
    rw [hq.length]
    exact (hq.lt hresult).le
  have hpolled : (atCursor join i).polled = some i := polled_eq_some_iff.mpr ⟨rfl, hresult⟩
  have hq' : Querying base b client sem (atCursor join i) := by
    refine hq.move (fun j outcome hj => hnone.not_returned hj outcome) (some i) ?_
    rintro _ ⟨⟩
    exact hi
  obtain ⟨sem', hacquired⟩ := Semaphore.acquire_isSome sem i
    (by simp [hholders]) (by simp [hholders, maxConcurrentHovers])
  have hholds : i ∈ sem'.holders := by
    rw [Semaphore.holders_of_acquire hacquired]
    exact List.mem_cons_self ..
  have hacquire : Enrich.Step base b ⟨client, .querying sem (atCursor join i)⟩ .acquire
      ⟨client, .querying sem' (atCursor join i)⟩ := .acquire rfl hpolled hacquired
  obtain ⟨t, ht, hlt⟩ := approach_hover hx (hq'.acquire hpolled hacquired) hnone hholds
    fun j hj hj' => absurd hj' (hwriter j hj)
  have hcursor := leads_cursor hq hnone hi (.inl hshort)
  exact ⟨t, hcursor.trans ((leads_step hacquire).trans ht), hlt⟩

theorem approach_stored (hq : Querying base b client sem join)
    (hunstored : ¬NoneUnstored client join) : Nearer base b ⟨client, .querying sem join⟩ := by
  simp only [NoneUnstored, not_forall, Bool.not_eq_false] at hunstored
  obtain ⟨i, hresult, hreturned⟩ := hunstored
  obtain ⟨outcome, hstage⟩ := hasReturned_iff.mp hreturned
  have hpolled : join.polled = some i :=
    polled_eq_some_iff.mpr ⟨hq.noticed i outcome hresult hstage, hresult⟩
  have hfound := List.getElem?_eq_getElem (hq.lt hresult)
  refine ⟨_, leads_step (.ready rfl hpolled hfound hstage), ?_⟩
  have hdone := hq.counted.done_lt hresult
  rw [hq.length] at hdone
  simp only [workLeft, resultsLeft, phasesLeft, JoinAll.store]
  omega

theorem approach_joined (hq : Querying base b client sem join) (hnone : NoneUnstored client join)
    (hcomplete : join.done = join.results.length) :
    Nearer base b ⟨client, .querying sem join⟩ := by
  obtain ⟨values, -, hunwrapped⟩ := hq.counted.unwrap hcomplete
  have hcursor := leads_cursor hq hnone (Nat.le_refl _) (.inr rfl)
  have hjoined : Enrich.Step base b
      ⟨client, .querying sem (atCursor join join.results.length)⟩ .joined
      ⟨client, .closing (collect values)⟩ := .joined rfl rfl hcomplete hunwrapped
  refine ⟨_, hcursor.trans (leads_step hjoined), ?_⟩
  simp only [workLeft, resultsLeft, phasesLeft]
  omega

/-- A result is stored, all are joined, or a hover moves: the one that holds the writer,
else one that holds a permit, else a new one. -/
theorem approach_querying (hx : Exclusive (withBatch base b) client)
    (hq : Querying base b client sem join) : Nearer base b ⟨client, .querying sem join⟩ := by
  by_cases hnone : NoneUnstored client join
  · by_cases hcomplete : join.done = join.results.length
    · exact approach_joined hq hnone hcomplete
    · by_cases hwriter : ∃ i, i < b.targets.length ∧ client.writer = some (hoverCall i)
      · obtain ⟨i, hi, hwriter⟩ := hwriter
        have hholds := holds_of_writing hq hi ((hx.holder _).mpr hwriter)
        refine approach_hover hx hq hnone hholds fun j hj hj' => ?_
        rw [hwriter] at hj'
        exact (Nat.add_right_cancel (Option.some.inj hj')).symm
      · have hwriter : ∀ j, j < b.targets.length → client.writer ≠ some (hoverCall j) :=
          fun j hj hj' => hwriter ⟨j, hj, hj'⟩
        by_cases hholders : sem.holders = []
        · exact approach_first hx hq hnone hcomplete hholders hwriter
        · obtain ⟨i, hholds⟩ := List.exists_mem_of_ne_nil _ hholders
          exact approach_hover hx hq hnone hholds fun j hj hj' => absurd hj' (hwriter j hj)
  · exact approach_stored hq hnone

end Query

/-- Whatever has happened, the batch can still be brought to its end. -/
theorem leads_finished (h : (enrich base b).Reachable s) :
    ∃ t, (enrich base b).Leads s t ∧ ∃ map, t.phase = .finished map := by
  refine h.leads_goal (fun t => ∃ map, t.phase = .finished map) (workLeft b) ?_
  intro s hs hunfinished
  obtain ⟨turns, hrun⟩ := hs
  have hsound := sound_of_run hrun
  have hx := exclusive_of_reachable (client_reachable hrun)
  obtain ⟨client, phase⟩ := s
  cases phase with
  | opening => exact approach_opening hx hsound rfl
  | querying sem join => exact approach_querying hx hsound
  | panicked => exact hsound.elim
  | closing map => exact approach_closing hx hsound rfl
  | finished map => exact absurd ⟨map, rfl⟩ hunfinished

end Progress

/-- What holds of a batch in a state that it has reached by these turns. -/
structure Bracketed (base : Session) (b : Batch) (turns : List Turn) (s : Enriching) : Prop where
  /-- The request of a hover is about the place of its own target. -/
  own : ∀ i target, b.targets[i]? = some target →
    let msg := s.client.message (withBatch base b) (hoverCall i)
    msg.get "method" = some (.string "textDocument/hover") ∧
      msg.pointer ["params", "textDocument", "uri"] = some (.string b.uri) ∧
      msg.pointer ["params", "position", "line"] =
        some (.number (.posInt target.line.toUInt64)) ∧
      msg.pointer ["params", "position", "character"] =
        some (.number (.posInt target.col.toUInt64))
  once : ∀ c, startsOf c (turns.filterMap clientAction) ≤ 1
  capped : ∀ keys : List Int, keys.Nodup → (∀ key ∈ keys, ∃ i, i < b.targets.length ∧
    s.client.pending key = some (hoverCall i)) → keys.length ≤ 50
  /-- A hover that has begun, or has written anything, finds the open completely written. -/
  openFirst : ∀ i, i < b.targets.length →
    s.client.stage (hoverCall i) ≠ .idle ∨ 0 < s.client.accepted (hoverCall i) →
    (∃ value, s.client.stage openCall = .returned (.ok value)) ∧
      s.client.accepted openCall = (s.client.frame (withBatch base b) openCall).length
  closeLast : s.client.stage closeCall ≠ .idle → ∀ i, i < b.targets.length →
    ∃ outcome, s.client.stage (hoverCall i) = .returned outcome
  refused : ∀ error, s.client.stage openCall = .returned (.error error) →
    (∀ i, i < b.targets.length → startsOf (hoverCall i) (turns.filterMap clientAction) = 0) ∧
      startsOf closeCall (turns.filterMap clientAction) = 0 ∧
      ∀ map, s.phase = .finished map → map = fun _ => none
  finished : ∀ map value, s.phase = .finished map →
    s.client.stage openCall = .returned (.ok value) →
    (∀ i, i < b.targets.length → startsOf (hoverCall i) (turns.filterMap clientAction) = 1 ∧
        ∃ outcome, s.client.stage (hoverCall i) = .returned outcome) ∧
      startsOf closeCall (turns.filterMap clientAction) = 1 ∧
      (∀ id, (∃ text, map id = some text) ↔ ∃ i text, Got base b s.client id text i) ∧
      ∀ id text, map id = some text ↔ ∃ i, Got base b s.client id text i ∧
        ∀ j text', i < j → ¬Got base b s.client id text' j
  /-- The results are never unwrapped too early, and there is always a way on to the end. -/
  ends : s.phase ≠ .panicked ∧
    ∃ t, (enrich base b).Leads s t ∧ ∃ map, t.phase = .finished map

section Final

variable {base : Session} {b : Batch} {turns : List Turn} {s : Enriching}

theorem open_not_request : ¬IsRequest (withBatch base b) openCall := by
  rintro ⟨method, params, hcall⟩
  cases hcall

theorem open_written (hrun : (enrich base b).Run Anything start turns s) {value : Value}
    (hopened : s.client.stage openCall = .returned (.ok value)) :
    s.client.accepted openCall = (s.client.frame (withBatch base b) openCall).length :=
  (finished_of_reachable (client_reachable hrun)).written _ value open_not_request hopened

theorem hover_message (client : LspClient) {i : Nat} {target : HoverTarget}
    (htarget : b.targets[i]? = some target) :
    client.message (withBatch base b) (hoverCall i) = Codec.request "textDocument/hover"
      (hoverParams b.uri target.line target.col) (client.ids (hoverCall i)) := by
  have hcall : (withBatch base b).calls (hoverCall i) =
      .request "textDocument/hover" (hoverParams b.uri target.line target.col) := by
    simp only [withBatch, hoverCall, htarget]
    rfl
  rw [message, hcall]

theorem startsOf_idle (hrun : (enrich base b).Run Anything start turns s) {c : Nat}
    (hidle : s.client.stage c = .idle) : startsOf c (turns.filterMap clientAction) = 0 :=
  ((startsOf_run (client_run hrun) c).resolve_right fun h => h.1 hidle).2

theorem startsOf_returned (hrun : (enrich base b).Run Anything start turns s) {c : Nat}
    {outcome : Outcome} (hreturned : s.client.stage c = .returned outcome) :
    startsOf c (turns.filterMap clientAction) = 1 := by
  refine ((startsOf_run (client_run hrun) c).resolve_left fun h => ?_).2
  cases hreturned.symm.trans h.1

end Final

/-- In every run of a batch, beside whatever else happens on the client: each target is
hovered once at its own place, at most fifty hovers are registered at a time, all of it
between the open and the close, and an id ends with the text of its last target that got
one, whatever the order in which the hovers came back. -/
theorem enrich_bracketed (base : Session) (b : Batch) (turns : List Turn) (s : Enriching)
    (hrun : (enrich base b).Run Anything start turns s) : Bracketed base b turns s := by
  have hsound := sound_of_run hrun
  have hreachable := client_reachable hrun
  have hx := exclusive_of_reachable hreachable
  constructor
  case own =>
    intro i target htarget msg
    have hmsg : msg = _ := hover_message s.client htarget
    rw [hmsg]
    exact ⟨rfl, rfl, rfl, rfl⟩
  case once =>
    intro c
    rcases startsOf_run (client_run hrun) c with ⟨-, hzero⟩ | ⟨-, hone⟩
    · rw [hzero]
      exact Nat.zero_le _
    · exact hone.le
  case capped =>
    intro keys hnodup hkeys
    exact pending_capped hrun hnodup hkeys
  case openFirst =>
    intro i hi hbegun
    have hbegun : s.client.stage (hoverCall i) ≠ .idle :=
      hbegun.elim (fun h => h) fun hpos => not_idle_of_accepted hx hpos
    obtain ⟨value, hopened⟩ := hover_begun hsound hi hbegun
    exact ⟨⟨value, hopened⟩, open_written hrun hopened⟩
  case closeLast =>
    intro hbegun i hi
    obtain ⟨map, hcollected⟩ := close_begun hsound hbegun
    exact hcollected.returned hi
  case refused =>
    intro error hrefused
    obtain ⟨hunstarted, hmap⟩ := unstarted_of_refused hsound hrefused
    refine ⟨?_, startsOf_idle hrun hunstarted.close, hmap⟩
    intro i hi
    exact startsOf_idle hrun (hunstarted.hovers i hi)
  case finished =>
    intro map value hphase hopened
    have hfinished : Sound base b ⟨s.client, .finished map⟩ := sound_of_phase hsound hphase
    rcases hfinished with ⟨hcollected, outcome, hclosed⟩ | ⟨-, -, error, hrefused⟩
    · refine ⟨?_, startsOf_returned hrun hclosed, fun id => hcollected.mem_map_iff,
        fun id text => hcollected.map_eq_some_iff⟩
      intro i hi
      obtain ⟨outcome, hreturned⟩ := hcollected.returned hi
      exact ⟨startsOf_returned hrun hreturned, outcome, hreturned⟩
    · cases hopened.symm.trans hrefused
  case ends =>
    refine ⟨?_, leads_finished hrun.reachable⟩
    intro hpanicked
    exact sound_of_phase hsound hpanicked

def openText : String :=
  "\x7b\"jsonrpc\":\"2.0\",\"method\":\"textDocument/didOpen\",\"params\":\x7b\"textDocument\":" ++
    "\x7b\"languageId\":\"\",\"text\":\"\",\"uri\":\"u\",\"version\":1\x7d\x7d\x7d"

def firstText : String :=
  "\x7b\"id\":1,\"jsonrpc\":\"2.0\",\"method\":\"textDocument/hover\",\"params\":" ++
    "\x7b\"position\":\x7b\"character\":0,\"line\":1\x7d," ++
    "\"textDocument\":\x7b\"uri\":\"u\"\x7d\x7d\x7d"

def secondText : String :=
  "\x7b\"id\":2,\"jsonrpc\":\"2.0\",\"method\":\"textDocument/hover\",\"params\":" ++
    "\x7b\"position\":\x7b\"character\":0,\"line\":2\x7d," ++
    "\"textDocument\":\x7b\"uri\":\"u\"\x7d\x7d\x7d"

def closeText : String :=
  "\x7b\"jsonrpc\":\"2.0\",\"method\":\"textDocument/didClose\",\"params\":" ++
    "\x7b\"textDocument\":\x7b\"uri\":\"u\"\x7d\x7d\x7d"

def twiceTexts : List (String × Value) :=
  [(openText, Codec.notification "textDocument/didOpen" (.object [("textDocument", .object
      [("uri", .string "u"), ("languageId", .string ""), ("version", .number (.posInt 1)),
        ("text", .string "")])])),
    (firstText, Codec.request "textDocument/hover" (hoverParams "u" 1 0) 1),
    (secondText, Codec.request "textDocument/hover" (hoverParams "u" 2 0) 2),
    (closeText, Codec.notification "textDocument/didClose"
      (.object [("textDocument", .object [("uri", .string "u")])]))]

/-- JSON cut down to the messages of a batch of two hovers. -/
def twiceJson : SerdeJson where
  toString v :=
    if (v.get "id").isSome then
      if messageId v = some 1 then firstText else secondText
    else if (v.get "method").bind Value.asStr = some "textDocument/didOpen" then openText
    else closeText
  fromSlice body :=
    if body = [] then none
    else (twiceTexts.find? fun text => body == Utf8.encode text.1.toList).map Prod.snd
  toString_size v := by
    rw [Utf8.length_encode_toList]
    repeat' split
    all_goals decide +kernel
  fromSlice_empty := if_pos rfl

def twiceSession : Session where
  serde := twiceJson
  debugStr s := "\"" ++ s ++ "\""
  timeout := "10s"
  calls _ := .notification "exit" .null

/-- Two targets with one id. -/
def twice : Batch where
  uri := "u"
  languageId := ""
  text := ""
  targets := [⟨"n", 1, 0⟩, ⟨"n", 2, 0⟩]

def firstAnswer : Value :=
  .object [("id", .ofI64 1), ("result", .object [("contents", .string " int\n")])]

/-- The second hover fails while the first one waits, and the close is not written. -/
def twiceTurns : List Turn :=
  [.client (.notify 0), .client (.lock 0), .client (.accept 0 148), .client (.flushed 0), .opened,
    .acquire, .client (.takeId 2), .client (.register 2), .client (.lock 2),
    .client (.accept 2 151), .client (.flushed 2), .pending,
    .acquire, .client (.takeId 3), .client (.register 3), .client (.lock 3),
    .client (.writeTimeout 3), .client (.unregister 3), .ready, .park,
    .client (.arrive firstAnswer), .client .dispatch, .client .resolve,
    .wake, .client (.receive 2), .ready, .pending, .joined,
    .client (.notify 1), .client (.lock 1), .client (.writeTimeout 1), .closed]

def entry (s : Enriching) (id : String) : Option String :=
  match s.phase with
  | .finished map => map id
  | _ => none

theorem enrich_bracketed_twice :
    ∃ s, (enrich twiceSession twice).play start twiceTurns = some s ∧ entry s "n" = some "int" ∧
      Bracketed twiceSession twice twiceTurns s := by
  have hentry : ((enrich twiceSession twice).play start twiceTurns).bind (entry · "n") =
      some "int" := by
    decide +kernel
  obtain ⟨s, hplay, htext⟩ := Option.bind_eq_some_iff.mp hentry
  refine ⟨s, hplay, htext, ?_⟩
  exact enrich_bracketed twiceSession twice twiceTurns s (run_of_play hplay)

end IntentumdiffLsp.Bracket
