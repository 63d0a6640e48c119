import IntentumdiffLsp.Enrich

/-!
The open and close bracket, the cap and the map of a batch, over every schedule.
-/

namespace IntentumdiffLsp.Enrichment

open Foundations
open Foundations.ActionSystem
open Function
open IntentumdiffLsp.Json
open IntentumdiffLsp.Client
open IntentumdiffLsp.Client.LspClient
open IntentumdiffLsp.Correlation
open IntentumdiffLsp.Delivery
open IntentumdiffLsp.Callers
open IntentumdiffLsp.Enrich

section Join

variable {τ : Type} {join : JoinAll τ} {idx : Nat}

theorem polled_eq_some_iff :
    join.polled = some idx ↔ join.cursor = some idx ∧ join.results[idx]? = some none := by
  unfold JoinAll.polled
  rw [Option.bind_eq_some_iff]
  constructor
  · rintro ⟨idx', hcursor, hresult⟩
    split at hresult
    · cases hresult
      exact ⟨hcursor, ‹_›⟩
    · cases hresult
  · rintro ⟨hcursor, hresult⟩
    refine ⟨idx, hcursor, ?_⟩
    rw [hresult]

/-- The count of the results is right. -/
def Counted (join : JoinAll τ) : Prop :=
  join.done = join.results.countP Option.isSome

theorem counted_start (total : Nat) : Counted (JoinAll.start total : JoinAll τ) := by
  have hnone : (List.replicate total (none : Option τ)).countP Option.isSome = 0 := by
    rw [List.countP_eq_zero]
    intro result hresult
    rw [(List.mem_replicate.mp hresult).2]
    exact Bool.false_ne_true
  exact hnone.symm

theorem counted_store (hcounted : Counted join) (hidx : join.results[idx]? = some none)
    (value : τ) : Counted (join.store idx value) := by
  obtain ⟨hlt, hnone⟩ := List.getElem?_eq_some_iff.mp hidx
  unfold Counted JoinAll.store
  rw [List.countP_set hlt, hnone, hcounted]
  rfl

theorem Counted.done_lt (hcounted : Counted join) (hidx : join.results[idx]? = some none) :
    join.done < join.results.length := by
  refine hcounted.trans_lt (lt_of_le_of_ne List.countP_le_length fun hall => ?_)
  have hsome := List.countP_eq_length.mp hall none (List.mem_of_getElem? hidx)
  cases hsome

theorem Counted.exists_missing (hcounted : Counted join)
    (hshort : join.done ≠ join.results.length) : ∃ idx : Nat, join.results[idx]? = some none := by
  by_contra hnone
  refine hshort (hcounted.trans (List.countP_eq_length.mpr fun result hresult => ?_))
  obtain ⟨idx, hidx⟩ := List.mem_iff_getElem?.mp hresult
  rcases result with _ | value
  · exact absurd ⟨idx, hidx⟩ hnone
  · rfl

theorem mapM_some (values : List τ) : (values.map some).mapM id = some values := by
  induction values with
  | nil => rfl
  | cons value values ih =>
      rw [List.map_cons, List.mapM_cons, ih]
      rfl

theorem exists_values {results : List (Option τ)}
    (hsome : ∀ result ∈ results, result.isSome = true) :
    ∃ values : List τ, results = values.map some := by
  induction results with
  | nil => exact ⟨[], rfl⟩
  | cons result results ih =>
      obtain ⟨values, rfl⟩ := ih fun result hresult => hsome result (List.mem_cons_of_mem _ hresult)
      obtain ⟨value, rfl⟩ := Option.isSome_iff_exists.mp (hsome result (List.mem_cons_self ..))
      exact ⟨value :: values, rfl⟩

/-- When all futures are done, none of the results is missing. -/
theorem Counted.unwrap (hcounted : Counted join) (hcomplete : join.done = join.results.length) :
    ∃ values, join.results = values.map some ∧ join.unwrap = some values := by
  obtain ⟨values, hvalues⟩ :=
    exists_values (List.countP_eq_length.mp (hcounted.symm.trans hcomplete))
  refine ⟨values, hvalues, ?_⟩
  rw [JoinAll.unwrap, hvalues]
  exact mapM_some values

end Join

/-- What a result does to the map. -/
def insertHit : Option (String × String) → String → Option (Option String)
  | some (id, text), key => if key = id then some (some text) else none
  | none, _ => none

theorem collect_eq_replay (results : List (Option (String × String))) (key : String) :
    collect results key = Journal.replay insertHit results key := by
  induction results using List.reverseRecOn with
  | nil => rfl
  | append_singleton results result ih =>
      rw [Journal.replay_append_singleton, ← ih]
      rw [collect, List.filterMap_append, List.foldl_append]
      rcases result with _ | ⟨target, text⟩
      · rfl
      · change update (collect results) target (some text) key = _
        rw [update_apply, insertHit]
        split <;> rfl

/-- No hover has begun, and the close neither. -/
structure Unstarted (b : Batch) (client : LspClient) : Prop where
  close : client.stage closeCall = .idle
  hovers : ∀ i, i < b.targets.length → client.stage (hoverCall i) = .idle

/-- While the hovers are joined, a hover holds a permit from its first step until its
result is stored, which happens in the poll in which it returns. -/
structure Querying (base : Session) (b : Batch) (client : LspClient)
    (sem : Semaphore Nat maxConcurrentHovers) (join : JoinAll (Option (String × String))) :
    Prop where
  opened : ∃ value, client.stage openCall = .returned (.ok value)
  close : client.stage closeCall = .idle
  length : join.results.length = b.targets.length
  counted : Counted join
  inside : ∀ idx, join.cursor = some idx → idx ≤ join.results.length
  holding : ∀ i ∈ sem.holders, join.results[i]? = some none
  waiting : ∀ i, join.results[i]? = some none → i ∉ sem.holders →
    client.stage (hoverCall i) = .idle
  stored : ∀ i result, join.results[i]? = some (some result) → ∃ target outcome,
    b.targets[i]? = some target ∧ client.stage (hoverCall i) = .returned outcome ∧
      result = hit base.serde target outcome
  noticed : ∀ i outcome, join.results[i]? = some none →
    client.stage (hoverCall i) = .returned outcome → join.cursor = some i

/-- All hovers have returned, and the map holds their hits. -/
structure Collected (base : Session) (b : Batch) (client : LspClient)
    (map : String → Option String) : Prop where
  opened : ∃ value, client.stage openCall = .returned (.ok value)
  results : ∃ results : List (Option (String × String)), map = collect results ∧
    results.length = b.targets.length ∧ ∀ i target, b.targets[i]? = some target →
      ∃ outcome, client.stage (hoverCall i) = .returned outcome ∧
        results[i]? = some (hit base.serde target outcome)

def Sound (base : Session) (b : Batch) (s : Enriching) : Prop :=
  match s.phase with
  | .opening => Unstarted b s.client
  | .querying sem join => Querying base b s.client sem join
  | .panicked => False
  | .closing map => Collected base b s.client map
  | .finished map =>
      (Collected base b s.client map ∧ ∃ outcome, s.client.stage closeCall = .returned outcome) ∨
        Unstarted b s.client ∧ (map = fun _ => none) ∧
          ∃ error, s.client.stage openCall = .returned (.error error)

section Invariant

variable {base : Session} {b : Batch} {client client' : LspClient} {a : Action} {phase : Phase}

theorem stage_barred (h : Client.Step (withBatch base b) client a client')
    (hallowed : ∀ c, caller a = some c → mayAct b phase c = true) {c : Nat}
    (hbarred : mayAct b phase c = false) : client'.stage c = client.stage c := by
  apply stage_of_other h
  intro hcaller
  rw [hallowed c hcaller] at hbarred
  cases hbarred

theorem mayAct_hover {i : Nat} (hi : i < b.targets.length) :
    mayAct b phase (hoverCall i) = hoverPolled phase i :=
  if_pos hi

theorem Unstarted.step (hu : Unstarted b client)
    (h : Client.Step (withBatch base b) client a client')
    (hallowed : ∀ c, caller a = some c → mayAct b phase c = true)
    (hclose : mayAct b phase closeCall = false)
    (hhovers : ∀ i, i < b.targets.length → mayAct b phase (hoverCall i) = false) :
    Unstarted b client' where
  close := (stage_barred h hallowed hclose).trans hu.close
  hovers i hi := (stage_barred h hallowed (hhovers i hi)).trans (hu.hovers i hi)

theorem Collected.step {map : String → Option String} (hc : Collected base b client map)
    (h : Client.Step (withBatch base b) client a client') : Collected base b client' map := by
  obtain ⟨⟨value, hopened⟩, results, hmap, hlength, hresults⟩ := hc
  refine ⟨⟨value, returned_kept h hopened⟩, results, hmap, hlength, ?_⟩
  intro i target htarget
  obtain ⟨outcome, hstage, hresult⟩ := hresults i target htarget
  exact ⟨outcome, returned_kept h hstage, hresult⟩

section Query

variable {sem sem' : Semaphore Nat maxConcurrentHovers}
  {join : JoinAll (Option (String × String))} {idx : Nat}

theorem Querying.lt (hq : Querying base b client sem join) {i : Nat}
    {result : Option (Option (String × String))} (h : join.results[i]? = some result) :
    i < b.targets.length := by
  rw [← hq.length]
  exact (List.getElem?_eq_some_iff.mp h).1

theorem Querying.step (hq : Querying base b client sem join)
    (h : Client.Step (withBatch base b) client a client')
    (hallowed : ∀ c, caller a = some c → mayAct b (.querying sem join) c = true) :
    Querying base b client' sem join where
  opened := by
    obtain ⟨value, hopened⟩ := hq.opened
    exact ⟨value, returned_kept h hopened⟩
  close := (stage_barred h hallowed rfl).trans hq.close
  length := hq.length
  counted := hq.counted
  inside := hq.inside
  holding := hq.holding
  waiting i hresult hholds := by
    refine (stage_barred h hallowed ?_).trans (hq.waiting i hresult hholds)
    rw [mayAct_hover (hq.lt hresult)]
    simp [hoverPolled, hholds]
  stored i result hresult := by
    obtain ⟨target, outcome, htarget, hstage, hhit⟩ := hq.stored i result hresult
    exact ⟨target, outcome, htarget, returned_kept h hstage, hhit⟩
  noticed i outcome hresult hstage := by
    by_cases hbarred : mayAct b (.querying sem join) (hoverCall i) = false
    · rw [stage_barred h hallowed hbarred] at hstage
      exact hq.noticed i outcome hresult hstage
    · rw [mayAct_hover (hq.lt hresult)] at hbarred
      have hpolled : join.polled = some i := by simp_all [hoverPolled]
      exact (polled_eq_some_iff.mp hpolled).1

theorem querying_start (hu : Unstarted b client)
    (hopened : ∃ value, client.stage openCall = .returned (.ok value)) :
    Querying base b client .free (.start b.targets.length) := by
  have hnone : ∀ (i : Nat) result, (JoinAll.start b.targets.length :
      JoinAll (Option (String × String))).results[i]? = some result →
      i < b.targets.length ∧ result = none := by
    intro i result hresult
    obtain ⟨hi, rfl⟩ := List.getElem?_eq_some_iff.mp hresult
    exact ⟨by simpa [JoinAll.start] using hi, List.getElem_replicate ..⟩
  refine ⟨hopened, hu.close, List.length_replicate, counted_start _, ?_, nofun, ?_, ?_, ?_⟩
  · rintro idx ⟨⟩
    exact Nat.zero_le _
  · intro i hresult _
    exact hu.hovers i (hnone i _ hresult).1
  · intro i result hresult
    cases (hnone i _ hresult).2
  · intro i outcome hresult hstage
    rw [hu.hovers i (hnone i _ hresult).1] at hstage
    cases hstage

theorem Querying.acquire (hq : Querying base b client sem join) (hpolled : join.polled = some idx)
    (hacquired : sem.acquire idx = some sem') : Querying base b client sem' join where
  opened := hq.opened
  close := hq.close
  length := hq.length
  counted := hq.counted
  inside := hq.inside
  holding i hholds := by
    rw [Semaphore.holders_of_acquire hacquired] at hholds
    rcases List.mem_cons.mp hholds with rfl | hold
    · exact (polled_eq_some_iff.mp hpolled).2
    · exact hq.holding i hold
  waiting i hresult hholds := by
    refine hq.waiting i hresult fun hold => hholds ?_
    rw [Semaphore.holders_of_acquire hacquired]
    exact List.mem_cons_of_mem _ hold
  stored := hq.stored
  noticed := hq.noticed

theorem store_getElem?_of_ne {value : Option (String × String)} {i : Nat} (hne : i ≠ idx) :
    (join.store idx value).results[i]? = join.results[i]? :=
  List.getElem?_set_ne hne.symm

theorem Querying.ready (hq : Querying base b client sem join) (hpolled : join.polled = some idx)
    {target : HoverTarget} {outcome : Outcome} (htarget : b.targets[idx]? = some target)
    (hstage : client.stage (hoverCall idx) = .returned outcome) :
    Querying base b client (sem.release idx) (join.store idx (hit base.serde target outcome)) := by
  obtain ⟨hcursor, hidx⟩ := polled_eq_some_iff.mp hpolled
  have hself : (join.store idx (hit base.serde target outcome)).results[idx]? =
      some (some (hit base.serde target outcome)) :=
    List.getElem?_set_self (List.getElem?_eq_some_iff.mp hidx).1
  have hother : ∀ i, (join.store idx (hit base.serde target outcome)).results[i]? = some none →
      i ≠ idx ∧ join.results[i]? = some none := by
    intro i hresult
    have hne : i ≠ idx := by
      rintro rfl
      cases hself.symm.trans hresult
    rw [store_getElem?_of_ne hne] at hresult
    exact ⟨hne, hresult⟩
  refine ⟨hq.opened, hq.close, ?_, counted_store hq.counted hidx _, ?_, ?_, ?_, ?_, ?_⟩
  · exact List.length_set.trans hq.length
  · rintro idx' ⟨⟩
    rw [JoinAll.store, List.length_set]
    exact (List.getElem?_eq_some_iff.mp hidx).1
  · intro i hholds
    obtain ⟨hne, hold⟩ := Semaphore.mem_release.mp hholds
    rw [store_getElem?_of_ne hne]
    exact hq.holding i hold
  · intro i hresult hholds
    obtain ⟨hne, hold⟩ := hother i hresult
    exact hq.waiting i hold fun hmem => hholds (Semaphore.mem_release.mpr ⟨hne, hmem⟩)
  · intro i result hresult
    by_cases hi : i = idx
    · subst hi
      cases hself.symm.trans hresult
      exact ⟨target, outcome, htarget, hstage, rfl⟩
    · rw [store_getElem?_of_ne hi] at hresult
      exact hq.stored i result hresult
  · intro i outcome' hresult hreturned
    obtain ⟨hne, hold⟩ := hother i hresult
    have hsame := (hq.noticed i outcome' hold hreturned).symm.trans hcursor
    exact absurd (Option.some.inj hsame) hne

/-- The cursor moves on when no result is waiting to be stored. -/
theorem Querying.move (hq : Querying base b client sem join)
    (hnone : ∀ i outcome, join.results[i]? = some none →
      client.stage (hoverCall i) ≠ .returned outcome) (cursor : Option Nat)
    (hinside : ∀ idx, cursor = some idx → idx ≤ join.results.length) :
    Querying base b client sem { join with cursor } where
  opened := hq.opened
  close := hq.close
  length := hq.length
  counted := hq.counted
  inside := hinside
  holding := hq.holding
  waiting := hq.waiting
  stored := hq.stored
  noticed i outcome hresult hstage := absurd hstage (hnone i outcome hresult)

theorem Querying.none_unstored (hq : Querying base b client sem join)
    (hcursor : ∀ idx, join.cursor = some idx → join.results[idx]? = some none →
      hasReturned (client.stage (hoverCall idx)) = false) (i : Nat) (outcome : Outcome)
    (hresult : join.results[i]? = some none) : client.stage (hoverCall i) ≠ .returned outcome := by
  intro hstage
  have hwaits := hcursor i (hq.noticed i outcome hresult hstage) hresult
  rw [hstage] at hwaits
  cases hwaits

theorem Querying.collected (hq : Querying base b client sem join)
    {results : List (Option (String × String))} (hresults : join.results = results.map some) :
    Collected base b client (collect results) := by
  refine ⟨hq.opened, results, rfl, ?_, ?_⟩
  · rw [← hq.length, hresults, List.length_map]
  · intro i target htarget
    have hi : i < results.length := by
      rw [← List.length_map (f := some), ← hresults, hq.length]
      exact (List.getElem?_eq_some_iff.mp htarget).1
    have hresult : results[i]? = some results[i] := List.getElem?_eq_getElem hi
    have hstored : join.results[i]? = some (some results[i]) := by
      rw [hresults, List.getElem?_map, hresult]
      rfl
    obtain ⟨target', outcome, htarget', hstage, hhit⟩ := hq.stored i _ hstored
    cases htarget.symm.trans htarget'
    exact ⟨outcome, hstage, hhit ▸ hresult⟩

end Query

theorem sound_of_phase {s : Enriching} (hs : Sound base b s) (hphase : s.phase = phase) :
    Sound base b ⟨s.client, phase⟩ := by
  rw [← hphase]
  exact hs

theorem Sound.step_client {s : Enriching} (hs : Sound base b s)
    (h : Client.Step (withBatch base b) s.client a client')
    (hallowed : ∀ c, caller a = some c → mayAct b s.phase c = true) :
    Sound base b ⟨client', s.phase⟩ := by
  obtain ⟨client, phase⟩ := s
  cases phase with
  | opening => exact Unstarted.step hs h hallowed rfl fun _ hi => mayAct_hover hi
  | querying sem join => exact Querying.step hs h hallowed
  | panicked => exact hs
  | closing map => exact Collected.step hs h
  | finished map =>
      rcases hs with ⟨hcollected, outcome, hclosed⟩ | ⟨hunstarted, hmap, error, hrefused⟩
      · exact .inl ⟨hcollected.step h, outcome, returned_kept h hclosed⟩
      · refine .inr ⟨?_, hmap, error, returned_kept h hrefused⟩
        exact hunstarted.step h hallowed rfl fun _ hi => mayAct_hover hi

theorem Sound.step {s s' : Enriching} {turn : Turn} (hs : Sound base b s)
    (h : Enrich.Step base b s turn s') : Sound base b s' := by
  cases h with
  | client hallowed hstep => exact hs.step_client hstep hallowed
  | refused hphase hstage => exact .inr ⟨sound_of_phase hs hphase, rfl, _, hstage⟩
  | openedEmpty hphase hstage htargets =>
      refine ⟨⟨_, hstage⟩, [], rfl, by rw [htargets]; rfl, ?_⟩
      intro i target htarget
      rw [htargets] at htarget
      cases htarget
  | opened hphase hstage => exact querying_start (sound_of_phase hs hphase) ⟨_, hstage⟩
  | acquire hphase hpolled hacquired =>
      exact Querying.acquire (sound_of_phase hs hphase) hpolled hacquired
  | ready hphase hpolled hfound hstage =>
      exact Querying.ready (sound_of_phase hs hphase) hpolled hfound hstage
  | @pending sem join idx hphase hcursor hinside hwaits =>
      have hq : Querying base b s.client sem join := sound_of_phase hs hphase
      refine hq.move (hq.none_unstored ?_) (some (idx + 1)) (by rintro _ ⟨⟩; exact hinside)
      intro idx' hcursor' hresult
      cases hcursor.symm.trans hcursor'
      by_contra hreturned
      refine hwaits ⟨polled_eq_some_iff.mpr ⟨hcursor, hresult⟩, ?_⟩
      simpa using hreturned
  | @park sem join hphase hcursor =>
      have hq : Querying base b s.client sem join := sound_of_phase hs hphase
      refine hq.move (hq.none_unstored ?_) none nofun
      intro idx hcursor' hresult
      cases hcursor.symm.trans hcursor'
      exact absurd (List.getElem?_eq_some_iff.mp hresult).1 (Nat.lt_irrefl _)
  | @joined sem join results hphase hcursor hcomplete hunwrapped =>
      have hq : Querying base b s.client sem join := sound_of_phase hs hphase
      obtain ⟨values, hvalues, hsome⟩ := hq.counted.unwrap hcomplete
      cases hsome.symm.trans hunwrapped
      exact hq.collected hvalues
  | @panicked sem join hphase hcursor hcomplete hunwrapped =>
      have hq : Querying base b s.client sem join := sound_of_phase hs hphase
      obtain ⟨values, -, hsome⟩ := hq.counted.unwrap hcomplete
      cases hsome.symm.trans hunwrapped
  | @wake sem join hphase hcursor =>
      have hq : Querying base b s.client sem join := sound_of_phase hs hphase
      refine hq.move (hq.none_unstored ?_) (some 0) (by rintro _ ⟨⟩; exact Nat.zero_le _)
      intro idx hcursor'
      cases hcursor.symm.trans hcursor'
  | closed hphase hstage => exact .inl ⟨sound_of_phase hs hphase, _, hstage⟩

end Invariant

def clientAction : Turn → Option Action
  | .client a => some a
  | _ => none

section Runs

variable {base : Session} {b : Batch} {s s' : Enriching} {turn : Turn}
  {cond : Enriching → Turn → Prop} {turns : List Turn}

theorem client_of_step (h : Enrich.Step base b s turn s') :
    (clientAction turn = none ∧ s'.client = s.client) ∨
      ∃ a, clientAction turn = some a ∧ Client.Step (withBatch base b) s.client a s'.client := by
  cases h with
  | client _ hstep => exact .inr ⟨_, rfl, hstep⟩
  | _ => exact .inl ⟨rfl, rfl⟩

/-- The client sees a run of its own. -/
theorem client_run (hrun : (enrich base b).Run cond s turns s') :
    (client (withBatch base b)).Run Anything s.client (turns.filterMap clientAction)
      s'.client := by
  induction hrun with
  | start => exact .start
  | @next turns t t' turn _ _ step ih =>
      rw [List.filterMap_append]
      rcases client_of_step (Enrich.step_iff.mp step) with ⟨hnone, hclient⟩ | ⟨a, hsome, hstep⟩
      · rw [List.filterMap_cons_none hnone, List.filterMap_nil, List.append_nil, hclient]
        exact ih
      · rw [List.filterMap_cons_some hsome]
        exact .next ih trivial (Client.step_iff.mpr hstep)

theorem sound_of_run (hrun : (enrich base b).Run cond start turns s) : Sound base b s :=
  hrun.invariant ⟨rfl, fun _ _ => rfl⟩ fun _ _ _ hs _ hstep =>
    hs.step (Enrich.step_iff.mp hstep)

theorem client_reachable (hrun : (enrich base b).Run cond start turns s) :
    (client (withBatch base b)).Reachable s.client :=
  (client_run hrun).reachable

/-- Before the hovers, among them, or behind them. -/
theorem Sound.stands (hs : Sound base b s) :
    Unstarted b s.client ∨
      (∃ sem join, s.phase = .querying sem join ∧ Querying base b s.client sem join) ∨
      ∃ map, Collected base b s.client map := by
  obtain ⟨client, phase⟩ := s
  cases phase with
  | opening => exact .inl hs
  | querying sem join => exact .inr (.inl ⟨sem, join, rfl, hs⟩)
  | panicked => exact hs.elim
  | closing map => exact .inr (.inr ⟨map, hs⟩)
  | finished map =>
      rcases hs with ⟨hcollected, -⟩ | ⟨hunstarted, -⟩
      · exact .inr (.inr ⟨map, hcollected⟩)
      · exact .inl hunstarted

theorem hover_begun (hs : Sound base b s) {i : Nat} (hi : i < b.targets.length)
    (hbegun : s.client.stage (hoverCall i) ≠ .idle) :
    ∃ value, s.client.stage openCall = .returned (.ok value) := by
  rcases hs.stands with hunstarted | ⟨sem, join, -, hq⟩ | ⟨map, hcollected⟩
  · exact absurd (hunstarted.hovers i hi) hbegun
  · exact hq.opened
  · exact hcollected.opened

theorem close_begun (hs : Sound base b s) (hbegun : s.client.stage closeCall ≠ .idle) :
    ∃ map, Collected base b s.client map := by
  rcases hs.stands with hunstarted | ⟨sem, join, -, hq⟩ | hcollected
  · exact absurd hunstarted.close hbegun
  · exact absurd hq.close hbegun
  · exact hcollected

theorem unstarted_of_refused (hs : Sound base b s) {error : LspError}
    (hrefused : s.client.stage openCall = .returned (.error error)) :
    Unstarted b s.client ∧ ∀ map, s.phase = .finished map → map = fun _ => none := by
  have hnot : ¬∃ value, s.client.stage openCall = .returned (.ok value) := by
    rintro ⟨value, hopened⟩
    cases hopened.symm.trans hrefused
  constructor
  · rcases hs.stands with hunstarted | ⟨sem, join, -, hq⟩ | ⟨map, hcollected⟩
    · exact hunstarted
    · exact absurd hq.opened hnot
    · exact absurd hcollected.opened hnot
  · intro map hphase
    have hfinished : Sound base b ⟨s.client, .finished map⟩ := sound_of_phase hs hphase
    rcases hfinished with ⟨hcollected, -⟩ | ⟨-, hmap, -⟩
    · exact absurd hcollected.opened hnot
    · exact hmap

theorem Collected.returned {client : LspClient} {map : String → Option String}
    (hc : Collected base b client map) {i : Nat} (hi : i < b.targets.length) :
    ∃ outcome, client.stage (hoverCall i) = .returned outcome := by
  obtain ⟨results, -, -, hresults⟩ := hc.results
  obtain ⟨outcome, hstage, -⟩ := hresults i _ (List.getElem?_eq_getElem hi)
  exact ⟨outcome, hstage⟩

def permitHolders : Phase → List Nat
  | .querying sem _ => sem.holders
  | _ => []

theorem permitHolders_length_le (phase : Phase) {keys : List Nat} (hnodup : keys.Nodup)
    (h : ∀ key ∈ keys, key ∈ permitHolders phase) : keys.length ≤ 50 := by
  cases phase with
  | querying sem join => exact sem.length_le_of_holding hnodup h
  | _ =>
      rw [List.eq_nil_iff_forall_not_mem.mpr fun key hkey => List.not_mem_nil (h key hkey)]
      exact Nat.zero_le _

/-- A hover under way holds a permit. -/
theorem holds_of_underway (hs : Sound base b s) {i : Nat} (hi : i < b.targets.length)
    (hbegun : s.client.stage (hoverCall i) ≠ .idle)
    (hreturned : ∀ outcome, s.client.stage (hoverCall i) ≠ .returned outcome) :
    i ∈ permitHolders s.phase := by
  rcases hs.stands with hunstarted | ⟨sem, join, hphase, hq⟩ | ⟨map, hcollected⟩
  · exact absurd (hunstarted.hovers i hi) hbegun
  · rw [hphase, permitHolders]
    by_contra hholds
    have hi' : i < join.results.length := by rwa [hq.length]
    rcases hresult : join.results[i] with _ | result
    · exact hbegun (hq.waiting i (List.getElem?_eq_some_iff.mpr ⟨hi', hresult⟩) hholds)
    · obtain ⟨target, outcome, -, hstage, -⟩ :=
        hq.stored i result (List.getElem?_eq_some_iff.mpr ⟨hi', hresult⟩)
      exact hreturned outcome hstage
  · obtain ⟨outcome, hstage⟩ := hcollected.returned hi
    exact absurd hstage (hreturned outcome)

theorem pending_capped (hrun : (enrich base b).Run cond start turns s) {keys : List Int}
    (hnodup : keys.Nodup) (hkeys : ∀ key ∈ keys, ∃ i, i < b.targets.length ∧
      s.client.pending key = some (hoverCall i)) : keys.length ≤ 50 := by
  have hreachable := client_reachable hrun
  obtain ⟨hcorrelated, -⟩ := reachable_sound hreachable
  let target : Int → Nat := fun key => (s.client.pending key).getD 0 - 2
  have htarget : ∀ key i, s.client.pending key = some (hoverCall i) → target key = i := by
    intro key i hpending
    simp [target, hpending, hoverCall]
  have hinjective : (keys.map target).Nodup := by
    refine List.Nodup.map_on ?_ hnodup
    intro key hkey key' hkey' hsame
    obtain ⟨i, -, hpending⟩ := hkeys key hkey
    obtain ⟨i', -, hpending'⟩ := hkeys key' hkey'
    rw [htarget key i hpending, htarget key' i' hpending'] at hsame
    rw [← (hcorrelated.pending_ids hpending).1, ← (hcorrelated.pending_ids hpending').1, hsame]
  rw [← List.length_map (f := target)]
  refine permitHolders_length_le s.phase hinjective fun i hi => ?_
  obtain ⟨key, hkey, rfl⟩ := List.mem_map.mp hi
  obtain ⟨i, hi, hpending⟩ := hkeys key hkey
  obtain ⟨hbegun, hreturned⟩ := stage_of_pending hreachable hpending
  rw [htarget key i hpending]
  exact holds_of_underway (sound_of_run hrun) hi hbegun hreturned

end Runs

/-- Target `i` has this id, and its hover has brought this text. -/
def Got (base : Session) (b : Batch) (client : LspClient) (id text : String) (i : Nat) : Prop :=
  ∃ target outcome, b.targets[i]? = some target ∧ target.id = id ∧
    client.stage (hoverCall i) = .returned outcome ∧
    hoverResult base.serde outcome = .ok (some text)

section Map

variable {base : Session} {b : Batch} {client : LspClient} {map : String → Option String}
  {id text : String}

theorem insertHit_eq_some_iff {serde : SerdeJson} {target : HoverTarget} {outcome : Outcome}
    {content : Option String} :
    insertHit (hit serde target outcome) id = some content ↔
      target.id = id ∧ ∃ text, hoverResult serde outcome = .ok (some text) ∧
        content = some text := by
  unfold hit
  rcases hoverResult serde outcome with error | _ | found
  · simp [insertHit]
  · simp [insertHit]
  · simp [insertHit, eq_comm]

theorem got_iff {results : List (Option (String × String))}
    (hlength : results.length = b.targets.length)
    (hresults : ∀ i target, b.targets[i]? = some target → ∃ outcome,
      client.stage (hoverCall i) = .returned outcome ∧
        results[i]? = some (hit base.serde target outcome)) {i : Nat}
    {result : Option (String × String)} (hresult : results[i]? = some result)
    {content : Option String} :
    insertHit result id = some content ↔
      ∃ text, Got base b client id text i ∧ content = some text := by
  have hi : i < b.targets.length := hlength ▸ (List.getElem?_eq_some_iff.mp hresult).1
  obtain ⟨outcome, hstage, hhit⟩ := hresults i _ (List.getElem?_eq_getElem hi)
  cases hresult.symm.trans hhit
  rw [insertHit_eq_some_iff]
  constructor
  · rintro ⟨hid, text, htext, rfl⟩
    exact ⟨text, ⟨_, outcome, List.getElem?_eq_getElem hi, hid, hstage, htext⟩, rfl⟩
  · rintro ⟨text, ⟨target, outcome', htarget, hid, hstage', htext⟩, rfl⟩
    cases (List.getElem?_eq_getElem hi).symm.trans htarget
    cases hstage.symm.trans hstage'
    exact ⟨hid, text, htext, rfl⟩

theorem Got.place {results : List (Option (String × String))}
    (hlength : results.length = b.targets.length) {i : Nat} (h : Got base b client id text i) :
    ∃ result, results[i]? = some result := by
  obtain ⟨target, -, htarget, -⟩ := h
  have hi : i < results.length := hlength ▸ (List.getElem?_eq_some_iff.mp htarget).1
  exact ⟨_, List.getElem?_eq_getElem hi⟩

/-- An id has the text of its last target that got one. -/
theorem Collected.map_eq_some_iff (hc : Collected base b client map) :
    map id = some text ↔ ∃ i, Got base b client id text i ∧
      ∀ j text', i < j → ¬Got base b client id text' j := by
  obtain ⟨results, rfl, hlength, hresults⟩ := hc.results
  have hgot : ∀ {i : Nat} {result}, results[i]? = some result → ∀ {content},
      insertHit result id = some content ↔
        ∃ text, Got base b client id text i ∧ content = some text :=
    fun hresult => got_iff hlength hresults hresult
  rw [collect_eq_replay, Journal.replay_eq_some_iff_getElem?]
  constructor
  · rintro ⟨i, result, hresult, hwrite, hlater⟩
    obtain ⟨text', hi, htext⟩ := (hgot hresult).mp hwrite
    cases htext
    refine ⟨i, hi, ?_⟩
    intro j text' hj hgot'
    obtain ⟨result', hresult'⟩ := hgot'.place hlength
    have hsome := (hgot hresult').mpr ⟨text', hgot', rfl⟩
    rw [hlater j result' hj hresult'] at hsome
    cases hsome
  · rintro ⟨i, hi, hlater⟩
    obtain ⟨result, hresult⟩ := hi.place hlength
    refine ⟨i, result, hresult, (hgot hresult).mpr ⟨text, hi, rfl⟩, ?_⟩
    intro j result' hj hresult'
    rcases hwrite : insertHit result' id with _ | content
    · rfl
    · obtain ⟨text', hgot', -⟩ := (hgot hresult').mp hwrite
      exact absurd hgot' (hlater j text' hj)

theorem Collected.mem_map_iff (hc : Collected base b client map) :
    (∃ text, map id = some text) ↔ ∃ i text, Got base b client id text i := by
  constructor
  · rintro ⟨text, htext⟩
    obtain ⟨i, hi, -⟩ := hc.map_eq_some_iff.mp htext
    exact ⟨i, text, hi⟩
  · rintro ⟨i, text, hi⟩
    obtain ⟨results, rfl, hlength, hresults⟩ := hc.results
    obtain ⟨result, hresult⟩ := hi.place hlength
    have hwrite := (got_iff hlength hresults hresult).mpr ⟨text, hi, rfl⟩
    have hkeeps : ∀ entry ∈ results, insertHit entry id ≠ some none := by
      rintro (_ | ⟨key, found⟩) -
      · exact nofun
      · simp [insertHit]
    by_contra hnone
    have hnone : collect results id = none := by
      rcases hid : collect results id with _ | found
      · rfl
      · exact absurd ⟨found, hid⟩ hnone
    rw [collect_eq_replay, Journal.replay_eq_none_iff hkeeps] at hnone
    rw [hnone _ (List.mem_of_getElem? hresult)] at hwrite
    cases hwrite

end Map

end IntentumdiffLsp.Enrichment
