import IntentumdiffLsp.Enrichment
import IntentumdiffLsp.Foundations.Polling

/-!
`futures_join_all` over futures of any behaviour, poll by poll.
-/

namespace IntentumdiffLsp.Joining

open Foundations
open Foundations.ActionSystem
open IntentumdiffLsp.Enrich
open IntentumdiffLsp.Enrichment

variable {σ τ ω : Type}

/-- What `poll_fn` has captured; nothing is left of a future once it has returned. -/
structure PollFn (σ τ : Type) where
  set : List (Option σ)
  join : JoinAll τ

def start (futs : List σ) : PollFn σ τ where
  set := futs.map some
  join := .start futs.length

section Model

variable (poll : σ → ω → Poll σ τ) (world : Nat → ω)

/-- One round of the loop. It panics on an index out of bounds and on polling a future
that has returned. -/
def visit (s : PollFn σ τ) (idx : Nat) : Option (PollFn σ τ) :=
  match s.join.results[idx]? with
  | none => none
  | some (some _) => some { s with join := s.join.next idx }
  | some none =>
      match s.set[idx]? with
      | some (some fut) =>
          match poll fut (world idx) with
          | .ready value => some ⟨s.set.set idx none, s.join.store idx value⟩
          | .pending fut => some ⟨s.set.set idx (some fut), s.join.next idx⟩
      | _ => none

/-- The first `k` rounds of the loop. -/
def visits (s : PollFn σ τ) (k : Nat) : Option (PollFn σ τ) :=
  (List.range k).foldlM (visit poll world) { s with join := s.join.wake }

inductive Joined (σ τ : Type) where
  | pending (s : PollFn σ τ)
  | ready (values : List τ)

/-- One poll of the whole; nothing if it panics. -/
def pollJoin (s : PollFn σ τ) : Option (Joined σ τ) :=
  let total := s.set.length
  (visits poll world s total).bind fun s =>
    if s.join.done = total then s.join.unwrap.map .ready
    else some (.pending { s with join := s.join.park })

end Model

/-- The polls of a join as long as it is pending. -/
def polling (poll : σ → ω → Poll σ τ) (futs : List σ) : ActionSystem (PollFn σ τ) (Nat → ω) where
  init := start futs
  step s world :=
    match pollJoin poll world s with
    | some (.pending s) => some s
    | _ => none

section Loop

variable {poll : σ → ω → Poll σ τ} {s s' : PollFn σ τ} {progress : List (Poll σ τ)}

/-- The join holds exactly what has become of its futures. -/
structure Shows (s : PollFn σ τ) (progress : List (Poll σ τ)) : Prop where
  set : s.set = progress.map Poll.live
  results : s.join.results = progress.map Poll.value
  counted : Counted s.join

theorem shows_start (futs : List σ) :
    Shows (start futs : PollFn σ τ) (futs.map Poll.pending) where
  set := by
    rw [List.map_map]
    rfl
  results := by
    rw [List.map_map]
    exact List.map_const.symm
  counted := counted_start futs.length

theorem Shows.length (h : Shows s progress) : s.set.length = progress.length := by
  rw [h.set, List.length_map]

variable (poll)

/-- A round polls the future at its index, unless that has returned. -/
theorem Shows.visit (h : Shows s progress) (world : Nat → ω) {idx : Nat} {p : Poll σ τ}
    (hidx : progress[idx]? = some p) :
    ∃ s', visit poll world s idx = some s' ∧
      Shows s' (progress.set idx (p.advance poll (world idx))) := by
  have hset : s.set[idx]? = some p.live := by
    rw [h.set, List.getElem?_map, hidx, Option.map_some]
  have hresult : s.join.results[idx]? = some p.value := by
    rw [h.results, List.getElem?_map, hidx, Option.map_some]
  obtain ⟨hlt, hget⟩ := List.getElem?_eq_some_iff.mp hidx
  cases p with
  | ready value =>
      have hkept : progress.set idx (.ready value) = progress := by
        rw [← hget, List.set_getElem_self]
      refine ⟨{ s with join := s.join.next idx }, ?_, ?_⟩
      · rw [Joining.visit, hresult]
        rfl
      · rw [Poll.advance, hkept]
        exact ⟨h.set, h.results, h.counted⟩
  | pending fut =>
      rw [Poll.advance]
      rcases hpoll : poll fut (world idx) with next | value
      · refine ⟨⟨s.set.set idx (some next), s.join.next idx⟩, ?_, ?_, ?_, h.counted⟩
        · rw [Joining.visit, hresult, hset]
          simp only [Poll.value, Poll.live, hpoll]
        · rw [List.map_set, h.set]
          rfl
        · have hnone : (progress.map Poll.value).set idx none = progress.map Poll.value := by
            rw [← h.results]
            obtain ⟨hlt', hget'⟩ := List.getElem?_eq_some_iff.mp hresult
            exact (congrArg _ hget'.symm).trans (List.set_getElem_self hlt')
          rw [List.map_set]
          exact h.results.trans hnone.symm
      · refine ⟨⟨s.set.set idx none, s.join.store idx value⟩, ?_, ?_, ?_, ?_⟩
        · rw [Joining.visit, hresult, hset]
          simp only [Poll.value, Poll.live, hpoll]
        · rw [List.map_set, h.set]
          rfl
        · rw [List.map_set, JoinAll.store, h.results]
          rfl
        · exact counted_store h.counted hresult value

/-- The futures after the first `k` of them were polled once more. -/
def advanced (world : Nat → ω) (k : Nat)
    (progress : List (Poll σ τ)) : List (Poll σ τ) :=
  progress.mapIdx fun i p => if i < k then p.advance poll (world i) else p

variable {poll}

theorem getElem?_advanced (world : Nat → ω) (k i : Nat) :
    (advanced poll world k progress)[i]? =
      progress[i]?.map fun p => if i < k then p.advance poll (world i) else p :=
  List.getElem?_mapIdx

theorem advanced_zero (world : Nat → ω) : advanced poll world 0 progress = progress := by
  apply List.ext_getElem?
  intro i
  rw [getElem?_advanced]
  simp

theorem advanced_succ (world : Nat → ω) {k : Nat} {p : Poll σ τ} (hk : progress[k]? = some p) :
    (advanced poll world k progress).set k (p.advance poll (world k)) =
      advanced poll world (k + 1) progress := by
  have hlt : k < (advanced poll world k progress).length := by
    rw [advanced, List.length_mapIdx]
    exact (List.getElem?_eq_some_iff.mp hk).1
  apply List.ext_getElem?
  intro i
  rw [getElem?_advanced]
  rcases eq_or_ne k i with rfl | hne
  · rw [List.getElem?_set_self hlt, hk, Option.map_some, if_pos (Nat.lt_succ_self k)]
  · have hiff : i < k ↔ i < k + 1 := by omega
    rw [List.getElem?_set_ne hne, getElem?_advanced]
    simp only [hiff]

variable (poll)

/-- The loop does not panic, and polls each future that has not returned once. -/
theorem Shows.visits (h : Shows s progress) (world : Nat → ω) {k : Nat}
    (hk : k ≤ progress.length) :
    ∃ s', visits poll world s k = some s' ∧ Shows s' (advanced poll world k progress) := by
  induction k with
  | zero =>
      refine ⟨_, rfl, ?_⟩
      rw [advanced_zero]
      exact ⟨h.set, h.results, h.counted⟩
  | succ k ih =>
      obtain ⟨s₁, hvisits, hshows⟩ := ih (Nat.le_of_succ_le hk)
      have hget := List.getElem?_eq_getElem (Nat.lt_of_succ_le hk)
      have hnext : (advanced poll world k progress)[k]? = some progress[k] := by
        rw [getElem?_advanced, hget, Option.map_some, if_neg (Nat.lt_irrefl k)]
      obtain ⟨s₂, hvisit, hshows'⟩ := hshows.visit poll world hnext
      rw [advanced_succ world hget] at hshows'
      refine ⟨s₂, ?_, hshows'⟩
      rw [Joining.visits] at hvisits ⊢
      rw [List.range_succ, List.foldlM_append, hvisits]
      simp only [Option.bind_eq_bind, Option.bind_some, List.foldlM_cons, hvisit, List.foldlM_nil]
      rfl

/-- A poll ends with the values if there are all of them, and leaves the join pending if
one is missing. -/
theorem Shows.pollJoin (h : Shows s progress) (world : Nat → ω) :
    (∃ values, (advanced poll world progress.length progress).map Poll.value = values.map some ∧
        pollJoin poll world s = some (.ready values)) ∨
      ∃ s', pollJoin poll world s = some (.pending s') ∧
        Shows s' (advanced poll world progress.length progress) ∧
        ∃ (i : Nat) (p : Poll σ τ),
          (advanced poll world progress.length progress)[i]? = some p ∧ p.value = none := by
  obtain ⟨s', hvisits, hshows⟩ := h.visits poll world (Nat.le_refl _)
  have htotal : s'.join.results.length = progress.length := by
    rw [hshows.results, List.length_map, advanced, List.length_mapIdx]
  have hpoll : Joining.pollJoin poll world s =
      if s'.join.done = progress.length then s'.join.unwrap.map .ready
      else some (.pending { s' with join := s'.join.park }) := by
    rw [Joining.pollJoin, h.length, hvisits, Option.bind_some]
  by_cases hdone : s'.join.done = progress.length
  · obtain ⟨values, hvalues, hunwrap⟩ := hshows.counted.unwrap (hdone.trans htotal.symm)
    refine .inl ⟨values, hshows.results.symm.trans hvalues, ?_⟩
    rw [hpoll, if_pos hdone, hunwrap]
    rfl
  · obtain ⟨i, hmissing⟩ := hshows.counted.exists_missing fun heq => hdone (heq.trans htotal)
    rw [hshows.results, List.getElem?_map, Option.map_eq_some_iff] at hmissing
    refine .inr ⟨{ s' with join := s'.join.park }, ?_, ?_, i, hmissing⟩
    · rw [hpoll, if_neg hdone]
    · exact ⟨hshows.set, hshows.results, hshows.counted⟩

end Loop

section Schedule

variable (poll : σ → ω → Poll σ τ) (futs : List σ)

/-- The value that a future has given by the end of the polls, on its own. -/
def returned (i : Nat) (fut : σ) (polls : List (Nat → ω)) : Option τ :=
  (Poll.alone poll fut (polls.map fun world => world i)).value

def AllReturned (polls : List (Nat → ω)) : Prop :=
  ∀ i fut, futs[i]? = some fut → (returned poll i fut polls).isSome = true

def progressAfter (polls : List (Nat → ω)) : List (Poll σ τ) :=
  futs.mapIdx fun i fut => Poll.alone poll fut (polls.map fun world => world i)

variable {poll futs} {polls : List (Nat → ω)}

theorem getElem?_progressAfter (i : Nat) :
    (progressAfter poll futs polls)[i]? =
      futs[i]?.map fun fut => Poll.alone poll fut (polls.map fun world => world i) :=
  List.getElem?_mapIdx

theorem progressAfter_nil : progressAfter poll futs [] = futs.map Poll.pending := by
  apply List.ext_getElem?
  intro i
  rw [getElem?_progressAfter, List.getElem?_map]
  rfl

theorem progressAfter_append (world : Nat → ω) :
    advanced poll world (progressAfter poll futs polls).length (progressAfter poll futs polls) =
      progressAfter poll futs (polls ++ [world]) := by
  apply List.ext_getElem?
  intro i
  rw [getElem?_advanced, getElem?_progressAfter, getElem?_progressAfter, Option.map_map]
  refine Option.map_congr fun fut hfut => ?_
  have hlt : i < (progressAfter poll futs polls).length := by
    rw [progressAfter, List.length_mapIdx]
    exact (List.getElem?_eq_some_iff.mp hfut).1
  rw [List.map_append, List.map_singleton, Poll.alone_append_singleton, Function.comp_apply,
    if_pos hlt]

theorem not_allReturned {i : Nat} {p : Poll σ τ}
    (h : (progressAfter poll futs polls)[i]? = some p) (hp : p.value = none) :
    ¬AllReturned poll futs polls := by
  intro hall
  rw [getElem?_progressAfter] at h
  obtain ⟨fut, hfut, rfl⟩ := Option.map_eq_some_iff.mp h
  have hsome := hall i fut hfut
  rw [returned, hp] at hsome
  cases hsome

/-- A join that is pending shows its futures as they are on their own, and one of them
has not returned. -/
theorem shows_of_run {s : PollFn σ τ} (h : (polling poll futs).Run Anything (start futs) polls s) :
    Shows s (progressAfter poll futs polls) ∧ (polls ≠ [] → ¬AllReturned poll futs polls) := by
  refine h.trace_invariant (P := fun polls s => Shows s (progressAfter poll futs polls) ∧
    (polls ≠ [] → ¬AllReturned poll futs polls)) ?_ ?_
  · rw [progressAfter_nil]
    exact ⟨shows_start futs, fun hne => absurd rfl hne⟩
  · rintro polls s world s' - ⟨hshows, -⟩ - hstep
    rcases hshows.pollJoin poll world with ⟨values, -, hpoll⟩ |
      ⟨s₁, hpoll, hshows', i, p, hi, hp⟩
    · simp only [polling, hpoll] at hstep
      cases hstep
    · simp only [polling, hpoll] at hstep
      cases hstep
      rw [progressAfter_append] at hshows' hi
      exact ⟨hshows', fun _ => not_allReturned hi hp⟩

/-- In the loop the counter is right, and exactly the futures without a result are left
to be polled. -/
structure InLoop (s : PollFn σ τ) : Prop where
  done : s.join.done = s.join.results.countP Option.isSome
  live : ∀ i : Nat, s.join.results[i]? = some none ↔ ∃ fut, s.set[i]? = some (some fut)

theorem Shows.inLoop {s : PollFn σ τ} {progress : List (Poll σ τ)} (h : Shows s progress) :
    InLoop s where
  done := h.counted
  live i := by
    rw [h.results, h.set, List.getElem?_map, List.getElem?_map]
    rcases progress[i]? with _ | (next | value)
    · simp
    · simp [Poll.value, Poll.live]
    · simp [Poll.value, Poll.live]

theorem value_of_mem {values : List τ} {i : Nat} {fut : σ}
    (h : (progressAfter poll futs polls).map Poll.value = values.map some)
    (hfut : futs[i]? = some fut) :
    ∃ value, returned poll i fut polls = some value ∧ values[i]? = some value := by
  have hi := congrArg (·[i]?) h
  simp only [List.getElem?_map, getElem?_progressAfter, hfut, Option.map_some] at hi
  obtain ⟨value, hvalue, heq⟩ := Option.map_eq_some_iff.mp hi.symm
  exact ⟨value, heq.symm, hvalue⟩

/-- Over any schedule, a join that is pending polls only what has not returned, counts
right and does not panic, and its next poll ends it exactly if all futures have returned by
then, with their values in order. -/
theorem join_correct {s : PollFn σ τ}
    (h : (polling poll futs).Run Anything (start futs) polls s) :
    (∀ world k, k ≤ futs.length → ∃ s', visits poll world s k = some s' ∧ InLoop s') ∧
      (polls ≠ [] → ¬AllReturned poll futs polls) ∧
      ∀ world,
        (AllReturned poll futs (polls ++ [world]) →
          ∃ values, pollJoin poll world s = some (.ready values) ∧ values.length = futs.length ∧
            ∀ i fut, futs[i]? = some fut → ∃ value,
              returned poll i fut (polls ++ [world]) = some value ∧ values[i]? = some value) ∧
        (¬AllReturned poll futs (polls ++ [world]) →
          ∃ s', pollJoin poll world s = some (.pending s')) := by
  obtain ⟨hshows, hfirst⟩ := shows_of_run h
  have hlength : (progressAfter poll futs polls).length = futs.length := List.length_mapIdx
  refine ⟨fun world k hk => ?_, hfirst, fun world => ?_⟩
  · obtain ⟨s', hvisits, hshows'⟩ := hshows.visits poll world (hlength.symm ▸ hk)
    exact ⟨s', hvisits, hshows'.inLoop⟩
  · have hpoll := hshows.pollJoin poll world
    rw [progressAfter_append] at hpoll
    rcases hpoll with ⟨values, hvalues, hready⟩ | ⟨s', hpending, -, i, p, hi, hp⟩
    · have hvalue := fun i fut hfut => @value_of_mem _ _ _ poll futs _ values i fut hvalues hfut
      constructor
      · intro _
        refine ⟨values, hready, ?_, hvalue⟩
        have hcount := congrArg List.length hvalues
        rw [List.length_map, List.length_map, progressAfter, List.length_mapIdx] at hcount
        exact hcount.symm
      · intro hnot
        refine absurd (fun i fut hfut => ?_) hnot
        obtain ⟨value, hreturned, -⟩ := hvalue i fut hfut
        rw [hreturned]
        rfl
    · exact ⟨fun hall => absurd hall (not_allReturned hi hp), fun _ => ⟨s', hpending⟩⟩

end Schedule

/-- A future that is pending for a number of polls. -/
def countdown : Nat × String → Unit → Poll (Nat × String) String
  | (0, text), _ => .ready text
  | (n + 1, text), _ => .pending (n, text)

def slowAndFast : List (Nat × String) :=
  [(1, "slow"), (0, "fast")]

theorem join_correct_countdown :
    ∃ s values, (polling countdown slowAndFast).Run Anything (start slowAndFast) [fun _ => ()] s ∧
      pollJoin countdown (fun _ => ()) s = some (.ready values) ∧ values[0]? = some "slow" := by
  have hplay : (polling countdown slowAndFast).play (start slowAndFast) [fun _ => ()] =
      some ⟨[some (0, "slow"), none], ⟨[none, some "fast"], 1, none⟩⟩ := rfl
  have hrun := run_of_play hplay
  have hall : AllReturned countdown slowAndFast ([fun _ => ()] ++ [fun _ => ()]) := by
    rintro (_ | _ | i) fut hfut
    · cases hfut
      rfl
    · cases hfut
      rfl
    · cases hfut
  obtain ⟨values, hready, -, hvalues⟩ := ((join_correct hrun).2.2 fun _ => ()).1 hall
  obtain ⟨value, hreturned, hvalue⟩ := hvalues 0 (1, "slow") rfl
  cases hreturned
  exact ⟨_, values, hrun, hready, hvalue⟩

end IntentumdiffLsp.Joining
