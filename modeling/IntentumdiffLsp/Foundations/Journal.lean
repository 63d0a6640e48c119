import Mathlib.Data.List.Induction
import Mathlib.Tactic.Common

namespace Foundations.Journal

variable {ε κ ν : Type*}

/-- The content of a map after a journal of entries. An entry leaves a key alone,
or gives it a new content, which may be none. -/
def replay (write : ε → κ → Option (Option ν)) (journal : List ε) (key : κ) : Option ν :=
  journal.foldl (fun content entry => (write entry key).getD content) none

variable {write write' : ε → κ → Option (Option ν)} {journal : List ε} {key : κ}

theorem replay_append_singleton (journal : List ε) (entry : ε) (key : κ) :
    replay write (journal ++ [entry]) key =
      (write entry key).getD (replay write journal key) := by
  rw [replay, List.foldl_append]
  rfl

theorem replay_untouched {front back : List ε}
    (h : ∀ entry ∈ back, write entry key = none) :
    replay write (front ++ back) key = replay write front key := by
  induction back using List.reverseRecOn with
  | nil => rw [List.append_nil]
  | append_singleton back entry ih =>
      rw [← List.append_assoc, replay_append_singleton, h entry (by simp), Option.getD_none]
      exact ih fun entry' hentry' => h entry' (by simp [hentry'])

theorem replay_map {δ : Type*} (f : δ → ε) (entries : List δ) (key : κ) :
    replay write (entries.map f) key = replay (fun entry => write (f entry)) entries key := by
  rw [replay, List.foldl_map]
  rfl

/-- Entries that stand for no other leave every key alone. -/
theorem replay_filterMap {δ : Type*} (f : δ → Option ε) (entries : List δ) (key : κ) :
    replay write (entries.filterMap f) key =
      replay (fun entry key => (f entry).bind fun e => write e key) entries key := by
  induction entries using List.reverseRecOn with
  | nil => rfl
  | append_singleton entries entry ih =>
      rw [List.filterMap_append, replay_append_singleton, ← ih, List.filterMap_cons]
      rcases f entry with _ | e
      · rw [List.filterMap_nil, List.append_nil]
        rfl
      · rw [List.filterMap_nil, replay_append_singleton]
        rfl

/-- A key has the content that the last entry about it gave it. -/
theorem replay_eq_some_iff {value : ν} :
    replay write journal key = some value ↔
      ∃ front entry back, journal = front ++ entry :: back ∧
        write entry key = some (some value) ∧ ∀ entry' ∈ back, write entry' key = none := by
  constructor
  · intro h
    induction journal using List.reverseRecOn with
    | nil => cases h
    | append_singleton journal entry ih =>
        rw [replay_append_singleton] at h
        rcases hentry : write entry key with _ | content
        · rw [hentry, Option.getD_none] at h
          obtain ⟨front, writer, back, rfl, hwriter, hback⟩ := ih h
          refine ⟨front, writer, back ++ [entry], by simp, hwriter, ?_⟩
          intro entry' hentry'
          rcases List.mem_append.mp hentry' with hmem | hmem
          · exact hback entry' hmem
          · rw [List.mem_singleton.mp hmem]
            exact hentry
        · rw [hentry, Option.getD_some] at h
          exact ⟨journal, entry, [], rfl, hentry.trans (congrArg some h), by simp⟩
  · rintro ⟨front, entry, back, rfl, hentry, hback⟩
    have hsplit : front ++ entry :: back = front ++ [entry] ++ back := by simp
    rw [hsplit, replay_untouched hback, replay_append_singleton, hentry]
    rfl

/-- The same by places: no entry at a later place is about the key. -/
theorem replay_eq_some_iff_getElem? {value : ν} :
    replay write journal key = some value ↔
      ∃ (i : Nat) (entry : ε), journal[i]? = some entry ∧ write entry key = some (some value) ∧
        ∀ (j : Nat) (entry' : ε), i < j → journal[j]? = some entry' → write entry' key = none := by
  rw [replay_eq_some_iff]
  constructor
  · rintro ⟨front, entry, back, rfl, hentry, hback⟩
    refine ⟨front.length, entry, by simp, hentry, ?_⟩
    intro j entry' hj hentry'
    obtain ⟨k, rfl⟩ := Nat.exists_eq_add_of_lt hj
    refine hback entry' (List.mem_of_getElem? (i := k) ?_)
    rwa [Nat.add_assoc, List.getElem?_append_right (Nat.le_add_right _ _),
      Nat.add_sub_cancel_left, List.getElem?_cons_succ] at hentry'
  · rintro ⟨i, entry, hi, hentry, hlater⟩
    obtain ⟨hlt, rfl⟩ := List.getElem?_eq_some_iff.mp hi
    refine ⟨journal.take i, journal[i], journal.drop (i + 1), by simp, hentry, ?_⟩
    intro entry' hmem
    obtain ⟨k, hk⟩ := List.mem_iff_getElem?.mp hmem
    rw [List.getElem?_drop] at hk
    exact hlater (i + 1 + k) entry' (by omega) hk

/-- Where no entry takes a content away, a key without one was never written. -/
theorem replay_eq_none_iff (hkeeps : ∀ entry ∈ journal, write entry key ≠ some none) :
    replay write journal key = none ↔ ∀ entry ∈ journal, write entry key = none := by
  induction journal using List.reverseRecOn with
  | nil => exact ⟨fun _ => nofun, fun _ => rfl⟩
  | append_singleton journal entry ih =>
      have ih := ih fun entry' hentry' => hkeeps entry' (List.mem_append_left _ hentry')
      rw [replay_append_singleton, List.forall_mem_append, List.forall_mem_singleton, ← ih]
      rcases hentry : write entry key with _ | _ | value
      · simp
      · exact absurd hentry (hkeeps entry (by simp))
      · simp

/-- What is given by the last entry that gives anything. -/
def latest (give : ε → Option ν) (journal : List ε) : Option ν :=
  (journal.filterMap give).getLast?

theorem latest_append_singleton (give : ε → Option ν) (journal : List ε) (entry : ε) :
    latest give (journal ++ [entry]) = (give entry).or (latest give journal) := by
  rw [latest, List.filterMap_append, List.getLast?_append, List.filterMap_cons]
  rcases give entry with _ | value <;> rfl

/-- Every entry is explained by the entries in front of it. -/
def Explained (explains : List ε → ε → Prop) (journal : List ε) : Prop :=
  ∀ front entry back, journal = front ++ entry :: back → explains front entry

variable {explains : List ε → ε → Prop}

theorem explained_nil : Explained explains [] := by
  intro front entry back h
  simp at h

theorem Explained.append_singleton (h : Explained explains journal) {entry : ε}
    (hentry : explains journal entry) : Explained explains (journal ++ [entry]) := by
  intro front entry' back heq
  rcases List.eq_nil_or_concat back with rfl | ⟨back, last, rfl⟩
  · obtain ⟨rfl, hlast⟩ := List.append_inj' heq rfl
    cases hlast
    exact hentry
  · have hsplit : journal ++ [entry] = (front ++ entry' :: back) ++ [last] := by
      rw [heq]
      simp
    exact h front entry' back (List.append_inj' hsplit rfl).1

theorem Explained.of_mem (h : Explained explains journal) {entry : ε} (hentry : entry ∈ journal) :
    ∃ front, explains front entry := by
  obtain ⟨front, back, hjournal⟩ := List.append_of_mem hentry
  exact ⟨front, h front entry back hjournal⟩

end Foundations.Journal
