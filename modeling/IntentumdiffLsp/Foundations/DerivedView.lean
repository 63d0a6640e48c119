import Mathlib.Logic.Function.Basic
import Mathlib.Data.List.Basic
import Mathlib.Data.List.Nodup
import Mathlib.Tactic.Common

/-!
Documents with a view that is derived from each of them, now or later.
-/

namespace Foundations.DerivedView

open Function

variable {κ γ ν π : Type*}

/-- The documents, the views derived from them, and what was last announced of each. -/
structure Store (κ γ ν π : Type*) where
  content : κ → Option γ
  view : κ → Option ν
  published : κ → Option π

inductive Edit (κ γ : Type*) where
  | put (key : κ) (content : γ)
  | remove (key : κ)

variable [DecidableEq κ]

def Edit.apply : Edit κ γ → Store κ γ ν π → Store κ γ ν π
  | put key content, s => { s with content := update s.content key (some content) }
  | remove key, s =>
      { s with content := update s.content key none, view := update s.view key none }

/-- The keys whose views are out of date, after the edit. -/
def Edit.mark : Edit κ γ → List κ → List κ
  | put key _, dirty => if key ∈ dirty then dirty else dirty ++ [key]
  | remove key, dirty => dirty.filter fun k => decide (k ≠ key)

def Edit.write : Edit κ γ → (κ → Option γ) → κ → Option γ
  | put key content, old => update old key (some content)
  | remove key, old => update old key none

def Edit.contentEntry : Edit κ γ → κ → Option (Option γ)
  | put key content, k => if k = key then some (some content) else none
  | remove key, k => if k = key then some none else none

def Edit.viewEntry : Edit κ γ → κ → Option (Option ν)
  | put _ _, _ => none
  | remove key, k => if k = key then some none else none

section Apply

variable (s : Store κ γ ν π) (key : κ)

@[simp] theorem Edit.put_content (content : γ) :
    ((put key content).apply s).content = update s.content key (some content) := rfl

@[simp] theorem Edit.remove_content :
    ((remove key).apply s).content = update s.content key none := rfl

@[simp] theorem Edit.remove_view :
    ((remove key).apply s).view = update s.view key none := rfl

theorem Edit.content_eq (edit : Edit κ γ) :
    (edit.apply s).content key = (edit.contentEntry key).getD (s.content key) := by
  cases edit with
  | put key' content =>
      rw [put_content, update_apply, contentEntry]
      split <;> rfl
  | remove key' =>
      rw [remove_content, update_apply, contentEntry]
      split <;> rfl

theorem Edit.contentEntry_eq_text {edit : Edit κ γ} {content : γ} :
    edit.contentEntry key = some (some content) ↔ edit = .put key content := by
  cases edit with
  | put key' content' => simp [contentEntry, eq_comm]
  | remove key' => simp [contentEntry]

theorem Edit.contentEntry_eq_close {edit : Edit κ γ} :
    edit.contentEntry key = some none ↔ edit = .remove key := by
  cases edit with
  | put key' content' => simp [contentEntry]
  | remove key' => simp [contentEntry, eq_comm]

theorem Edit.view_eq (edit : Edit κ γ) :
    (edit.apply s).view key = (edit.viewEntry key).getD (s.view key) := by
  cases edit with
  | put key' content => rfl
  | remove key' =>
      rw [remove_view, update_apply, viewEntry]
      split <;> rfl

end Apply

theorem Edit.mem_mark_put {key key' : κ} {content : γ} {dirty : List κ} :
    key' ∈ (put key content).mark dirty ↔ key' ∈ dirty ∨ key' = key := by
  simp only [mark]
  split
  · rename_i hmem
    constructor
    · exact .inl
    · rintro (h | rfl)
      · exact h
      · exact hmem
  · simp

theorem Edit.mem_mark_remove {key key' : κ} {dirty : List κ} :
    key' ∈ (remove key : Edit κ γ).mark dirty ↔ key' ∈ dirty ∧ key' ≠ key := by
  simp [mark]

/-- Only documents that are there have a view or wait for one, and each waits once. -/
structure Tidy (dirty : List κ) (s : Store κ γ ν π) : Prop where
  covered : ∀ key, s.view key ≠ none → s.content key ≠ none
  listed : dirty.Nodup
  held : ∀ key ∈ dirty, s.content key ≠ none

theorem Tidy.apply {dirty : List κ} {s : Store κ γ ν π} (h : Tidy dirty s) (edit : Edit κ γ) :
    Tidy (edit.mark dirty) (edit.apply s) := by
  cases edit with
  | put key content =>
      have hpresent : ∀ key', s.content key' ≠ none →
          ((Edit.put key content).apply s).content key' ≠ none := by
        intro key' hcontent
        rcases eq_or_ne key' key with rfl | hne
        · simp
        · rwa [Edit.put_content, update_of_ne hne]
      constructor
      · exact fun key' hview => hpresent key' (h.covered key' hview)
      · rw [Edit.mark]
        split
        · exact h.listed
        · rename_i hmem
          exact h.listed.append (List.nodup_singleton key) (by simpa using hmem)
      · intro key' hdirty
        rcases Edit.mem_mark_put.mp hdirty with hold | rfl
        · exact hpresent key' (h.held key' hold)
        · simp
  | remove key =>
      constructor
      · intro key' hview
        rcases eq_or_ne key' key with rfl | hne
        · simp at hview
        · rw [Edit.remove_view, update_of_ne hne] at hview
          rw [Edit.remove_content, update_of_ne hne]
          exact h.covered key' hview
      · exact h.listed.filter _
      · intro key' hdirty
        rw [Edit.mem_mark_remove] at hdirty
        rw [Edit.remove_content, update_of_ne hdirty.2]
        exact h.held key' hdirty.1

/-- How a view is derived, and what is announced of it. -/
structure Rule (κ γ ν π : Type*) where
  derive : κ → γ → Option ν
  announce : ν → π

variable (rule : Rule κ γ ν π)

/-- Derive the view again, and announce it; without a view nothing happens. -/
def Store.refresh (s : Store κ γ ν π) (key : κ) : Store κ γ ν π :=
  match (s.content key).bind (rule.derive key) with
  | none => s
  | some view =>
      { s with view := update s.view key (some view)
               published := update s.published key (some (rule.announce view)) }

/-- A key has a view for every content, or for none. -/
def Rule.Uniform : Prop :=
  ∀ key content content', rule.derive key content = none → rule.derive key content' = none

/-- All views but those of the dirty keys are up to date and announced. -/
structure Pending (dirty : List κ) (s : Store κ γ ν π) : Prop where
  present : ∀ key ∈ dirty, s.content key ≠ none
  view : ∀ key, key ∉ dirty → s.view key = (s.content key).bind (rule.derive key)
  published : ∀ key, key ∉ dirty → s.content key ≠ none →
    s.published key = (s.view key).map rule.announce
  silent : ∀ key, (∀ content, rule.derive key content = none) →
    s.view key = none ∧ s.published key = none

variable {rule}

theorem Pending.apply {dirty : List κ} {s : Store κ γ ν π} (h : Pending rule dirty s)
    (edit : Edit κ γ) : Pending rule (edit.mark dirty) (edit.apply s) := by
  cases edit with
  | put key content =>
      constructor
      · intro key' hdirty
        rcases eq_or_ne key' key with rfl | hne
        · simp
        · rw [Edit.put_content, update_of_ne hne]
          exact h.present key' ((Edit.mem_mark_put.mp hdirty).resolve_right hne)
      · intro key' hclean
        rw [Edit.mem_mark_put, not_or] at hclean
        rw [Edit.put_content, update_of_ne hclean.2]
        exact h.view key' hclean.1
      · intro key' hclean
        rw [Edit.mem_mark_put, not_or] at hclean
        rw [Edit.put_content, update_of_ne hclean.2]
        exact h.published key' hclean.1
      · exact h.silent
  | remove key =>
      constructor
      · intro key' hdirty
        rw [Edit.mem_mark_remove] at hdirty
        rw [Edit.remove_content, update_of_ne hdirty.2]
        exact h.present key' hdirty.1
      · intro key' hclean
        rw [Edit.mem_mark_remove, not_and_not_right] at hclean
        rcases eq_or_ne key' key with rfl | hne
        · simp
        · rw [Edit.remove_content, Edit.remove_view, update_of_ne hne, update_of_ne hne]
          exact h.view key' fun hdirty => hne (hclean hdirty)
      · intro key' hclean hcontent
        rw [Edit.mem_mark_remove, not_and_not_right] at hclean
        rcases eq_or_ne key' key with rfl | hne
        · simp at hcontent
        · rw [Edit.remove_content, update_of_ne hne] at hcontent
          rw [Edit.remove_view, update_of_ne hne]
          exact h.published key' (fun hdirty => hne (hclean hdirty)) hcontent
      · intro key' hnone
        obtain ⟨hview, hpublished⟩ := h.silent key' hnone
        refine ⟨?_, hpublished⟩
        rcases eq_or_ne key' key with rfl | hne
        · simp
        · rw [Edit.remove_view, update_of_ne hne]
          exact hview

theorem Store.refresh_none {s : Store κ γ ν π} {key : κ}
    (h : (s.content key).bind (rule.derive key) = none) : s.refresh rule key = s := by
  rw [refresh, h]

theorem Store.refresh_some {s : Store κ γ ν π} {key : κ} {view : ν}
    (h : (s.content key).bind (rule.derive key) = some view) :
    s.refresh rule key =
      { s with view := update s.view key (some view)
               published := update s.published key (some (rule.announce view)) } := by
  rw [refresh, h]

@[simp] theorem Store.refresh_content (s : Store κ γ ν π) (key : κ) :
    (s.refresh rule key).content = s.content := by
  unfold refresh
  split <;> rfl

theorem Store.refresh_of_ne (s : Store κ γ ν π) {key key' : κ} (h : key' ≠ key) :
    (s.refresh rule key).view key' = s.view key' ∧
      (s.refresh rule key).published key' = s.published key' := by
  unfold refresh
  split
  · exact ⟨rfl, rfl⟩
  · exact ⟨update_of_ne h .., update_of_ne h ..⟩

theorem Pending.refresh (huniform : rule.Uniform) {key : κ} {dirty : List κ}
    {s : Store κ γ ν π} (h : Pending rule (key :: dirty) s) :
    Pending rule dirty (s.refresh rule key) := by
  obtain ⟨content, hcontent⟩ := Option.ne_none_iff_exists'.mp (h.present key List.mem_cons_self)
  -- Without a view for this content there never was one, and nothing was announced.
  have hkey : (s.refresh rule key).view key = rule.derive key content ∧
      (s.refresh rule key).published key = (rule.derive key content).map rule.announce := by
    unfold Store.refresh
    rw [hcontent, Option.bind_some]
    rcases hview : rule.derive key content with _ | view
    · exact h.silent key fun content' => huniform key content content' hview
    · simp
  have hother : ∀ key', key' ∉ dirty → key' ≠ key → key' ∉ key :: dirty := by
    intro key' hclean hne
    rw [List.mem_cons, not_or]
    exact ⟨hne, hclean⟩
  constructor
  · intro key' hdirty
    rw [Store.refresh_content]
    exact h.present key' (List.mem_cons_of_mem _ hdirty)
  · intro key' hclean
    rw [Store.refresh_content]
    rcases eq_or_ne key' key with rfl | hne
    · rw [hkey.1, hcontent, Option.bind_some]
    · rw [(s.refresh_of_ne hne).1]
      exact h.view key' (hother key' hclean hne)
  · intro key' hclean hpresent
    rw [Store.refresh_content] at hpresent
    rcases eq_or_ne key' key with rfl | hne
    · rw [hkey.1, hkey.2]
    · rw [(s.refresh_of_ne hne).1, (s.refresh_of_ne hne).2]
      exact h.published key' (hother key' hclean hne) hpresent
  · intro key' hnone
    rcases eq_or_ne key' key with rfl | hne
    · rw [hkey.1, hkey.2, hnone content]
      exact ⟨rfl, rfl⟩
    · rw [(s.refresh_of_ne hne).1, (s.refresh_of_ne hne).2]
      exact h.silent key' hnone

def Synced (rule : Rule κ γ ν π) (s : Store κ γ ν π) : Prop :=
  Pending rule [] s

section Batches

variable (rule)

def Store.edits (s : Store κ γ ν π) (dirty : List κ) (batch : List (Edit κ γ)) :
    Store κ γ ν π × List κ :=
  batch.foldl (fun now edit => (edit.apply now.1, edit.mark now.2)) (s, dirty)

def Store.batch (s : Store κ γ ν π) (batch : List (Edit κ γ)) : Store κ γ ν π :=
  (s.edits [] batch).2.foldl (refresh rule) (s.edits [] batch).1

def Store.batches (s : Store κ γ ν π) (batches : List (List (Edit κ γ))) : Store κ γ ν π :=
  batches.foldl (batch rule) s

variable {rule}

theorem Pending.edits {dirty : List κ} {s : Store κ γ ν π} (h : Pending rule dirty s)
    (batch : List (Edit κ γ)) :
    Pending rule (s.edits dirty batch).2 (s.edits dirty batch).1 := by
  induction batch generalizing s dirty with
  | nil => exact h
  | cons edit batch ih => exact ih (h.apply edit)

theorem Pending.settle (huniform : rule.Uniform) {dirty : List κ} {s : Store κ γ ν π}
    (h : Pending rule dirty s) : Synced rule (dirty.foldl (Store.refresh rule) s) := by
  induction dirty generalizing s with
  | nil => exact h
  | cons key dirty ih => exact ih (h.refresh huniform)

theorem Synced.batches (huniform : rule.Uniform) {s : Store κ γ ν π} (h : Synced rule s)
    (batches : List (List (Edit κ γ))) : Synced rule (s.batches rule batches) := by
  induction batches generalizing s with
  | nil => exact h
  | cons batch batches ih => exact ih ((Pending.edits h batch).settle huniform)

theorem Store.settle_content (dirty : List κ) (s : Store κ γ ν π) :
    (dirty.foldl (refresh rule) s).content = s.content := by
  induction dirty generalizing s with
  | nil => rfl
  | cons key dirty ih => rw [List.foldl_cons, ih, refresh_content]

theorem Edit.apply_content (edit : Edit κ γ) (s : Store κ γ ν π) :
    (edit.apply s).content = edit.write s.content := by
  cases edit <;> rfl

theorem Edit.write_eq (edit : Edit κ γ) (content : κ → Option γ) (key : κ) :
    edit.write content key = (edit.contentEntry key).getD (content key) := by
  let s : Store κ γ Unit Unit := ⟨content, fun _ => none, fun _ => none⟩
  have hcontent := edit.content_eq s key
  rwa [edit.apply_content] at hcontent

theorem Store.edits_content (s : Store κ γ ν π) (dirty : List κ) (batch : List (Edit κ γ)) :
    (s.edits dirty batch).1.content = batch.foldl (fun old edit => edit.write old) s.content := by
  induction batch generalizing s dirty with
  | nil => rfl
  | cons edit batch ih =>
      rw [List.foldl_cons, ← edit.apply_content]
      exact ih _ _

theorem Store.batch_content (s : Store κ γ ν π) (batch : List (Edit κ γ)) :
    (s.batch rule batch).content = batch.foldl (fun old edit => edit.write old) s.content :=
  (settle_content _ _).trans (edits_content s [] batch)

theorem Store.batches_content (s : Store κ γ ν π) (batches : List (List (Edit κ γ))) :
    (s.batches rule batches).content =
      batches.flatten.foldl (fun old edit => edit.write old) s.content := by
  induction batches generalizing s with
  | nil => rfl
  | cons batch batches ih =>
      rw [List.flatten_cons, List.foldl_append]
      exact (ih (s.batch rule batch)).trans (by rw [batch_content])

/-- However the edits are grouped, the documents and the views are the same, and
for each document the view last announced. -/
theorem Synced.regroup (huniform : rule.Uniform) {s : Store κ γ ν π} (h : Synced rule s)
    {batches batches' : List (List (Edit κ γ))} (hflatten : batches.flatten = batches'.flatten) :
    (s.batches rule batches).content = (s.batches rule batches').content ∧
      (s.batches rule batches).view = (s.batches rule batches').view ∧
      ∀ key, (s.batches rule batches).content key ≠ none →
        (s.batches rule batches).published key = (s.batches rule batches').published key := by
  have hcontent : (s.batches rule batches).content = (s.batches rule batches').content := by
    rw [Store.batches_content, Store.batches_content, hflatten]
  have hsynced := h.batches huniform batches
  have hsynced' := h.batches huniform batches'
  have hview : (s.batches rule batches).view = (s.batches rule batches').view := by
    funext key
    rw [hsynced.view key List.not_mem_nil, hsynced'.view key List.not_mem_nil, hcontent]
  refine ⟨hcontent, hview, ?_⟩
  intro key hpresent
  rw [hsynced.published key List.not_mem_nil hpresent, hview,
    hsynced'.published key List.not_mem_nil (hcontent ▸ hpresent)]

end Batches

end Foundations.DerivedView
