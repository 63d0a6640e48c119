import IntentumdiffLsp.Foundations.ActionSystem
import Mathlib.Data.List.Forall2

namespace Foundations.ActionSystem

variable {σ τ α β : Type*} {C : ActionSystem σ α} {A : ActionSystem τ β}
  {cond : σ → α → Prop} {cond' : τ → β → Prop} {rel : σ → τ → Prop}
  {follows : α → List β → Prop}

/-- The steps of the first system that meet the condition are runs of the second, which
may be empty: related states stay related, and `follows` says what stands for an action. -/
structure Simulates (C : ActionSystem σ α) (A : ActionSystem τ β) (cond : σ → α → Prop)
    (cond' : τ → β → Prop) (rel : σ → τ → Prop) (follows : α → List β → Prop) : Prop where
  init : rel C.init A.init
  step : ∀ {s s' : σ} {t : τ} {a : α}, rel s t → cond s a → C.step s a = some s' →
    ∃ (actions : List β) (t' : τ), follows a actions ∧ A.Run cond' t actions t' ∧ rel s' t'

/-- A run of the first system is a run of the second, action by action. -/
theorem Simulates.run (h : Simulates C A cond cond' rel follows) {actions : List α} {s : σ}
    (hrun : C.Run cond C.init actions s) :
    ∃ (parts : List (List β)) (t : τ), List.Forall₂ follows actions parts ∧
      A.Run cond' A.init parts.flatten t ∧ rel s t := by
  induction hrun with
  | start => exact ⟨[], A.init, .nil, .start, h.init⟩
  | next run meets step ih =>
      obtain ⟨parts, t, hfollows, hrun, hrel⟩ := ih
      obtain ⟨part, t', hpart, hrun', hrel'⟩ := h.step hrel meets step
      refine ⟨parts ++ [part], t', ?_, ?_, hrel'⟩
      · exact List.rel_append hfollows (.cons hpart .nil)
      · rw [List.flatten_append, List.flatten_singleton]
        exact hrun.append hrun'

/-- A property of the runs of the second system holds of those of the first. -/
theorem Simulates.reachable (h : Simulates C A cond cond' rel follows) {actions : List α} {s : σ}
    (hrun : C.Run cond C.init actions s) : ∃ t, A.Reachable t ∧ rel s t := by
  obtain ⟨parts, t, -, hrun', hrel⟩ := h.run hrun
  exact ⟨t, hrun'.reachable, hrel⟩

end Foundations.ActionSystem
