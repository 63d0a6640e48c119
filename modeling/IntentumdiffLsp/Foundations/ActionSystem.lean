import Mathlib.Data.List.Basic
import Mathlib.Tactic.Common

namespace Foundations

/-- A system that moves by actions; `step` refuses an action that is not enabled. -/
structure ActionSystem (σ α : Type*) where
  init : σ
  step : σ → α → Option σ

namespace ActionSystem

variable {σ α : Type*} (S : ActionSystem σ α) {cond cond' : σ → α → Prop}

/-- A run from `s` all of whose steps meet the condition. -/
inductive Run (cond : σ → α → Prop) (s : σ) : List α → σ → Prop
  | start : Run cond s [] s
  | next {actions : List α} {t t' : σ} {a : α} (run : Run cond s actions t)
      (meets : cond t a) (step : S.step t a = some t') : Run cond s (actions ++ [a]) t'

def Anything (_ : σ) (_ : α) : Prop := True

def Reachable (t : σ) : Prop :=
  ∃ actions, S.Run Anything S.init actions t

variable {S}

theorem Run.mono (h : ∀ t a, cond t a → cond' t a) {s t : σ} {actions : List α}
    (hrun : S.Run cond s actions t) : S.Run cond' s actions t := by
  induction hrun with
  | start => exact .start
  | next _ meets step ih => exact .next ih (h _ _ meets) step

theorem Run.anything {s t : σ} {actions : List α} (hrun : S.Run cond s actions t) :
    S.Run Anything s actions t :=
  hrun.mono fun _ _ _ => trivial

/-- A condition on the actions alone. -/
theorem Run.meeting {s t : σ} {actions : List α} (hrun : S.Run cond s actions t)
    (h : ∀ a ∈ actions, ∀ u, cond' u a) : S.Run cond' s actions t := by
  induction hrun with
  | start => exact .start
  | next _ _ step ih =>
      simp only [List.forall_mem_append, List.forall_mem_singleton] at h
      exact .next (ih h.1) (h.2 _) step

theorem Run.reachable {t : σ} {actions : List α} (hrun : S.Run cond S.init actions t) :
    S.Reachable t :=
  ⟨actions, hrun.anything⟩

theorem Run.append {s t u : σ} {front back : List α} (hfront : S.Run cond s front t)
    (hback : S.Run cond t back u) : S.Run cond s (front ++ back) u := by
  induction hback with
  | start => rwa [List.append_nil]
  | next _ meets step ih =>
      rw [← List.append_assoc]
      exact .next ih meets step

/-- What holds at the start and is preserved by every step holds at the end,
together with the actions taken so far. -/
theorem Run.trace_invariant {P : List α → σ → Prop} {s t : σ} {actions : List α}
    (hrun : S.Run cond s actions t) (hstart : P [] s)
    (hstep : ∀ done u a u', S.Run cond s done u → P done u → cond u a →
      S.step u a = some u' → P (done ++ [a]) u') : P actions t := by
  induction hrun with
  | start => exact hstart
  | next run meets step ih => exact hstep _ _ _ _ run ih meets step

theorem Run.invariant {P : σ → Prop} {s t : σ} {actions : List α}
    (hrun : S.Run cond s actions t) (hstart : P s)
    (hstep : ∀ u a u', P u → cond u a → S.step u a = some u' → P u') : P t :=
  hrun.trace_invariant (P := fun _ u => P u) hstart fun _ _ _ _ _ => hstep _ _ _

theorem Reachable.invariant {P : σ → Prop} {t : σ} (h : S.Reachable t) (hinit : P S.init)
    (hstep : ∀ u a u', P u → S.step u a = some u' → P u') : P t := by
  obtain ⟨actions, hrun⟩ := h
  exact hrun.invariant hinit fun u a u' hu _ => hstep u a u' hu

/-- Some run goes from one state to the other. -/
def Leads (S : ActionSystem σ α) (s t : σ) : Prop :=
  ∃ actions, S.Run Anything s actions t

theorem Leads.refl (s : σ) : S.Leads s s :=
  ⟨[], .start⟩

theorem Leads.trans {s t u : σ} (hst : S.Leads s t) (htu : S.Leads t u) : S.Leads s u := by
  obtain ⟨front, hfront⟩ := hst
  obtain ⟨back, hback⟩ := htu
  exact ⟨front ++ back, hfront.append hback⟩

theorem Leads.of_step {s t : σ} {a : α} (hstep : S.step s a = some t) : S.Leads s t :=
  ⟨[a], .next .start trivial hstep⟩

theorem Leads.reachable {s t : σ} (h : S.Leads s t) (hs : S.Reachable s) : S.Reachable t :=
  Leads.trans (S := S) hs h

/-- A goal that can be approached from every reachable state can be reached from it. -/
theorem Reachable.leads_goal (goal : σ → Prop) (distance : σ → Nat)
    (happroach : ∀ s, S.Reachable s → ¬goal s → ∃ t, S.Leads s t ∧ distance t < distance s)
    {s : σ} (hs : S.Reachable s) : ∃ t, S.Leads s t ∧ goal t := by
  induction hdistance : distance s using Nat.strongRecOn generalizing s with
  | _ d ih =>
      by_cases hgoal : goal s
      · exact ⟨s, .refl s, hgoal⟩
      · obtain ⟨t, hst, hlt⟩ := happroach s hs hgoal
        obtain ⟨u, htu, hu⟩ := ih (distance t) (hdistance ▸ hlt) (hst.reachable hs) rfl
        exact ⟨u, hst.trans htu, hu⟩

/-- A goal that every step of some kind can bring nearer is reached by as many of them as
it is away. -/
theorem run_to_goal {inv goal : σ → Prop} (distance : σ → Nat)
    (happroach : ∀ s, inv s → ¬goal s →
      ∃ a t, cond s a ∧ S.step s a = some t ∧ inv t ∧ distance t < distance s)
    {s : σ} (hs : inv s) :
    ∃ actions t, S.Run cond s actions t ∧ inv t ∧ goal t ∧ actions.length ≤ distance s := by
  induction hdistance : distance s using Nat.strongRecOn generalizing s with
  | _ d ih =>
      by_cases hgoal : goal s
      · exact ⟨[], s, .start, hs, hgoal, Nat.zero_le d⟩
      · obtain ⟨a, t, hmeets, hstep, ht, hlt⟩ := happroach s hs hgoal
        obtain ⟨actions, u, hrun, hu, hreached, hlength⟩ :=
          ih (distance t) (hdistance ▸ hlt) ht rfl
        have hfirst : S.Run cond s [a] t := .next .start hmeets hstep
        refine ⟨a :: actions, u, hfirst.append hrun, hu, hreached, ?_⟩
        rw [List.length_cons]
        omega

variable (S)

def play (s : σ) (actions : List α) : Option σ :=
  actions.foldlM S.step s

variable {S}

theorem Run.cons {s t u : σ} {a : α} {actions : List α} (meets : cond s a)
    (step : S.step s a = some t) (hrun : S.Run cond t actions u) :
    S.Run cond s (a :: actions) u :=
  Run.append (.next .start meets step) hrun

theorem run_of_play {s t : σ} {actions : List α} (hplay : S.play s actions = some t) :
    S.Run Anything s actions t := by
  induction actions generalizing s with
  | nil =>
      cases hplay
      exact .start
  | cons a actions ih =>
      rw [play, List.foldlM_cons] at hplay
      obtain ⟨u, hstep, hrest⟩ := Option.bind_eq_some_iff.mp hplay
      exact .cons trivial hstep (ih hrest)

end ActionSystem

end Foundations
