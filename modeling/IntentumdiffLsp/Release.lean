import IntentumdiffLsp.Lifecycle

/-!
What a client holds while it is used, and what is left of it when its owner has gone.
-/

namespace IntentumdiffLsp.Release

open Foundations.ActionSystem
open IntentumdiffLsp.Client
open IntentumdiffLsp.Wire
open IntentumdiffLsp.Callers
open IntentumdiffLsp.Lifecycle

/-- Nothing has been torn down. -/
structure Held (s : Lifetime) : Prop where
  reader : s.readerTask ≠ .aborted
  stderr : s.stderrTask ≠ some .aborted
  taken : s.taken = false
  child : ∀ child, s.process = some child → child.killed = false

/-- Nothing that the client has started is left to itself. -/
structure Released (s : Lifetime) : Prop where
  reader : s.readerTask ≠ .running
  stderr : s.stderrTask ≠ some .running
  taken : s.taken = true
  child : ∀ child, s.process = some child → child.killed = true ∨ child.exited = true

section Steps

variable {l : Launch} {s s' : Lifetime} {turn : Turn}

theorem abort_ne_running (task : Task) : task.abort ≠ .running := by
  cases task <;> exact nofun

theorem map_abort_ne_running (task : Option Task) : task.map Task.abort ≠ some .running := by
  rcases task with _ | task
  · exact nofun
  · intro h
    exact abort_ne_running task (Option.some.inj h)

theorem startKill_gone (child : Child) :
    child.startKill.killed = true ∨ child.startKill.exited = true := by
  unfold Child.startKill
  split
  · exact .inr ‹_›
  · exact .inl rfl

/-- A child that is not in the client any more has been killed before. -/
theorem killed_of_killProcess
    (htaken : s.taken = true →
      ∀ child, s.process = some child → child.killed = true ∨ child.exited = true)
    {child : Child} (h : s.killProcess.process = some child) :
    child.killed = true ∨ child.exited = true := by
  simp only [Lifetime.killProcess] at h
  split at h
  · exact htaken ‹_› child h
  · obtain ⟨before, -, rfl⟩ := Option.map_eq_some_iff.mp h
    exact startKill_gone before

/-- The teardown, however much of it has been done before. -/
theorem released_teardown (htaken : s.taken = true →
      ∀ child, s.process = some child → child.killed = true ∨ child.exited = true)
    (phase : Phase) : Released { s.teardownTasks.killProcess with phase := phase } where
  reader := abort_ne_running s.readerTask
  stderr := map_abort_ne_running s.stderrTask
  taken := rfl
  child _ hchild := killed_of_killProcess (s := s.teardownTasks) htaken hchild

theorem Held.not_taken (h : Held s) (htaken : s.taken = true) :
    ∀ child, s.process = some child → child.killed = true ∨ child.exited = true := by
  rw [h.taken] at htaken
  cases htaken

theorem Held.drop (h : Held s) (ending : Ending) : Released (s.drop ending) :=
  released_teardown h.not_taken _

theorem Released.drop (h : Released s) (ending : Ending) : Released (s.drop ending) :=
  released_teardown (fun _ => h.child) _

theorem afterAction_ne {task other : Task} (a : Client.Action) (h : task ≠ other)
    (hended : other ≠ .ended) : task.afterAction a ≠ other := by
  cases a with
  | clear => exact hended.symm
  | _ => exact h

/-- The teardown comes with the end of the use. -/
structure Stands (s : Lifetime) : Prop where
  held : s.phase.isUsing = true → Held s
  released : s.phase.isUsing = false → Released s

theorem Stands.drop (h : Stands s) (ending : Ending) : Released (s.drop ending) := by
  rcases husing : s.phase.isUsing with _ | _
  · exact (h.released husing).drop ending
  · exact (h.held husing).drop ending

theorem Stands.of_released (h : Released s) (hphase : s.phase.isUsing = false) : Stands s where
  held husing := by cases hphase.symm.trans husing
  released _ := h

theorem Stands.of_held (h : Held s) (hphase : s.phase.isUsing = true) : Stands s where
  held _ := h
  released hover := by cases hphase.symm.trans hover

theorem Stands.change (hs : Stands s) (hphase : s'.phase = s.phase) (hheld : Held s → Held s')
    (hreleased : Released s → Released s') : Stands s' := by
  constructor
  · intro husing
    rw [hphase] at husing
    exact hheld (hs.held husing)
  · intro hover
    rw [hphase] at hover
    exact hreleased (hs.released hover)

theorem Stands.step (hs : Stands s) (h : Lifecycle.Step l s turn s') : Stands s' := by
  have hheld : ∀ {phase : Phase}, s.phase = phase → phase.isUsing = true → Held s :=
    fun hphase husing => hs.held (hphase ▸ husing)
  have hreleased : ∀ {phase : Phase}, s.phase = phase → phase.isUsing = false → Released s :=
    fun hphase hover => hs.released (hphase ▸ hover)
  cases h with
  | call | stderr =>
      refine hs.change rfl ?_ ?_
      · rintro ⟨hreader, hstderr, htaken, hchild⟩
        exact ⟨hreader, hstderr, htaken, hchild⟩
      · rintro ⟨hreader, hstderr, htaken, hchild⟩
        exact ⟨hreader, hstderr, htaken, hchild⟩
  | @reader a =>
      refine hs.change rfl ?_ ?_
      · rintro ⟨hreader, hstderr, htaken, hchild⟩
        exact ⟨afterAction_ne a hreader nofun, hstderr, htaken, hchild⟩
      · rintro ⟨hreader, hstderr, htaken, hchild⟩
        exact ⟨afterAction_ne a hreader nofun, hstderr, htaken, hchild⟩
  | handshaken phase | announced phase | shutdown phase | asked phase =>
      obtain ⟨hreader, hstderr, htaken, hchild⟩ := hheld phase rfl
      exact .of_held ⟨hreader, hstderr, htaken, hchild⟩ rfl
  | refused phase =>
      have hcleaned : Released s.teardownTasks.killProcess :=
        released_teardown (hheld phase rfl).not_taken s.phase
      exact .of_released (hcleaned.drop _) rfl
  | unannounced phase => exact .of_released ((hheld phase rfl).drop _) rfl
  | exited phase | exitedAlone phase =>
      exact .of_released (released_teardown (hheld phase rfl).not_taken _) rfl
  | left | drop => exact .of_released (hs.drop _) rfl
  | waitTimeout phase =>
      obtain ⟨hreader, hstderr, htaken, -⟩ := hreleased phase rfl
      refine .of_released ⟨hreader, hstderr, htaken, ?_⟩ rfl
      intro child hchild
      obtain ⟨before, -, rfl⟩ := Option.map_eq_some_iff.mp hchild
      exact startKill_gone before
  | killed phase =>
      obtain ⟨hreader, hstderr, htaken, hchild⟩ := hreleased phase rfl
      exact .of_released ⟨hreader, hstderr, htaken, hchild⟩ rfl
  | readerDropped =>
      refine hs.change rfl ?_ ?_
      · rintro ⟨-, hstderr, htaken, hchild⟩
        exact ⟨nofun, hstderr, htaken, hchild⟩
      · rintro ⟨-, hstderr, htaken, hchild⟩
        exact ⟨nofun, hstderr, htaken, hchild⟩
  | stderrEnded =>
      refine hs.change rfl ?_ ?_
      · rintro ⟨hreader, -, htaken, hchild⟩
        exact ⟨hreader, nofun, htaken, hchild⟩
      · rintro ⟨hreader, -, htaken, hchild⟩
        exact ⟨hreader, nofun, htaken, hchild⟩
  | @childExited child process =>
      refine hs.change rfl ?_ ?_
      · rintro ⟨hreader, hstderr, htaken, hchild⟩
        refine ⟨hreader, hstderr, htaken, ?_⟩
        intro child' hchild'
        obtain rfl := Option.some.inj hchild'
        exact hchild child process
      · rintro ⟨hreader, hstderr, htaken, -⟩
        refine ⟨hreader, hstderr, htaken, ?_⟩
        intro child' hchild'
        obtain rfl := Option.some.inj hchild'
        exact .inr rfl

theorem stands_start (l : Launch) : Stands (start l) := by
  refine .of_held ⟨nofun, ?_, rfl, ?_⟩ rfl
  · unfold start
    split <;> exact nofun
  · intro child hchild
    simp only [start] at hchild
    split at hchild
    · obtain rfl := Option.some.inj hchild
      rfl
    · cases hchild

theorem stands_of_reachable (h : (lifecycle l).Reachable s) : Stands s :=
  h.invariant (stands_start l) fun _ _ _ hs hstep => hs.step (step_cases hstep)

end Steps

section Frozen

variable {l : Launch} {s s' : Lifetime} {turn : Turn} {actions : List Turn}

theorem using_of_mayAct {phase : Phase} {c : Nat} (h : mayAct l phase c = true) :
    phase.isUsing = true := by
  rcases c with _ | _ | _ | _ | i <;> cases phase <;> first | rfl | cases h

theorem other_of_reader {sess : Session} {t t' : LspClient} {a : Client.Action}
    (h : Client.Step sess t a t') (hown : caller a = none) :
    t'.stage = t.stage ∧ t'.wire = t.wire := by
  constructor
  · funext c
    apply stage_of_other h
    rw [hown]
    exact nofun
  · refine (written_of_step h ?_).2
    rintro c n rfl
    cases hown

/-- Behind the teardown no call makes a step. -/
theorem frozen_step (h : Lifecycle.Step l s turn s') (hover : s.phase.isUsing = false) :
    s'.phase.isUsing = false ∧ s'.client.stage = s.client.stage ∧
      s'.client.wire = s.client.wire := by
  cases h with
  | call _ turn => cases (using_of_mayAct turn).symm.trans hover
  | reader own client =>
      obtain ⟨hstage, hwire⟩ := other_of_reader client own
      exact ⟨hover, hstage, hwire⟩
  | handshaken phase | announced phase | shutdown phase | asked phase =>
      rw [phase] at hover
      cases hover
  | readerDropped | stderr | stderrEnded | childExited => exact ⟨hover, rfl, rfl⟩
  | _ => exact ⟨rfl, rfl, rfl⟩

theorem frozen_run (hrun : (lifecycle l).Run Anything s actions s')
    (hover : s.phase.isUsing = false) :
    s'.phase.isUsing = false ∧ s'.client.stage = s.client.stage ∧
      s'.client.wire = s.client.wire := by
  refine hrun.invariant (P := fun t => t.phase.isUsing = false ∧
    t.client.stage = s.client.stage ∧ t.client.wire = s.client.wire) ⟨hover, rfl, rfl⟩ ?_
  rintro u a u' ⟨hover, hstage, hwire⟩ _ hstep
  obtain ⟨hover', hstage', hwire'⟩ := frozen_step (step_cases hstep) hover
  exact ⟨hover', hstage'.trans hstage, hwire'.trans hwire⟩

end Frozen

/-- As long as a client is used, its tasks have not been aborted and its child has not
been killed. From then on, whichever way its owner went, both tasks have ended or are
aborted, the child has exited or is killed, and no call returns or writes any more. -/
theorem lifecycle_releases (l : Launch) (s : Lifetime) (h : (lifecycle l).Reachable s) :
    (s.phase.isUsing = true → s.readerTask ≠ .aborted ∧ s.stderrTask ≠ some .aborted ∧
      ∀ child, s.process = some child → child.killed = false) ∧
    (s.phase.isUsing = false → s.readerTask ≠ .running ∧ s.stderrTask ≠ some .running ∧
      (∀ child, s.process = some child → child.killed = true ∨ child.exited = true) ∧
      ∀ actions t, (lifecycle l).Run Anything s actions t →
        t.phase.isUsing = false ∧ t.client.stage = s.client.stage ∧
          t.client.wire = s.client.wire) := by
  have hs := stands_of_reachable h
  constructor
  · intro husing
    obtain ⟨hreader, hstderr, -, hchild⟩ := hs.held husing
    exact ⟨hreader, hstderr, hchild⟩
  · intro hover
    obtain ⟨hreader, hstderr, -, hchild⟩ := hs.released hover
    exact ⟨hreader, hstderr, hchild, fun actions t hrun => frozen_run hrun hover⟩

theorem lifecycle_releases_dropped :
    (connectedLifetime.drop .dropped).readerTask ≠ .running ∧
      (connectedLifetime.drop .dropped).stderrTask ≠ some .running ∧
      ∀ child, (connectedLifetime.drop .dropped).process = some child →
        child.killed = true ∨ child.exited = true := by
  have hconnected := run_of_play connectedLifetime_play
  have hdropped : (lifecycle quietLaunch).Run Anything connectedLifetime [.drop]
      (connectedLifetime.drop .dropped) := run_of_play rfl
  have h := (lifecycle_releases quietLaunch _ ⟨_, hconnected.append hdropped⟩).2 rfl
  exact ⟨h.1, h.2.1, h.2.2.1⟩

end IntentumdiffLsp.Release
