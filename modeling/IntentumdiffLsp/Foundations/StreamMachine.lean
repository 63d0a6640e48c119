import Mathlib.Data.List.Basic
import Mathlib.Tactic.Common

namespace Foundations

/-- What a machine does with the input it can see: wait for more of it, fail
for good, or take `n` elements, possibly emit an event, and go on. -/
inductive Verdict (σ ε δ : Type*) where
  | wait
  | fail (error : δ)
  | take (n : Nat) (event : Option ε) (next : σ)

/-- A machine that consumes a stream from the front. Every step makes progress,
and a decision, once made, does not depend on what arrives later. -/
structure StreamMachine (σ β ε δ : Type*) where
  poll : σ → List β → Verdict σ ε δ
  progress : ∀ {s b n event next}, poll s b = .take n event next → 0 < n ∧ n ≤ b.length
  stable_take : ∀ {s b n event next}, poll s b = .take n event next →
    ∀ more, poll s (b ++ more) = .take n event next
  stable_fail : ∀ {s b error}, poll s b = .fail error →
    ∀ more, poll s (b ++ more) = .fail error

/-- How a drain ends: out of input in a state with a remainder, or failed. -/
inductive Stop (σ β δ : Type*) where
  | waiting (state : σ) (rest : List β)
  | failed (error : δ)

namespace StreamMachine

variable {σ β ε δ : Type*} (M : StreamMachine σ β ε δ)

def drain (s : σ) (b : List β) : List ε × Stop σ β δ :=
  match _h : M.poll s b with
  | .wait => ([], .waiting s b)
  | .fail error => ([], .failed error)
  | .take n event next =>
      let r := drain next (b.drop n)
      (event.toList ++ r.1, r.2)
termination_by b.length
decreasing_by
  have := M.progress _h
  simp only [List.length_drop]
  omega

theorem drain_wait {s : σ} {b : List β} (h : M.poll s b = .wait) :
    M.drain s b = ([], .waiting s b) := by
  rw [drain]
  split <;> simp_all

theorem drain_fail {s : σ} {b : List β} {error : δ} (h : M.poll s b = .fail error) :
    M.drain s b = ([], .failed error) := by
  rw [drain]
  split <;> simp_all

theorem drain_take {s : σ} {b : List β} {n : Nat} {event : Option ε} {next : σ}
    (h : M.poll s b = .take n event next) :
    M.drain s b = (event.toList ++ (M.drain next (b.drop n)).1, (M.drain next (b.drop n)).2) := by
  rw [drain]
  split <;> simp_all

theorem drain_induction {P : σ → List β → Prop}
    (wait : ∀ s b, M.poll s b = .wait → P s b)
    (fail : ∀ s b error, M.poll s b = .fail error → P s b)
    (take : ∀ s b n event next, M.poll s b = .take n event next →
      P next (b.drop n) → P s b)
    (s : σ) (b : List β) : P s b := by
  induction hlen : b.length using Nat.strongRecOn generalizing s b with
  | ind len ih =>
      subst hlen
      cases h : M.poll s b with
      | wait => exact wait s b h
      | fail error => exact fail s b error h
      | take n event next =>
          have hprogress := M.progress h
          refine take s b n event next h (ih _ ?_ next _ rfl)
          simp only [List.length_drop]
          omega

/-- Resume a stopped drain with more input. A failure is final. -/
def resume (r : List ε × Stop σ β δ) (more : List β) : List ε × Stop σ β δ :=
  match r.2 with
  | .waiting s b => (r.1 ++ (M.drain s (b ++ more)).1, (M.drain s (b ++ more)).2)
  | .failed error => (r.1, .failed error)

theorem resume_append_events (events : List ε) (r : List ε × Stop σ β δ) (more : List β) :
    M.resume (events ++ r.1, r.2) more =
      (events ++ (M.resume r more).1, (M.resume r more).2) := by
  obtain ⟨tail, stop⟩ := r
  cases stop with
  | waiting s b => simp [resume]
  | failed error => rfl

/-- Draining a stream whole is draining its front and resuming with the rest. -/
theorem drain_append (s : σ) (b more : List β) :
    M.drain s (b ++ more) = M.resume (M.drain s b) more := by
  induction s, b using M.drain_induction with
  | wait s b h => simp [M.drain_wait h, resume]
  | fail s b error h =>
      rw [M.drain_fail h, M.drain_fail (M.stable_fail h more)]
      rfl
  | take s b n event next h ih =>
      have hn := (M.progress h).2
      rw [M.drain_take h, M.drain_take (M.stable_take h more), resume_append_events,
        ← ih, List.drop_append_of_le_length hn]

def feedAll (r : List ε × Stop σ β δ) (chunks : List (List β)) : List ε × Stop σ β δ :=
  chunks.foldl M.resume r

/-- How a stream is cut into chunks changes neither its events nor its end. -/
theorem feedAll_drain (s : σ) (b : List β) (chunks : List (List β)) :
    M.feedAll (M.drain s b) chunks = M.drain s (b ++ chunks.flatten) := by
  induction chunks generalizing b with
  | nil => simp [feedAll]
  | cons chunk chunks ih =>
      rw [feedAll, List.foldl_cons, ← drain_append, ← feedAll, ih]
      simp

theorem drain_events_isPrefix (s : σ) (b more : List β) :
    (M.drain s b).1 <+: (M.drain s (b ++ more)).1 := by
  rw [drain_append, resume]
  split
  · exact List.prefix_append _ _
  · exact List.prefix_refl _

/-- Where a drain ran out of input there is nothing left to drain. -/
theorem drain_waiting {s s' : σ} {b b' : List β} {events : List ε}
    (h : M.drain s b = (events, .waiting s' b')) : M.drain s' b' = ([], .waiting s' b') := by
  have happend := M.drain_append s b []
  rw [List.append_nil, h] at happend
  simp only [resume, List.append_nil, Prod.mk.injEq, List.self_eq_append_right] at happend
  exact Prod.ext happend.1 happend.2.symm

theorem drain_append_of_failed {s : σ} {b : List β} {error : δ}
    (h : (M.drain s b).2 = .failed error) (more : List β) :
    M.drain s (b ++ more) = M.drain s b := by
  rw [drain_append, resume, h]
  exact Prod.ext rfl h.symm

end StreamMachine

end Foundations
