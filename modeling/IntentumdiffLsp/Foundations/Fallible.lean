import Mathlib.Data.List.Forall2
import Mathlib.Tactic.Common

/-!
When computations that may fail succeed.
-/

namespace Foundations.Fallible

variable {ε α β : Type}

theorem bind_eq_ok {x : Except ε α} {f : α → Except ε β} {b : β} :
    x >>= f = .ok b ↔ ∃ a, x = .ok a ∧ f a = .ok b := by
  rcases x with error | a
  · exact ⟨nofun, fun ⟨_, hok, _⟩ => nomatch hok⟩
  · constructor
    · exact fun h => ⟨a, rfl, h⟩
    · rintro ⟨a', hok, h⟩
      cases hok
      exact h

theorem map_eq_ok {x : Except ε α} {f : α → β} {b : β} :
    x.map f = .ok b ↔ ∃ a, x = .ok a ∧ f a = b := by
  rcases x with error | a
  · exact ⟨nofun, fun ⟨_, hok, _⟩ => nomatch hok⟩
  · constructor
    · exact fun h => ⟨a, rfl, Except.ok.inj h⟩
    · rintro ⟨a', hok, rfl⟩
      cases hok
      rfl

theorem mapM_eq_ok {f : α → Except ε β} {xs : List α} {ys : List β} :
    xs.mapM f = .ok ys ↔ List.Forall₂ (fun x y => f x = .ok y) xs ys := by
  induction xs generalizing ys with
  | nil =>
      rw [List.mapM_nil, List.forall₂_nil_left_iff]
      exact ⟨fun h => (Except.ok.inj h).symm, fun h => congrArg Except.ok h.symm⟩
  | cons x xs ih =>
      rw [List.mapM_cons, bind_eq_ok, List.forall₂_cons_left_iff]
      constructor
      · rintro ⟨y, hy, h⟩
        obtain ⟨rest, hrest, hcons⟩ := bind_eq_ok.mp h
        exact ⟨y, rest, hy, ih.mp hrest, (Except.ok.inj hcons).symm⟩
      · rintro ⟨y, rest, hy, hrest, rfl⟩
        exact ⟨y, hy, bind_eq_ok.mpr ⟨rest, ih.mpr hrest, rfl⟩⟩

end Foundations.Fallible
