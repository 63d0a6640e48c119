import Mathlib.Data.List.DropRight
import Mathlib.Tactic.Common

/-!
The last elements of a stream, kept while the stream goes by.
-/

namespace Foundations.Window

variable {α : Type*}

theorem rtake_of_length_le {s : List α} {cap : Nat} (h : s.length ≤ cap) : s.rtake cap = s := by
  rw [List.rtake, Nat.sub_eq_zero_of_le h, List.drop_zero]

theorem length_rtake (s : List α) (cap : Nat) : (s.rtake cap).length = min s.length cap := by
  rw [List.rtake, List.length_drop]
  omega

theorem rtake_suffix (s : List α) (cap : Nat) : s.rtake cap <:+ s :=
  List.drop_suffix _ _

theorem rtake_append_of_le {s t : List α} {cap : Nat} (h : cap ≤ t.length) :
    (s ++ t).rtake cap = t.rtake cap := by
  have hskip : (s ++ t).length - cap = s.length + (t.length - cap) := by
    rw [List.length_append]
    omega
  rw [List.rtake, hskip, ← List.drop_drop, List.drop_left]
  rfl

/-- What has left the window does not come back. -/
theorem rtake_rtake_append (s t : List α) (cap : Nat) :
    (s.rtake cap ++ t).rtake cap = (s ++ t).rtake cap := by
  rcases Nat.le_total s.length cap with hshort | hlong
  · rw [rtake_of_length_le hshort]
  · obtain ⟨gone, hgone⟩ := rtake_suffix s cap
    have hlength : cap ≤ (s.rtake cap ++ t).length := by
      rw [List.length_append, length_rtake]
      omega
    calc (s.rtake cap ++ t).rtake cap
        = (gone ++ (s.rtake cap ++ t)).rtake cap := (rtake_append_of_le hlength).symm
      _ = (s ++ t).rtake cap := by rw [← List.append_assoc, hgone]

theorem foldl_rtake (s : List α) (chunks : List (List α)) (cap : Nat) :
    chunks.foldl (fun kept chunk => (kept ++ chunk).rtake cap) (s.rtake cap) =
      (s ++ chunks.flatten).rtake cap := by
  induction chunks generalizing s with
  | nil => rw [List.flatten_nil, List.append_nil]; rfl
  | cons chunk chunks ih =>
      rw [List.foldl_cons, rtake_rtake_append, ih, List.flatten_cons, List.append_assoc]

end Foundations.Window
