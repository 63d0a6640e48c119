import Mathlib.Data.List.Infix
import Mathlib.Tactic.Common

/-!
Replacing every occurrence of a pattern in a list, from left to right.
-/

namespace Foundations.Replace

variable {α : Type*}

/-- Pieces with a separator in front of all but the first. -/
def join (sep first : List α) (rest : List (List α)) : List α :=
  first ++ rest.flatMap fun piece => sep ++ piece

section Definition

variable [DecidableEq α] (pat new : List α)

/-- `skip` elements of an occurrence are still to be passed over. -/
def replaceFrom : Nat → List α → List α
  | _, [] => []
  | skip + 1, _ :: s => replaceFrom skip s
  | 0, c :: s =>
      if pat <+: c :: s then new ++ replaceFrom (pat.length - 1) s else c :: replaceFrom 0 s

/-- The pattern is not empty where this is used. -/
def replace (s : List α) : List α :=
  replaceFrom pat new 0 s

theorem replaceFrom_drop (skip : Nat) (s : List α) :
    replaceFrom pat new skip s = replace pat new (s.drop skip) := by
  induction s generalizing skip with
  | nil => rw [List.drop_nil, replace, replaceFrom, replaceFrom]
  | cons c s ih =>
      rcases skip with _ | skip
      · rfl
      · rw [replaceFrom, ih, List.drop_succ_cons]

end Definition

theorem prefix_of_append_cons {pat a b : List α} {t : α} (ht : t ∉ pat)
    (h : pat <+: a ++ t :: b) : pat <+: a := by
  induction a generalizing pat with
  | nil =>
      rcases pat with _ | ⟨c, pat⟩
      · exact List.nil_prefix
      · rw [List.nil_append, List.cons_prefix_cons] at h
        exact absurd (h.1 ▸ List.mem_cons_self) ht
  | cons d a ih =>
      rcases pat with _ | ⟨c, pat⟩
      · exact List.nil_prefix
      · rw [List.cons_append, List.cons_prefix_cons] at h
        rw [List.mem_cons, not_or] at ht
        exact List.cons_prefix_cons.mpr ⟨h.1, ih ht.2 h.2⟩

/-- An occurrence does not reach across an element that is not in the pattern. -/
theorem infix_append_cons {pat a b : List α} {t : α} (ht : t ∉ pat)
    (h : pat <:+: a ++ t :: b) : pat <:+: a ∨ pat <:+: b := by
  induction a with
  | nil =>
      rcases List.infix_cons_iff.mp h with hstarts | hinside
      · exact .inl (prefix_of_append_cons (a := []) ht hstarts).isInfix
      · exact .inr hinside
  | cons c a ih =>
      rcases List.infix_cons_iff.mp h with hstarts | hinside
      · exact .inl (prefix_of_append_cons (a := c :: a) ht hstarts).isInfix
      · exact (ih hinside).imp_left fun hrest => List.infix_cons_iff.mpr (.inr hrest)

theorem infix_append_append {pat new a b : List α} (hnew : new ≠ []) (hdisjoint : ∀ c ∈ new, c ∉ pat)
    (h : pat <:+: a ++ (new ++ b)) : pat <:+: a ∨ pat <:+: b := by
  induction new generalizing a with
  | nil => exact absurd rfl hnew
  | cons t new ih =>
      rcases infix_append_cons (hdisjoint t List.mem_cons_self) h with hfront | hback
      · exact .inl hfront
      · rcases eq_or_ne new [] with rfl | hrest
        · exact .inr hback
        · have hdisjoint' : ∀ c ∈ new, c ∉ pat := fun c hc => hdisjoint c (List.mem_cons_of_mem _ hc)
          rcases ih hrest hdisjoint' (a := []) hback with hnil | hb
          · exact .inl (hnil.trans List.nil_infix)
          · exact .inr hb

theorem not_infix_join {pat new : List α} (hnew : new ≠ []) (hdisjoint : ∀ c ∈ new, c ∉ pat)
    {first : List α} {rest : List (List α)} (h : ∀ piece ∈ first :: rest, ¬pat <:+: piece) :
    ¬pat <:+: join new first rest := by
  induction rest generalizing first with
  | nil =>
      rw [join, List.flatMap_nil, List.append_nil]
      exact h first List.mem_cons_self
  | cons piece rest ih =>
      intro hinside
      have hsplit : join new first (piece :: rest) = first ++ (new ++ join new piece rest) := by
        simp [join]
      rw [hsplit] at hinside
      rcases infix_append_append hnew hdisjoint hinside with hfront | hback
      · exact h first List.mem_cons_self hfront
      · exact ih (fun piece' hmem => h piece' (List.mem_cons_of_mem _ hmem)) hback

section Result

variable [DecidableEq α] {pat : List α}

/-- The list falls into pieces without an occurrence, with occurrences between them, and
only these are replaced. -/
theorem replace_join (hpat : pat ≠ []) (s : List α) :
    ∃ first rest, s = join pat first rest ∧ (∀ piece ∈ first :: rest, ¬pat <:+: piece) ∧
      ∀ new, replace pat new s = join new first rest := by
  have hnil : ¬pat <:+: [] := fun h => hpat (List.infix_nil.mp h)
  induction hlen : s.length using Nat.strongRecOn generalizing s with
  | ind len ih =>
      subst hlen
      rcases s with _ | ⟨c, s⟩
      · exact ⟨[], [], rfl, by simpa using hnil, fun new => rfl⟩
      by_cases hmatch : pat <+: c :: s
      · obtain ⟨back, hback⟩ := hmatch
        have hpos : 0 < pat.length := List.length_pos_iff.mpr hpat
        have hlength := congrArg List.length hback
        rw [List.length_append] at hlength
        obtain ⟨first, rest, hjoin, hpieces, hreplace⟩ := ih back.length (by omega) back rfl
        refine ⟨[], first :: rest, ?_, ?_, fun new => ?_⟩
        · rw [← hback, hjoin]
          simp [join]
        · rintro piece hpiece
          rcases List.mem_cons.mp hpiece with rfl | hmem
          · exact hnil
          · exact hpieces piece hmem
        · have hdrop : s.drop (pat.length - 1) = back := by
            have hcons : (c :: s).drop pat.length = back := by rw [← hback, List.drop_left]
            rwa [← Nat.succ_pred_eq_of_pos hpos, List.drop_succ_cons] at hcons
          rw [replace, replaceFrom, if_pos (hback ▸ List.prefix_append _ _), replaceFrom_drop, hdrop,
            hreplace]
          simp [join]
      · obtain ⟨first, rest, hjoin, hpieces, hreplace⟩ := ih s.length (Nat.lt_succ_self _) s rfl
        refine ⟨c :: first, rest, ?_, ?_, fun new => ?_⟩
        · rw [hjoin]
          rfl
        · rintro piece hpiece
          rcases List.mem_cons.mp hpiece with rfl | hmem
          · rw [List.infix_cons_iff, not_or]
            refine ⟨fun hstarts => hmatch (hstarts.trans ?_), hpieces first List.mem_cons_self⟩
            rw [hjoin]
            exact List.prefix_append (c :: first) _
          · exact hpieces piece (List.mem_cons_of_mem _ hmem)
        · rw [replace, replaceFrom, if_neg hmatch]
          exact congrArg (c :: ·) (hreplace new)

theorem not_infix_replace (hpat : pat ≠ []) {new : List α} (hnew : new ≠ [])
    (hdisjoint : ∀ c ∈ new, c ∉ pat) (s : List α) : ¬pat <:+: replace pat new s := by
  obtain ⟨first, rest, -, hpieces, hreplace⟩ := replace_join hpat s
  rw [hreplace]
  exact not_infix_join hnew hdisjoint hpieces

end Result

end Foundations.Replace
