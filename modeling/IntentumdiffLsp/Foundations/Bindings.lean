import Mathlib.Data.List.Nodup
import Mathlib.Tactic.Common

namespace Foundations

/-- Values of distinct keys, in an order. -/
structure Bindings (κ ν : Type*) where
  entries : List (κ × ν)
  distinct : (entries.map Prod.fst).Nodup

namespace Bindings

variable {κ ν : Type*}

@[ext] theorem ext {b b' : Bindings κ ν} (h : b.entries = b'.entries) : b = b' := by
  cases b
  cases b'
  cases h
  rfl

def get [DecidableEq κ] (b : Bindings κ ν) (key : κ) : Option ν :=
  b.entries.lookup key

/-- The first entry whose key is of a kind. -/
def first (b : Bindings κ ν) (kind : κ → Bool) : Option (κ × ν) :=
  b.entries.find? fun entry => kind entry.1

def modifyEntries (kind : κ → Bool) (f : ν → ν) : List (κ × ν) → List (κ × ν)
  | [] => []
  | (key, value) :: rest =>
      if kind key then (key, f value) :: rest else (key, value) :: modifyEntries kind f rest

theorem keys_modifyEntries (kind : κ → Bool) (f : ν → ν) (entries : List (κ × ν)) :
    (modifyEntries kind f entries).map Prod.fst = entries.map Prod.fst := by
  induction entries with
  | nil => rfl
  | cons entry rest ih =>
      rw [modifyEntries]
      split
      · rfl
      · rw [List.map_cons, ih, List.map_cons]

/-- Only the first entry whose key is of a kind gets another value. -/
def modifyFirst (b : Bindings κ ν) (kind : κ → Bool) (f : ν → ν) : Bindings κ ν where
  entries := modifyEntries kind f b.entries
  distinct := by
    rw [keys_modifyEntries]
    exact b.distinct

def push (b : Bindings κ ν) (key : κ) (value : ν) (hkey : key ∉ b.entries.map Prod.fst) :
    Bindings κ ν where
  entries := b.entries ++ [(key, value)]
  distinct := by
    rw [List.map_append, List.nodup_append]
    refine ⟨b.distinct, List.nodup_singleton _, ?_⟩
    rintro key' hmem other hother rfl
    rw [List.map_singleton, List.mem_singleton] at hother
    rw [hother] at hmem
    exact hkey hmem

variable {b : Bindings κ ν} {kind : κ → Bool} {f : ν → ν} {key : κ} {value : ν}

theorem not_mem_of_first (h : b.first kind = none) (hkey : kind key = true) :
    key ∉ b.entries.map Prod.fst := by
  intro hmem
  obtain ⟨entry, hentry, rfl⟩ := List.mem_map.mp hmem
  exact List.find?_eq_none.mp h entry hentry hkey

theorem modifyEntries_append {before after : List (κ × ν)}
    (hbefore : ∀ entry ∈ before, kind entry.1 = false) (hkey : kind key = true) (f : ν → ν) :
    modifyEntries kind f (before ++ (key, value) :: after) = before ++ (key, f value) :: after := by
  induction before with
  | nil => exact if_pos hkey
  | cons entry before ih =>
      rw [List.forall_mem_cons] at hbefore
      rw [List.cons_append, modifyEntries, hbefore.1, ih hbefore.2]
      rfl

/-- The entries around the first one of a kind. -/
theorem split_of_first (h : b.first kind = some (key, value)) :
    ∃ before after, b.entries = before ++ (key, value) :: after ∧ kind key = true ∧
      (∀ entry ∈ before, kind entry.1 = false) ∧
      ∀ f, (b.modifyFirst kind f).entries = before ++ (key, f value) :: after := by
  obtain ⟨hkey, before, after, hentries, hbefore⟩ := List.find?_eq_some_iff_append.mp h
  have hbefore' : ∀ entry ∈ before, kind entry.1 = false :=
    fun entry hentry => by simpa using hbefore entry hentry
  refine ⟨before, after, hentries, hkey, hbefore', fun f => ?_⟩
  exact (congrArg _ hentries).trans (modifyEntries_append hbefore' hkey f)

theorem first_modifyFirst (h : b.first kind = some (key, value)) (f : ν → ν) :
    (b.modifyFirst kind f).first kind = some (key, f value) := by
  obtain ⟨before, after, -, hkey, hbefore, hmodified⟩ := split_of_first h
  rw [first, hmodified, List.find?_eq_some_iff_append]
  exact ⟨hkey, before, after, rfl, fun entry hentry => by simp [hbefore entry hentry]⟩

theorem modifyFirst_eq_self_iff (h : b.first kind = some (key, value)) (f : ν → ν) :
    b.modifyFirst kind f = b ↔ f value = value := by
  obtain ⟨before, after, hentries, -, -, hmodified⟩ := split_of_first h
  rw [Bindings.ext_iff, hmodified, hentries]
  simp

section Get

variable [DecidableEq κ]

theorem lookup_of_not_mem {entries : List (κ × ν)} (h : key ∉ entries.map Prod.fst) :
    entries.lookup key = none := by
  rw [List.lookup_eq_none_iff]
  intro entry hentry
  exact bne_iff_ne.mpr fun heq => h (List.mem_map.mpr ⟨entry, hentry, heq.symm⟩)

theorem get_modifyFirst (h : b.first kind = some (key, value)) (f : ν → ν) (name : κ) :
    (b.modifyFirst kind f).get name = if name = key then some (f value) else b.get name := by
  obtain ⟨before, after, hentries, -, -, hmodified⟩ := split_of_first h
  have hdistinct := b.distinct
  rw [hentries, List.map_append, List.nodup_append] at hdistinct
  rw [get, get, hmodified, hentries, List.lookup_append, List.lookup_append, List.lookup_cons,
    List.lookup_cons]
  by_cases hname : name = key
  · have hnot : name ∉ before.map Prod.fst := fun hmem =>
      hdistinct.2.2 name hmem key (by simp) hname
    rw [lookup_of_not_mem hnot, if_pos hname, hname, beq_self_eq_true]
    rfl
  · rw [if_neg hname, beq_false_of_ne hname]

theorem get_of_first (h : b.first kind = some (key, value)) : b.get key = some value := by
  have hself := (modifyFirst_eq_self_iff h id).mpr rfl
  have hget := get_modifyFirst h id key
  rwa [hself, if_pos rfl] at hget

theorem get_of_first_none (h : b.first kind = none) (hkey : kind key = true) :
    b.get key = none :=
  lookup_of_not_mem (not_mem_of_first h hkey)

theorem get_push {hkey : key ∉ b.entries.map Prod.fst} (name : κ) :
    (b.push key value hkey).get name = if name = key then some value else b.get name := by
  rw [get, get, push, List.lookup_append, List.lookup_cons]
  by_cases hname : name = key
  · rw [if_pos hname, hname, beq_self_eq_true, lookup_of_not_mem hkey]
    rfl
  · rw [if_neg hname, beq_false_of_ne hname]
    exact Option.or_none

end Get

theorem first_push {hkey : key ∉ b.entries.map Prod.fst} (h : b.first kind = none)
    (hkind : kind key = true) : (b.push key value hkey).first kind = some (key, value) := by
  rw [first] at h ⊢
  rw [push, List.find?_append, h]
  simp [hkind]

end Bindings

end Foundations
