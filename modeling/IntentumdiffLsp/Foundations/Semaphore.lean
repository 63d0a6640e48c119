import Mathlib.Data.List.Nodup
import Mathlib.Tactic.Common

namespace Foundations

/-- A counting semaphore that knows its holders, each of which holds one permit. -/
structure Semaphore (κ : Type*) (permits : Nat) where
  holders : List κ
  nodup : holders.Nodup
  capped : holders.length ≤ permits

namespace Semaphore

variable {κ : Type*} {permits : Nat}

def free : Semaphore κ permits where
  holders := []
  nodup := List.nodup_nil
  capped := Nat.zero_le _

/-- No more keys than there are permits hold one. -/
theorem length_le_of_holding (sem : Semaphore κ permits) {keys : List κ} (hnodup : keys.Nodup)
    (h : ∀ key ∈ keys, key ∈ sem.holders) : keys.length ≤ permits :=
  Nat.le_trans (hnodup.length_le_of_subset fun _ hkey => h _ hkey) sem.capped

variable [DecidableEq κ]

def acquire (sem : Semaphore κ permits) (key : κ) : Option (Semaphore κ permits) :=
  if h : key ∉ sem.holders ∧ sem.holders.length < permits then
    some ⟨key :: sem.holders, List.nodup_cons.mpr ⟨h.1, sem.nodup⟩, h.2⟩
  else none

def release (sem : Semaphore κ permits) (key : κ) : Semaphore κ permits where
  holders := sem.holders.erase key
  nodup := sem.nodup.erase key
  capped := Nat.le_trans List.length_erase_le sem.capped

variable {sem sem' : Semaphore κ permits} {key other : κ}

theorem acquire_isSome (sem : Semaphore κ permits) (key : κ) (hkey : key ∉ sem.holders)
    (hleft : sem.holders.length < permits) :
    ∃ sem', sem.acquire key = some sem' :=
  ⟨_, dif_pos ⟨hkey, hleft⟩⟩

theorem holders_of_acquire (h : sem.acquire key = some sem') :
    sem'.holders = key :: sem.holders := by
  unfold acquire at h
  split at h
  · cases h
    rfl
  · cases h

theorem mem_release : other ∈ (sem.release key).holders ↔ other ≠ key ∧ other ∈ sem.holders :=
  sem.nodup.mem_erase_iff

end Semaphore

end Foundations
