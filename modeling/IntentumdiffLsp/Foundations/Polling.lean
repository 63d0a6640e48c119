import Mathlib.Data.List.Basic
import Mathlib.Tactic.Common

namespace Foundations

/-- What a poll of a future gives: the future as it is left, or its value. -/
inductive Poll (σ τ : Type*) where
  | pending (next : σ)
  | ready (value : τ)

namespace Poll

variable {σ τ ω : Type*}

def live : Poll σ τ → Option σ
  | pending next => some next
  | ready _ => none

def value : Poll σ τ → Option τ
  | pending _ => none
  | ready value => some value

variable (poll : σ → ω → Poll σ τ)

/-- One more poll, unless the future has returned. -/
def advance : Poll σ τ → ω → Poll σ τ
  | pending next, seen => poll next seen
  | ready value, _ => ready value

/-- A future on its own, that is polled until it returns. -/
def alone (fut : σ) (seen : List ω) : Poll σ τ :=
  seen.foldl (advance poll) (pending fut)

theorem alone_append_singleton (fut : σ) (seen : List ω) (now : ω) :
    alone poll fut (seen ++ [now]) = advance poll (alone poll fut seen) now :=
  List.foldl_append

end Poll

end Foundations
