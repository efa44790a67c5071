/-!
What the program tells a log.

* `Severity`: how serious a message is;
* `Event`: a message with its level.
-/

namespace FiveInRow

/-- How serious a message is. -/
inductive Severity
  | error
  | warning
  | info
  | detail
  deriving DecidableEq, Repr

/-- A message for the log. -/
structure Event where
  severity : Severity
  text : String
  deriving DecidableEq, Repr

/-- The answer of an operation on a state: the state after it, the result, and what was told to the
log, in order. -/
structure Reply (σ α : Type) where
  state : σ
  result : α
  events : List Event

namespace Reply

variable {σ α : Type}

/-- An answer of which the log hears nothing. -/
@[inline] def quiet (state : σ) (result : α) : Reply σ α := ⟨state, result, []⟩

end Reply

end FiveInRow
