import FiveInRow.Pattern.Priority

/-!
The shapes that a single move can make on one line.

* `Family.priority`: how urgent it is to make, or to prevent, a shape;
* `Family.code`: the number under which equivalent threats on one line are counted once.
-/

namespace FiveInRow

/-- A shape, named for what the move creates. -/
inductive Family
  | five
  | openFour
  | four
  | openThree
  | closedThree
  | openTwo
  deriving DecidableEq, Repr

namespace Family

/-- How urgent a shape is. -/
def priority : Family → Priority
  | five => Priority.immediate
  | openFour => Priority.urgent
  | four => Priority.high
  | openThree => Priority.high
  | closedThree => Priority.low
  | openTwo => Priority.low

/-- The number of a shape. -/
def code : Family → Fin 64
  | five => 1
  | openFour => 2
  | four => 3
  | openThree => 4
  | closedThree => 5
  | openTwo => 6

end Family

end FiveInRow
