import FiveInRow.Color

/-!
How a game stands. The type of winners is a parameter, so that the rules about results do not
depend on who can win.

* `Status.isOver`, `Status.winner?`: whether the game has ended, and who won it;
* `Status.value`: the worth of a result for one side.
-/

namespace FiveInRow

/-- How a game stands. -/
inductive Status (κ : Type)
  | inProgress
  | draw
  | win (winner : κ)
  deriving DecidableEq, Repr

namespace Status

variable {κ : Type}

/-- Whether the game has ended. -/
@[inline] def isOver : Status κ → Bool
  | inProgress => false
  | draw | win _ => true

/-- The winner of a decided game. -/
def winner? : Status κ → Option κ
  | win c => some c
  | inProgress | draw => none

/-- Rename the winner. -/
def map {κ' : Type} (f : κ → κ') : Status κ → Status κ'
  | inProgress => inProgress
  | draw => draw
  | win c => win (f c)

/-- The worth of a result for `side`: a win counts one, a loss minus one, all else nothing. -/
def value [DecidableEq κ] (s : Status κ) (side : κ) : Float32 :=
  match s with
  | win c => if c = side then 1 else -1
  | inProgress | draw => 0

end Status

end FiveInRow
