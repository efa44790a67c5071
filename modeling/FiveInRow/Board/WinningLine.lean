import FiveInRow.Board.Basic

/-!
The stones that decided a game.

* `Board.runThrough`: the stones of one colour next to each other through a cell in one direction;
* `Board.winningLine?`: the first run of five or more through the winner's last stone.
-/

namespace FiveInRow

namespace Board

/-- The cells that follow `c` along `step` as long as they hold `color`, nearest first. -/
def runFrom (b : Board) (color : Color) (c : Cell) (step : Int × Int) : List Cell :=
  (c.ray step 18).takeWhile fun d => b.get d = some color

/-- The whole run through `c`, in the order of increasing bits. -/
def runThrough (b : Board) (color : Color) (c : Cell) (d : Direction) : List Cell :=
  let (dx, dy) := d.step
  (b.runFrom color c (-dx, -dy)).reverse ++ c :: b.runFrom color c (dx, dy)

/-- The decisive run of a won game: the first direction in which the winner's last stone belongs
to a run of at least five. -/
def winningLine? (b : Board) : Option (List Cell) := do
  let winner ← b.status.winner?
  let last ← b.moves.find? (·.color = winner)
  Direction.all.findSome? fun d =>
    let run := b.runThrough winner last.cell d
    if 5 ≤ run.length then some run else none

end Board

end FiveInRow
