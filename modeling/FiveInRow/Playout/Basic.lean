import FiveInRow.Ranking.Shortlist

/-!
Playing a position out to the end with drawn moves.

* `Board.playOut`: the final board, the colours taking turns;
* `Board.playOutValue`: what the result is worth to one side.

Every move takes a cell of the room that is left, so a playout ends.
-/

namespace FiveInRow

namespace Board

variable {γ : Type} [WordSource γ]

/-- Play on with drawn moves; `last` is the colour that moved last. -/
def playOut (b : Board) (last : Option Color) : Draw γ Board := do
  let color := Color.after last
  match ← b.sample (some color) with
  | none => return b
  | some c =>
    if h : b.accepts c = true then
      have := room_place h color
      (b.place c color).playOut (some color)
    else
      return b
termination_by b.room

/-- The worth of a drawn game from this position for `side`. -/
def playOutValue (b : Board) (last side : Option Color) : Draw γ Float32 := do
  return ((← b.playOut last).status.map some).value side

end Board

end FiveInRow
