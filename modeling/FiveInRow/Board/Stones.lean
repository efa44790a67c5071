import FiveInRow.Color
import FiveInRow.Grid.CellTable
import FiveInRow.Line.LineTable
import FiveInRow.Line.Run
import FiveInRow.Pattern.LineView

/-!
The stones on the board, kept by cell and by line.

* `Stones.get`: the colour on a cell;
* `Stones.line`: the word of one colour's stones on a line;
* `Stones.put`: place a stone;
* `Stones.hasFive`: whether a colour has five in a row on a line through a cell;
* `Stones.strongest?`: the strongest pattern that a move would make in one direction;
* `Stones.room`: the number of empty cells, which every stone lowers by one.
-/

namespace FiveInRow

/-- The stones on the board. -/
structure Stones where
  cells : CellTable (Option Color)
  lines : ByColor LineTable
  deriving DecidableEq

namespace Stones

/-- No stones. -/
def empty : Stones := ⟨Vector.replicate 361 none, ByColor.both LineTable.empty⟩

/-- The colour on a cell. -/
@[inline] def get (s : Stones) (c : Cell) : Option Color := s.cells.entry c

/-- Whether a cell is empty. -/
@[inline] def isEmpty (s : Stones) (c : Cell) : Bool := (s.get c).isNone

/-- The word of a colour's stones on one line. -/
@[inline] def line (s : Stones) (color : Color) (d : Direction) (line : Fin 37) : Nat :=
  (s.lines.get color).word d line

/-- Place a stone. -/
def put (s : Stones) (c : Cell) (color : Color) : Stones where
  cells := s.cells.put c (some color)
  lines := s.lines.modify color (·.mark c)

/-- Whether `color` has five or more in a row on one of the four lines through `c`. -/
def hasFive (s : Stones) (c : Cell) (color : Color) : Bool :=
  Direction.all.any fun d => 5 ≤ longestRun (s.line color d (d.line c))

/-- What `color` sees from a cell along one direction. -/
def view (s : Stones) (c : Cell) (color : Color) (d : Direction) : LineView :=
  let l := d.line c
  LineView.ofWords (.ofNat (s.line color d l)) (.ofNat (s.line color.other d l))
    (.ofNat (LineTable.board.word d l)) (d.bit c)

/-- The strongest pattern that `color` makes in direction `d` by playing on `c`. -/
@[inline] def strongest? (s : Stones) (c : Cell) (color : Color) (d : Direction) :
    Option Pattern :=
  (s.view c color d).strongest?

/-- The number of empty cells. -/
def room (s : Stones) : Nat := s.cells.count none

theorem get_put (s : Stones) (c d : Cell) (color : Color) :
    (s.put c color).get d = if d = c then some color else s.get d :=
  s.cells.entry_put c d (some color)

/-- A stone on an empty cell takes one cell of the room. -/
theorem room_put {s : Stones} {c : Cell} (h : s.isEmpty c = true) (color : Color) :
    (s.put c color).room + 1 = s.room := by
  have hc : s.cells[c.index] = none := by
    simpa [isEmpty, get, CellTable.entry] using h
  have hpos : 0 < s.cells.count none := Vector.count_pos_iff.2 (hc ▸ s.cells.entry_mem c)
  rw [Fin.getElem_fin] at hc
  simp only [room, put, CellTable.put, Vector.count_set, hc]
  simp only [BEq.rfl, ↓reduceIte, reduceCtorEq, beq_iff_eq]
  omega

end Stones

end FiveInRow
