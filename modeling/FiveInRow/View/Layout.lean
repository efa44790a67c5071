import FiveInRow.View.Theme

/-!
Where the board lies on the screen.

* `Layout.ofSize`: the board in the upper left corner of an area of a given size;
* `Layout.pointOf`, `Layout.cellAt?`: from a cell to the screen and back;
* `Layout.covers`: whether a point lies on the board's square.
-/

namespace FiveInRow

/-- A point of the screen. -/
structure Point where
  x : Float32
  y : Float32

/-- The board's square has its upper left corner at the origin. -/
structure Layout where
  /-- The side of the square. -/
  side : Float32
  /-- The distance between neighbouring lines. -/
  pitch : Float32

namespace Layout

/-- The largest board that fits an area and leaves some room at the lower right. -/
def ofSize (width height : Float32) : Layout :=
  let side := (if height < width then height else width) - 20
  { side, pitch := (side - 2 * Theme.margin) / 18 }

/-- How far the `i`-th line is from the edge. -/
def offset (l : Layout) (i : Nat) : Float32 := Theme.margin + Float32.ofNat i * l.pitch

/-- The middle of a cell. -/
def pointOf (l : Layout) (c : Cell) : Point := ⟨l.offset c.x, l.offset c.y⟩

/-- Which line a coordinate is closest to. -/
def lineAt (l : Layout) (t : Float32) : Int :=
  ((t - Theme.margin + l.pitch * 0.5) / l.pitch).floor.toInt32.toInt

/-- The cell around a point. -/
def cellAt? (l : Layout) (p : Point) : Option Cell := Cell.at? (l.lineAt p.x) (l.lineAt p.y)

/-- Whether a point lies on the board's square. -/
def covers (l : Layout) (p : Point) : Bool :=
  0 ≤ p.x && p.x ≤ l.side && 0 ≤ p.y && p.y ≤ l.side

end Layout

end FiveInRow
