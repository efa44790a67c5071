import FiveInRow.Board.WinningLine
import FiveInRow.Search.Query
import FiveInRow.Text.Fixed
import FiveInRow.View.Layout

/-!
The picture of a board, as a list of shapes in the order in which they are painted.

* `Shape`: what can be painted;
* `Overlay`: what is shown besides the stones;
* `Picture.of`: the whole picture;
* `Picture.hovered?`: the empty cell under the pointer, where a click plays a stone.
-/

namespace FiveInRow

/-- A shape. -/
inductive Shape
  | rect (min max : Point) (rounding : Nat) (fill : Rgba)
  | line (start stop : Point) (width : Float32) (color : Rgba)
  | disc (center : Point) (radius : Float32) (fill : Rgba)
  | ring (center : Point) (radius : Float32) (width : Float32) (color : Rgba)
  | text (center : Point) (content : String) (color : Rgba)

/-- What is shown besides the stones. -/
structure Overlay where
  candidates : List MoveStats := []
  expected : List MoveStats := []
  winning : Option (List Cell) := none

/-- A count in few characters: `950`, `12k`, `3.4M`. -/
def shortCount (n : Nat) : String :=
  if n < 1000 then toString n
  else if n < 1000000 then toString (n / 1000) ++ "k"
  else Fixed.ofFloat 1 (Float32.ofNat n / 1000000).toFloat ++ "M"

namespace Picture

/-- A point moved to the right and down. -/
def shift (p : Point) (dx dy : Float32) : Point := ⟨p.x + dx, p.y + dy⟩

/-- The lines of the board, a column and a row at a time. -/
def grid (l : Layout) : List Shape :=
  let near := Theme.margin
  let far := l.offset 18
  (List.range 19).flatMap fun i =>
    let t := l.offset i
    [.line ⟨t, near⟩ ⟨t, far⟩ 1 Theme.grid, .line ⟨near, t⟩ ⟨far, t⟩ 1 Theme.grid]

/-- The star points. -/
def stars (l : Layout) : List Shape :=
  Theme.stars.map fun c => .disc (l.pointOf c) 4 Theme.star

/-- The numbers of the columns along the top and of the rows down the left. -/
def numbers (l : Layout) : List Shape :=
  (List.range 19).flatMap fun i =>
    let t := l.offset i
    [.text ⟨t, 14⟩ (toString i) Theme.grid, .text ⟨14, t⟩ (toString i) Theme.grid]

/-- A candidate: a square with its visit count. -/
def candidate (l : Layout) (s : MoveStats) : List Shape :=
  let center := l.pointOf s.cell
  let half := l.pitch * 0.45 * 2 * 0.5
  [.rect (shift center (-half) (-half)) (shift center half half) 3 (Theme.candidate s.average),
   .text center (shortCount s.visits) Theme.label]

/-- The radius of a stone. -/
def stoneRadius (l : Layout) : Float32 := l.pitch * Theme.stoneRatio

/-- A stone with its shadow; black stones shine and white ones have a rim. -/
def stone (l : Layout) (m : Move) : List Shape :=
  let center := l.pointOf m.cell
  let radius := stoneRadius l
  .disc (shift center 2 2) radius (Theme.shadow m.color) ::
    match m.color with
    | .black =>
      [.disc center radius Theme.blackStone,
       .disc (shift center (-radius * 0.3) (-radius * 0.3)) (radius * 0.2) Theme.blackHighlight]
    | .white =>
      [.disc center radius Theme.whiteStone,
       .ring center (radius * 0.85) (radius * 0.1) Theme.whiteRim]

/-- The marker of the last move. -/
def lastMarker (l : Layout) (b : Board) : List Shape :=
  (b.last?.map fun m => Shape.disc (l.pointOf m.cell) 5 Theme.lastMove).toList

/-- A stone of the expected line with its number. -/
def expectedStone (l : Layout) (s : MoveStats) (number : Nat) : List Shape :=
  let center := l.pointOf s.cell
  let radius := stoneRadius l
  let (fill, ink) := Theme.expectedStone s.color
  [.disc center radius fill, .ring center radius 1.5 Theme.expectedRim,
   .text center (toString number) ink]

/-- The decisive stones, joined by lines and circled. -/
def winningLine (l : Layout) (cells : List Cell) : List Shape :=
  (cells.zip cells.tail).map (fun (a, b) => .line (l.pointOf a) (l.pointOf b) 4 Theme.winning) ++
    cells.map fun c => .ring (l.pointOf c) (stoneRadius l + 3) 4 Theme.winning

/-- The empty cell under the pointer, if stones can be placed. -/
def hovered? (l : Layout) (b : Board) (accepts : Bool) (pointer : Option Point) : Option Cell := do
  let p ← pointer
  if accepts && l.covers p then
    let c ← l.cellAt? p
    if b.isEmptyAt c then some c else none
  else
    none

/-- The preview of a stone under the pointer. -/
def hover (l : Layout) (c : Cell) (turn : Color) : Shape :=
  .disc (l.pointOf c) (stoneRadius l) (Theme.hover (some turn))

/-- The picture of a board. -/
def of (l : Layout) (b : Board) (o : Overlay) (hovered : Option Cell) : List Shape :=
  [.rect ⟨0, 0⟩ ⟨l.side, l.side⟩ 4 Theme.wood] ++ grid l ++ stars l ++ numbers l ++
    o.candidates.flatMap (candidate l) ++ b.history.flatMap (stone l) ++ lastMarker l b ++
    (o.expected.zipIdx 1).flatMap (fun (s, i) => expectedStone l s i) ++
    (o.winning.map (winningLine l)).getD [] ++
    (hovered.map fun c => hover l c b.sideToMove).toList

end Picture

end FiveInRow
