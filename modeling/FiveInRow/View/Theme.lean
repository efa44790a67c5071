import FiveInRow.Color
import FiveInRow.Grid.Cell
import FiveInRow.View.Rgba

/-!
How the board looks: colours, sizes, and the two colours that depend on the game.

* `Theme.hover`: the preview of a stone under the pointer;
* `Theme.candidate`: the square of a candidate, red for a lost and green for a won move.
-/

namespace FiveInRow.Theme

/-! ### Colours -/

/-- The wood of the board. -/
def wood : Rgba := Rgba.solid 222 184 135

/-- The grid and its numbers. -/
def grid : Rgba := Rgba.solid 60 40 20

/-- The star points. -/
def star : Rgba := Rgba.solid 50 35 20

/-- A black stone. -/
def blackStone : Rgba := Rgba.solid 25 25 30

/-- The light on a black stone. -/
def blackHighlight : Rgba := Rgba.solid 70 70 80

/-- A white stone. -/
def whiteStone : Rgba := Rgba.solid 250 250 252

/-- The rim of a white stone. -/
def whiteRim : Rgba := Rgba.solid 190 190 195

/-- The marker of the last move. -/
def lastMove : Rgba := Rgba.solid 230 60 60

/-- The decisive stones. -/
def winning : Rgba := Rgba.solid 50 220 50

/-- The rim of an expected stone. -/
def expectedRim : Rgba := Rgba.solid 30 90 200

/-- The visit count of a candidate. -/
def label : Rgba := Rgba.solid 240 240 245

/-- The preview of a stone under the pointer. -/
def hover : Option Color → Rgba
  | some .white => Rgba.translucent 240 240 240 80
  | _ => Rgba.translucent 20 20 20 80

/-- The shadow of a stone. -/
def shadow : Color → Rgba
  | .black => Rgba.translucent 0 0 0 60
  | .white => Rgba.translucent 0 0 0 40

/-- An expected stone and the number on it. -/
def expectedStone : Option Color → Rgba × Rgba
  | some .white => (Rgba.translucent 250 250 252 140, blackStone)
  | _ => (Rgba.translucent 25 25 30 140, whiteStone)

/-- A number brought into the interval from zero to one; what is no number stays. -/
def clamp (x : Float32) : Float32 := if x < 0 then 0 else if x > 1 then 1 else x

/-- The square of a candidate with an average between minus one, red, and one, green. -/
def candidate (average : Float32) : Rgba :=
  let t := clamp ((average + 1) / 2)
  Rgba.translucent (230 * (1 - t)).toUInt8 (200 * t).toUInt8 40 110

/-! ### Sizes -/

/-- The distance from the edge of the board to the outer lines. -/
def margin : Float32 := 40

/-- The radius of a stone in cells. -/
def stoneRatio : Float32 := 0.45

/-- The candidates that are shown. -/
def maxCandidates : Nat := 12

/-- The moves of the expected line that are shown. -/
def maxExpected : Nat := 8

/-- The star points of the board, column by column. -/
def stars : List Cell :=
  [3, 9, 15].flatMap fun x => [3, 9, 15].filterMap fun y => Cell.at? x y

end FiveInRow.Theme
