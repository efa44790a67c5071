import FiveInRow.Pattern.Family

/-!
The shapes as rows of marks. A template says what every cell of a stretch of a line must be for
the move on its anchor to make the shape; templates are read in the direction in which bit
positions grow.

* `Mark`: the kinds of cell in a template;
* `templates`: all templates with their families, the most urgent families first, so that the
  first template that fits a line is the strongest one.
-/

namespace FiveInRow

/-- What a template asks of one cell. -/
inductive Mark
  /-- An own stone. -/
  | stone
  /-- The move itself: empty, and a cell that the opponent can defend on. -/
  | anchor
  /-- Empty. -/
  | gap
  /-- Empty, and a cell that the opponent can defend on. -/
  | cover
  /-- An enemy stone or the edge of the board. -/
  | wall
  deriving DecidableEq, Repr

/-- A row of marks with one anchor. -/
abbrev Template := List Mark

namespace Template

open Mark

/-- Four stones and the cell that makes them five. -/
def fives : List Template :=
  [[stone, stone, stone, stone, anchor],
   [stone, stone, stone, anchor, stone],
   [stone, stone, anchor, stone, stone],
   [stone, anchor, stone, stone, stone],
   [anchor, stone, stone, stone, stone]]

/-- A row of four with both ends open. -/
def openFours : List Template :=
  [[gap, anchor, stone, stone, stone, cover],
   [cover, stone, stone, stone, anchor, gap],
   [cover, stone, anchor, stone, stone, cover],
   [cover, stone, stone, anchor, stone, cover]]

/-- The anchor and three stones within five cells: one more stone completes a five. -/
def fours : List Template :=
  [[anchor, cover, stone, stone, stone],
   [anchor, stone, cover, stone, stone],
   [anchor, stone, stone, cover, stone],
   [anchor, stone, stone, stone, cover],
   [cover, anchor, stone, stone, stone],
   [stone, anchor, cover, stone, stone],
   [stone, anchor, stone, cover, stone],
   [stone, anchor, stone, stone, cover],
   [cover, stone, anchor, stone, stone],
   [stone, cover, anchor, stone, stone],
   [stone, stone, anchor, cover, stone],
   [stone, stone, anchor, stone, cover],
   [cover, stone, stone, anchor, stone],
   [stone, cover, stone, anchor, stone],
   [stone, stone, cover, anchor, stone],
   [stone, stone, stone, anchor, cover],
   [cover, stone, stone, stone, anchor],
   [stone, cover, stone, stone, anchor],
   [stone, stone, cover, stone, anchor],
   [stone, stone, stone, cover, anchor]]

/-- Three stones, the anchor among them, in the middle four of six cells whose ends are empty. -/
def openThrees : List Template :=
  [[cover, anchor, stone, stone, cover, cover],
   [cover, stone, anchor, stone, cover, cover],
   [cover, stone, stone, anchor, cover, cover],
   [cover, cover, anchor, stone, stone, cover],
   [cover, cover, stone, anchor, stone, cover],
   [cover, cover, stone, stone, anchor, cover],
   [cover, anchor, stone, cover, stone, cover],
   [cover, stone, anchor, cover, stone, cover],
   [cover, stone, stone, cover, anchor, cover],
   [cover, anchor, cover, stone, stone, cover],
   [cover, stone, cover, anchor, stone, cover],
   [cover, stone, cover, stone, anchor, cover]]

/-- A row of three that is blocked on one side and has room for a four on the other. -/
def closedThrees : List Template :=
  [[wall, stone, stone, anchor, cover, cover],
   [wall, stone, anchor, stone, cover, cover],
   [wall, anchor, stone, stone, cover, cover],
   [cover, cover, anchor, stone, stone, wall],
   [cover, cover, stone, anchor, stone, wall],
   [cover, cover, stone, stone, anchor, wall]]

/-- Two stones, the anchor among them, at most two apart in six cells that are otherwise empty. -/
def openTwos : List Template :=
  [[gap, anchor, stone, gap, gap, gap],
   [gap, stone, anchor, gap, gap, gap],
   [gap, gap, anchor, stone, gap, gap],
   [gap, gap, stone, anchor, gap, gap],
   [gap, gap, gap, anchor, stone, gap],
   [gap, gap, gap, stone, anchor, gap],
   [gap, anchor, gap, stone, gap, gap],
   [gap, stone, gap, anchor, gap, gap],
   [gap, gap, anchor, gap, stone, gap],
   [gap, gap, stone, gap, anchor, gap]]

end Template

/-- All templates with their families, in the order in which they are tried. -/
def templates : List (Family × Template) :=
  Template.fives.map (Family.five, ·) ++
  Template.openFours.map (Family.openFour, ·) ++
  Template.fours.map (Family.four, ·) ++
  Template.openThrees.map (Family.openThree, ·) ++
  Template.closedThrees.map (Family.closedThree, ·) ++
  Template.openTwos.map (Family.openTwo, ·)

theorem length_templates : templates.length = 57 := rfl

end FiveInRow
