import FiveInRow.Grid.Cell

/-!
The four families of lines on the board. A family numbers its lines, and on each line the cells
have bit positions that grow along the family's step.

* `Direction.step`: the step that raises the bit position by one;
* `Direction.line`, `Direction.bit`: the line through a cell, and the cell's bit on it;
* `Direction.lineMask`: the bits of a line that are cells of the board.
-/

namespace FiveInRow

/-- A family of parallel lines. -/
inductive Direction
  | horizontal
  | vertical
  | diagonal
  | antiDiagonal
  deriving DecidableEq, Repr

/-- Lets numerals name the numbers of families. -/
instance neZero_directions : @NeZero Nat Zero.ofOfNat0 4 := ⟨by decide⟩

namespace Direction

/-- The families in the order in which they are examined. -/
def all : List Direction := [horizontal, vertical, diagonal, antiDiagonal]

theorem mem_all (d : Direction) : d ∈ all := by
  cases d <;> decide

/-- The place of a family in `all`. -/
@[inline] def number : Direction → Fin 4
  | horizontal => 0
  | vertical => 1
  | diagonal => 2
  | antiDiagonal => 3

/-- The family with a given number. -/
def ofNumber : Fin 4 → Direction
  | 0 => horizontal
  | 1 => vertical
  | 2 => diagonal
  | 3 => antiDiagonal

@[simp] theorem ofNumber_number (d : Direction) : ofNumber d.number = d := by
  cases d <;> rfl

@[simp] theorem number_ofNumber : ∀ n : Fin 4, (ofNumber n).number = n := by
  decide

/-- The family that an unbounded number selects: only its last two bits count. -/
def ofIndex (n : Nat) : Direction := ofNumber (Fin.ofNat 4 n)

/-- The name of a family. -/
def name : Direction → String
  | horizontal => "Horizontal"
  | vertical => "Vertical"
  | diagonal => "Diagonal"
  | antiDiagonal => "AntiDiagonal"

/-- The step that raises the bit position by one. -/
@[inline] def step : Direction → Int × Int
  | horizontal => (1, 0)
  | vertical => (0, 1)
  | diagonal => (1, 1)
  | antiDiagonal => (-1, 1)

/-- The line through a cell: its row, its column, or one of the 37 diagonals. -/
@[inline] def line (d : Direction) (c : Cell) : Fin 37 :=
  have hx := c.x_lt
  have hy := c.y_lt
  match d with
  | horizontal => ⟨c.y, by omega⟩
  | vertical => ⟨c.x, by omega⟩
  | diagonal => ⟨18 - c.x + c.y, by omega⟩
  | antiDiagonal => ⟨c.x + c.y, by omega⟩

/-- The bit of a cell on its line. -/
@[inline] def bit (d : Direction) (c : Cell) : Nat :=
  match d with
  | horizontal => c.x
  | _ => c.y

theorem bit_lt (d : Direction) (c : Cell) : d.bit c < 19 :=
  match d with
  | horizontal => c.x_lt
  | vertical | diagonal | antiDiagonal => c.y_lt

/-- The first and the last bit of a line that are cells of the board. -/
@[inline] def extent (d : Direction) (line : Nat) : Nat × Nat :=
  match d with
  | horizontal | vertical => (0, 18)
  | diagonal | antiDiagonal => (line - 18, min line 18)

/-- The bits of a line that are cells of the board, as a word. -/
@[inline] def lineMask (d : Direction) (line : Nat) : Nat :=
  let (low, high) := d.extent line
  (1 <<< (high + 1 - low) - 1) <<< low

end Direction

end FiveInRow
