import Mathlib.Tactic
import FiveInRow.Color
import FiveInRow.Proofs.Grid.Lines

/-!
The eight symmetries of the square board, its rotations and reflections. A symmetry takes the four
families of lines to each other and runs through some of their lines backwards.

* `Symmetry`, `Symmetry.onCell`: a symmetry and what it does to a cell;
* `Symmetry.inverse`: how to take it back;
* `Symmetry.turn`, `Symmetry.sense`: where it takes the lines of a family, and in which sense;
* `Symmetry.offset_onCell`: walks along lines go to walks along lines;
* `Symmetry.distance_onCell`: distances stay the same;
* `Symmetry.Carries`: a position that is the image of another one.
-/

namespace FiveInRow

/-- A symmetry of the square: columns and rows are exchanged or not, and afterwards the columns,
the rows, both or neither are reflected. A quarter turn exchanges them and reflects one of the
two. -/
structure Symmetry where
  transpose : Bool
  mirrorX : Bool
  mirrorY : Bool
  deriving DecidableEq, Repr

namespace Symmetry

/-- A coordinate, reflected or not. -/
def reflect (mirror : Bool) (k : ℕ) : ℕ := if mirror then 18 - k else k

lemma reflect_lt (mirror : Bool) {k : ℕ} (h : k < 19) : reflect mirror k < 19 := by
  rw [reflect]
  split_ifs <;> omega

/-- The column to which a cell is taken. -/
def column (s : Symmetry) (c : Cell) : ℕ := reflect s.mirrorX (if s.transpose then c.y else c.x)

/-- The row to which a cell is taken. -/
def row (s : Symmetry) (c : Cell) : ℕ := reflect s.mirrorY (if s.transpose then c.x else c.y)

variable (s : Symmetry) (c : Cell)

lemma column_lt : s.column c < 19 := by
  refine reflect_lt _ ?_
  split_ifs
  · exact c.y_lt
  · exact c.x_lt

lemma row_lt : s.row c < 19 := by
  refine reflect_lt _ ?_
  split_ifs
  · exact c.x_lt
  · exact c.y_lt

/-- The cell to which a cell is taken. -/
def onCell (s : Symmetry) (c : Cell) : Cell :=
  ⟨⟨s.column c + 19 * s.row c, by have := s.column_lt c; have := s.row_lt c; omega⟩⟩

lemma x_onCell : (s.onCell c).x = s.column c := by
  have := s.column_lt c
  simp only [Cell.x, onCell]
  omega

lemma y_onCell : (s.onCell c).y = s.row c := by
  have := s.column_lt c
  simp only [Cell.y, onCell]
  omega

/-- The middle of the board stays. -/
lemma onCell_center : s.onCell Cell.center = Cell.center := by
  rcases s with ⟨_ | _, _ | _, _ | _⟩ <;> rfl

/-- The symmetry that takes every cell back. -/
def inverse (s : Symmetry) : Symmetry where
  transpose := s.transpose
  mirrorX := if s.transpose then s.mirrorY else s.mirrorX
  mirrorY := if s.transpose then s.mirrorX else s.mirrorY

lemma onCell_inverse : s.onCell (s.inverse.onCell c) = c := by
  have hx := c.x_lt
  have hy := c.y_lt
  refine Cell.eq_of_x_y ?_ ?_
  · rw [x_onCell, column, x_onCell, y_onCell, column, row]
    rcases s with ⟨_ | _, _ | _, _ | _⟩ <;> simp only [reflect, inverse] <;> grind
  · rw [y_onCell, row, x_onCell, y_onCell, column, row]
    rcases s with ⟨_ | _, _ | _, _ | _⟩ <;> simp only [reflect, inverse] <;> grind

lemma inverse_inverse : s.inverse.inverse = s := by
  rcases s with ⟨_ | _, _ | _, _ | _⟩ <;> rfl

lemma inverse_onCell : s.inverse.onCell (s.onCell c) = c := by
  have h := s.inverse.onCell_inverse c
  rwa [inverse_inverse] at h

lemma onCell_injective : Function.Injective s.onCell :=
  Function.LeftInverse.injective s.inverse_onCell

/-- Distances stay the same. -/
lemma distance_onCell (a b : Cell) : (s.onCell a).distance (s.onCell b) = a.distance b := by
  have hax := a.x_lt
  have hay := a.y_lt
  have hbx := b.x_lt
  have hby := b.y_lt
  simp only [Cell.distance, x_onCell, y_onCell, column, row, reflect]
  rcases s with ⟨_ | _, _ | _, _ | _⟩ <;> simp only [reduceIte, Bool.false_eq_true] <;> omega

/-! ### Lines -/

/-- The family to which the lines of a family are taken. -/
def turn (s : Symmetry) : Direction → Direction
  | .horizontal => if s.transpose then .vertical else .horizontal
  | .vertical => if s.transpose then .horizontal else .vertical
  | .diagonal => if s.mirrorX = s.mirrorY then .diagonal else .antiDiagonal
  | .antiDiagonal => if s.mirrorX = s.mirrorY then .antiDiagonal else .diagonal

/-- The sense of a coordinate that is reflected or not. -/
def sign (mirror : Bool) : ℤ := if mirror then -1 else 1

/-- Whether the lines of a family are run through forwards, `1`, or backwards, `-1`. -/
def sense (s : Symmetry) : Direction → ℤ
  | .horizontal => if s.transpose then sign s.mirrorY else sign s.mirrorX
  | .vertical => if s.transpose then sign s.mirrorX else sign s.mirrorY
  | .diagonal => sign s.mirrorY
  | .antiDiagonal => if s.transpose then -sign s.mirrorY else sign s.mirrorY

lemma turn_involutive : Function.Involutive s.turn := by
  intro d
  rcases s with ⟨_ | _, _ | _, _ | _⟩ <;> cases d <;> rfl

lemma turn_inverse : s.inverse.turn = s.turn := by
  funext d
  rcases s with ⟨_ | _, _ | _, _ | _⟩ <;> cases d <;> rfl

lemma sense_eq (d : Direction) : s.sense d = 1 ∨ s.sense d = -1 := by
  rcases s with ⟨_ | _, _ | _, _ | _⟩ <;> cases d <;> decide

/-- **Walks along lines go to walks along lines**, off the board to off the board. -/
lemma offset_onCell (d : Direction) (n : ℤ) :
    (s.onCell c).offset (s.turn d).step (s.sense d * n) = (c.offset d.step n).map s.onCell := by
  have hcx := c.x_lt
  have hcy := c.y_lt
  cases h : c.offset d.step n with
  | none =>
      rw [Cell.offset_eq_none_iff, OnBoard] at h
      rw [Option.map_none, Cell.offset_eq_none_iff, OnBoard, x_onCell, y_onCell]
      rcases s with ⟨_ | _, _ | _, _ | _⟩ <;> cases d <;>
        simp only [column, row, reflect, turn, sense, sign, Direction.step] at h ⊢ <;> grind
  | some e =>
      have hex := e.x_lt
      have hey := e.y_lt
      rw [Cell.offset_eq_some_iff] at h
      rw [Option.map_some, Cell.offset_eq_some_iff]
      simp only [x_onCell, y_onCell, column, row, reflect]
      rcases s with ⟨_ | _, _ | _, _ | _⟩ <;> cases d <;>
        simp only [turn, sense, sign, Direction.step] at h ⊢ <;> grind

/-! ### Positions -/

/-- The second position is the image of the first one. -/
def Carries (s : Symmetry) (o o' : Cell → Option Color) : Prop := ∀ e, o' (s.onCell e) = o e

variable {s c} {o o' : Cell → Option Color}

lemma Carries.inverse (h : s.Carries o o') : s.inverse.Carries o' o := by
  intro e
  rw [← h, onCell_inverse]

/-- What holds of every cell of a position holds of every cell of its image. -/
lemma Carries.forall_iff (h : s.Carries o o') {P : Option Color → Prop} :
    (∀ p, P (o' p)) ↔ ∀ p, P (o p) := by
  constructor
  · intro hall p
    rw [← h]
    exact hall (s.onCell p)
  · intro hall p
    rw [← h.inverse]
    exact hall (s.inverse.onCell p)

/-- A stone on a cell and one on its image. -/
lemma Carries.update (h : s.Carries o o') (c : Cell) (x : Option Color) :
    s.Carries (Function.update o c x) (Function.update o' (s.onCell c) x) := by
  intro e
  by_cases he : e = c
  · subst he
    rw [Function.update_self, Function.update_self]
  · rw [Function.update_of_ne he, Function.update_of_ne (s.onCell_injective.ne he), h]

end Symmetry

end FiveInRow
