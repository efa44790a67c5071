/-!
Cells of the 19 × 19 board. A cell is its index in reading order, so the column is the index
modulo 19 and the row the quotient.

* `Cell.x`, `Cell.y`: column and row;
* `Cell.at?`: the cell at given coordinates, if they are on the board;
* `Cell.offset`, `Cell.ray`: the cell some steps away, and the cells met on the way;
* `Cell.distance`: how many king moves two cells are apart;
* `Cell.all`: every cell, in index order.
-/

namespace FiveInRow

/-- A cell of the board, numbered row by row. -/
structure Cell where
  index : Fin 361
  deriving DecidableEq, Repr

/-- Lets numerals name the indices of cells. -/
instance neZero_cells : @NeZero Nat Zero.ofOfNat0 361 := ⟨by decide⟩

/-- Whether coordinates lie on the board. -/
def OnBoard (x y : Int) : Prop := 0 ≤ x ∧ x < 19 ∧ 0 ≤ y ∧ y < 19

instance (x y : Int) : Decidable (OnBoard x y) :=
  inferInstanceAs (Decidable (_ ∧ _ ∧ _ ∧ _))

namespace Cell

/-- The column of a cell. -/
@[inline] def x (c : Cell) : Nat := c.index.val % 19

/-- The row of a cell. -/
@[inline] def y (c : Cell) : Nat := c.index.val / 19

theorem x_lt (c : Cell) : c.x < 19 := Nat.mod_lt _ (by decide)

theorem y_lt (c : Cell) : c.y < 19 := by
  have := c.index.isLt
  unfold y
  omega

/-- The middle of the board. -/
def center : Cell := ⟨180⟩

/-- The cell in column `x` and row `y`. -/
@[inline] def at? (x y : Int) : Option Cell :=
  if h : OnBoard x y then
    some ⟨⟨x.toNat + 19 * y.toNat, by obtain ⟨h₁, h₂, h₃, h₄⟩ := h; omega⟩⟩
  else
    none

theorem at?_isSome_iff (x y : Int) : (at? x y).isSome ↔ OnBoard x y := by
  unfold at?
  split <;> simp_all

theorem x_of_at? {x y : Int} {c : Cell} (h : at? x y = some c) : (c.x : Int) = x := by
  unfold at? at h
  split at h
  · obtain ⟨h₁, h₂, h₃, h₄⟩ := ‹OnBoard x y›
    cases h
    simp only [Cell.x]
    omega
  · contradiction

theorem y_of_at? {x y : Int} {c : Cell} (h : at? x y = some c) : (c.y : Int) = y := by
  unfold at? at h
  split at h
  · obtain ⟨h₁, h₂, h₃, h₄⟩ := ‹OnBoard x y›
    cases h
    simp only [Cell.y]
    omega
  · contradiction

theorem at?_x_y (c : Cell) : at? c.x c.y = some c := by
  have hx := c.x_lt
  have hy := c.y_lt
  have h : OnBoard c.x c.y := ⟨by omega, by omega, by omega, by omega⟩
  rw [at?, dif_pos h]
  congr 2
  apply Fin.ext
  simp only [Int.toNat_natCast, Cell.x, Cell.y]
  omega

/-- The cell `n` steps of `step` away; a negative `n` walks backwards. -/
@[inline] def offset (c : Cell) (step : Int × Int) (n : Int) : Option Cell :=
  at? (c.x + step.1 * n) (c.y + step.2 * n)

/-- The cells at distance `1, 2, …, n` along `step`, nearest first, up to the edge of the board. -/
def ray (c : Cell) (step : Int × Int) : Nat → List Cell
  | 0 => []
  | n + 1 =>
    match c.offset step 1 with
    | none => []
    | some d => d :: d.ray step n

/-- How many king moves apart two cells are. -/
def distance (a b : Cell) : Nat :=
  max ((a.x : Int) - b.x).natAbs ((a.y : Int) - b.y).natAbs

/-- Every cell, in index order. -/
def all : List Cell := (List.finRange 361).map Cell.mk

theorem mem_all (c : Cell) : c ∈ all := by
  simp [all]

end Cell

end FiveInRow
