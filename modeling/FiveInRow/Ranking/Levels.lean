import FiveInRow.Board.Basic
import FiveInRow.Random.Source

/-!
Cells sorted into the nine levels of urgency.

* `Levels.ofCells`: the levels of some cells, each in the order given;
* `Levels.top`: the most urgent level that holds a cell;
* `Levels.weightedPick?`: draw a level with weight one more than its number, then one of its cells.
-/

namespace FiveInRow

/-- A list of cells for each level of urgency. -/
abbrev Levels := Vector (List Cell) 9

namespace Levels

/-- Levels without cells. -/
def empty : Levels := Vector.replicate 9 []

/-- Put a cell in front of a level. -/
@[inline] def add (levels : Levels) (p : Priority) (c : Cell) : Levels :=
  levels.set p (c :: levels[p])

/-- Sort cells by urgency. -/
def ofCells (priority : Cell → Priority) (cells : List Cell) : Levels :=
  cells.foldr (fun c levels => levels.add (priority c) c) empty

/-- The most urgent level that holds a cell, or level zero. -/
def top (levels : Levels) : Priority :=
  ((List.finRange 9).reverse.find? fun p => !levels[p].isEmpty).getD 0

/-- The levels that hold a cell, each with its weight. -/
def weighted (levels : Levels) : List (Nat × List Cell) :=
  (levels.toList.zipIdx.filter (!·.1.isEmpty)).map fun (cells, level) => (level + 1, cells)

/-- The entry that a ticket falls on when each entry owns as many tickets as it weighs. -/
def ticketed : List (Nat × List Cell) → Nat → List Cell
  | [], _ => []
  | (weight, cells) :: rest, ticket =>
    if ticket < weight then cells else ticketed rest (ticket - weight)

/-- Draw a level that holds a cell with weight one more than its number, then one of its cells.
Nothing is drawn when no level holds a cell. -/
def weightedPick? {γ : Type} [WordSource γ] (levels : Levels) : Draw γ (Option Cell) := do
  let entries := levels.weighted
  let total := (entries.map (·.1)).foldr (· + ·) 0
  if total = 0 then
    return none
  else
    Draw.pick? (ticketed entries (← Draw.below total))

theorem getElem_add (levels : Levels) (p q : Priority) (c : Cell) :
    (levels.add p c)[q] = if q = p then c :: levels[q] else levels[q] := by
  by_cases h : q = p
  · subst h; simp [add]
  · rw [if_neg h]
    simp only [add, Fin.getElem_fin]
    exact Vector.getElem_set_ne _ _ fun e => h (Fin.ext e.symm)

theorem getElem_ofCells (priority : Cell → Priority) (cells : List Cell) (p : Priority) :
    (ofCells priority cells)[p] = cells.filter fun c => priority c = p := by
  induction cells with
  | nil => simp [ofCells, empty]
  | cons c cells ih =>
    have hs : ofCells priority (c :: cells) = (ofCells priority cells).add (priority c) c := rfl
    rw [hs, getElem_add, ih, List.filter_cons]
    by_cases h : p = priority c
    · simp [h]
    · simp [h, Ne.symm h]

/-- A level holds some of the cells that were sorted. -/
theorem mem_of_mem_ofCells {priority : Cell → Priority} {cells : List Cell} {p : Priority}
    {c : Cell} (h : c ∈ (ofCells priority cells)[p]) : c ∈ cells := by
  rw [getElem_ofCells] at h
  exact (List.mem_filter.1 h).1

end Levels

end FiveInRow
