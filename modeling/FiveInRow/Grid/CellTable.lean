import FiveInRow.Grid.Cell

/-!
Tables with an entry for every cell.

* `CellTable.entry`: the entry of a cell;
* `CellTable.put`: replace one entry, which leaves all others (`entry_put`).
-/

namespace FiveInRow

/-- A table with an entry for every cell, in index order. -/
abbrev CellTable (α : Type) := Vector α 361

namespace CellTable

variable {α : Type}

/-- The entry of a cell. -/
@[inline] def entry (t : CellTable α) (c : Cell) : α := t[c.index]

/-- Replace the entry of a cell. -/
@[inline] def put (t : CellTable α) (c : Cell) (a : α) : CellTable α := t.set c.index a

theorem ext {t u : CellTable α} (h : ∀ c, t.entry c = u.entry c) : t = u := by
  apply Vector.ext
  intro i hi
  exact h ⟨⟨i, hi⟩⟩

@[simp] theorem entry_replicate (a : α) (c : Cell) :
    entry (Vector.replicate 361 a) c = a := by
  simp [entry]

theorem entry_put (t : CellTable α) (c d : Cell) (a : α) :
    (t.put c a).entry d = if d = c then a else t.entry d := by
  rcases c with ⟨c⟩
  rcases d with ⟨d⟩
  simp only [entry, put, Fin.getElem_fin, Vector.getElem_set, Cell.mk.injEq]
  by_cases h : d = c
  · simp [h]
  · rw [if_neg h, if_neg fun e => h (Fin.ext e.symm)]

theorem entry_mem (t : CellTable α) (c : Cell) : t.entry c ∈ t :=
  Vector.getElem_mem c.index.isLt

end CellTable

end FiveInRow
