import FiveInRow.Grid.Direction

/-!
One word for every line of the board.

* `LineTable.word`: the word of a line;
* `LineTable.mark`: set the bits of a cell on the four lines through it (`word_mark`);
* `LineTable.board`: the table in which exactly the cells of the board are set (`word_board`).
-/

namespace FiveInRow

/-- Four families of 37 words; rows and columns use the first 19 of theirs. -/
structure LineTable where
  words : Vector Nat 148
  deriving DecidableEq

namespace LineTable

/-- Where the word of a line is kept. -/
@[inline] def slot (d : Direction) (line : Fin 37) : Fin 148 :=
  ⟨37 * d.number.val + line.val, by have := d.number.isLt; have := line.isLt; omega⟩

/-- The table of empty lines. -/
def empty : LineTable := ⟨Vector.replicate 148 0⟩

/-- The word of a line. -/
@[inline] def word (t : LineTable) (d : Direction) (line : Fin 37) : Nat :=
  t.words[slot d line]

/-- Set the bit of a cell on one line through it. -/
@[inline] def markOn (t : LineTable) (d : Direction) (c : Cell) : LineTable :=
  let i := slot d (d.line c)
  ⟨t.words.set i (t.words[i] ||| 1 <<< d.bit c)⟩

/-- Set the bit of a cell on each of the four lines through it. -/
def mark (t : LineTable) (c : Cell) : LineTable :=
  Direction.all.foldl (·.markOn · c) t

/-- Every cell of the board is set, and no other bit. -/
def board : LineTable :=
  ⟨Vector.ofFn fun i => (Direction.ofIndex (i.val / 37)).lineMask (i.val % 37)⟩

theorem slot_injective {d e : Direction} {l m : Fin 37} (h : slot d l = slot e m) :
    d = e ∧ l = m := by
  have hl := l.isLt
  have hm := m.isLt
  have hv := congrArg Fin.val h
  simp only [slot] at hv
  have hn : d.number = e.number := Fin.ext (by omega)
  refine ⟨?_, Fin.ext (by rw [hn] at hv; omega)⟩
  rw [← Direction.ofNumber_number d, hn, Direction.ofNumber_number]

theorem word_empty (d : Direction) (l : Fin 37) : empty.word d l = 0 := by
  simp [word, empty]

theorem word_markOn (t : LineTable) (c : Cell) (d e : Direction) (l : Fin 37) :
    (t.markOn e c).word d l =
      if d = e ∧ l = e.line c then t.word d l ||| 1 <<< e.bit c else t.word d l := by
  simp only [word, markOn, Fin.getElem_fin, Vector.getElem_set]
  by_cases h : d = e ∧ l = e.line c
  · obtain ⟨rfl, rfl⟩ := h
    simp
  · rw [if_neg h, if_neg]
    intro he
    obtain ⟨h₁, h₂⟩ := slot_injective (Fin.ext he)
    exact h ⟨h₁.symm, h₂.symm⟩

/-- Marking a cell sets its bit on the four lines through it and changes no other line. -/
theorem word_mark (t : LineTable) (c : Cell) (d : Direction) (l : Fin 37) :
    (t.mark c).word d l =
      if l = d.line c then t.word d l ||| 1 <<< d.bit c else t.word d l := by
  simp only [mark, Direction.all, List.foldl_cons, List.foldl_nil, word_markOn]
  cases d <;> simp

theorem word_board (d : Direction) (l : Fin 37) : board.word d l = d.lineMask l := by
  have hl := l.isLt
  have h₁ : (37 * d.number.val + l.val) / 37 = d.number.val := by omega
  have h₂ : (37 * d.number.val + l.val) % 37 = l.val := by omega
  simp only [word, board, Fin.getElem_fin, Vector.getElem_ofFn, slot, h₁, h₂]
  cases d <;> rfl

end LineTable

end FiveInRow
