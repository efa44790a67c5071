import Mathlib.Tactic
import FiveInRow.Board.Stones
import FiveInRow.Proofs.Grid.Lines
import FiveInRow.Proofs.Line.Runs
import FiveInRow.Proofs.Pattern.Locality

/-!
The words of the lines against the cells. A position is read off its cells alone, as a function
from cells to colours, and the words are shown to say the same.

* `Row`, `HasFive`, `Completes`: stones in a row, a decided position, and the cells that decide one;
* `hasFive_update_iff`: a stone makes five exactly on the cells that complete five;
* `Window.ofCells`: what a colour sees from a cell, read off the cells;
* `Stones.Mirrored`: the words of the lines hold the stones of the cells and nothing else;
* `Stones.hasFive_iff`: what the words say about rows;
* `Stones.strongest?_eq_window`, `Stones.Mirrored.window_eq`: the pattern that is found on the words
  is that of a window, and the window shows the cells.
-/

namespace FiveInRow

/-! ### Stones in a row -/

/-- `n` stones of a colour in a row that starts on a cell and goes along a direction. -/
def Row (o : Cell → Option Color) (color : Color) (start : Cell) (d : Direction) (n : ℕ) : Prop :=
  ∀ i : ℕ, i < n → ∃ e, start.offset d.step i = some e ∧ o e = some color

/-- Somewhere a colour has five or more stones in a row. -/
def HasFive (o : Cell → Option Color) (color : Color) : Prop :=
  ∃ start d n, 5 ≤ n ∧ Row o color start d n

/-- All of a row of five but the cell itself holds stones of the colour; the cell is number `j` of
the row. -/
def Completes (o : Cell → Option Color) (color : Color) (c : Cell) (d : Direction) (j : ℕ) : Prop :=
  ∀ i : ℕ, i < 5 → i ≠ j → ∃ e, c.offset d.step ((i : ℤ) - j) = some e ∧ o e = some color

variable {o : Cell → Option Color} {color : Color} {c : Cell} {d : Direction}

lemma Row.mono {start : Cell} {m n : ℕ} (h : Row o color start d n) (hmn : m ≤ n) :
    Row o color start d m :=
  fun i hi => h i (by omega)

lemma hasFive_iff_row : HasFive o color ↔ ∃ start d, Row o color start d 5 := by
  constructor
  · rintro ⟨start, d, n, hn, h⟩
    exact ⟨start, d, h.mono hn⟩
  · rintro ⟨start, d, h⟩
    exact ⟨start, d, 5, le_refl 5, h⟩

/-- A stone of another colour makes nothing. -/
lemma hasFive_update_other (ho : o c = none) {other : Color} (hne : other ≠ color)
    (h : HasFive (Function.update o c (some color)) other) : HasFive o other := by
  obtain ⟨start, d, n, hn, h⟩ := h
  refine ⟨start, d, n, hn, fun i hi => ?_⟩
  obtain ⟨e, he, heo⟩ := h i hi
  refine ⟨e, he, ?_⟩
  by_cases hec : e = c
  · subst hec
    rw [Function.update_self] at heo
    exact absurd (Option.some.inj heo).symm hne
  · rwa [Function.update_of_ne hec] at heo

/-- A row that a new stone is no part of was there before. -/
lemma Row.of_update {start : Cell} {n : ℕ}
    (h : Row (Function.update o c (some color)) color start d n)
    (hc : ∀ i : ℕ, i < n → start.offset d.step i ≠ some c) : Row o color start d n := by
  intro i hi
  obtain ⟨e, he, heo⟩ := h i hi
  have hne : e ≠ c := by
    rintro rfl
    exact hc i hi he
  exact ⟨e, he, by rwa [Function.update_of_ne hne] at heo⟩

/-- The rows of five that a new stone makes are those that it completes. -/
lemma row_update_iff (ho : o c = none) :
    (∃ start : Cell, Row (Function.update o c (some color)) color start d 5 ∧
        ∃ j : ℕ, j < 5 ∧ start.offset d.step j = some c) ↔
      ∃ j < 5, Completes o color c d j := by
  constructor
  · rintro ⟨start, hrow, j, hj, hjc⟩
    refine ⟨j, hj, fun i hi hij => ?_⟩
    obtain ⟨e, he, heo⟩ := hrow i hi
    have hce : c.offset d.step ((i : ℤ) - j) = some e := by
      rw [Cell.offset_offset hjc, ← he]
      congr 1
      ring
    have hne : e ≠ c := by
      rintro rfl
      have h₁ := (Direction.offset_eq_some_iff.mp he).2
      have h₂ := (Direction.offset_eq_some_iff.mp hjc).2
      omega
    exact ⟨e, hce, by rwa [Function.update_of_ne hne] at heo⟩
  · rintro ⟨j, hj, h⟩
    have hstart : ∃ start : Cell, start.offset d.step j = some c := by
      rcases Nat.eq_zero_or_pos j with rfl | hpos
      · exact ⟨c, by simp⟩
      · obtain ⟨start, hs, -⟩ := h 0 (by omega) (by omega)
        refine ⟨start, ?_⟩
        simpa using Cell.offset_symm hs
    obtain ⟨start, hs⟩ := hstart
    refine ⟨start, fun i hi => ?_, j, hj, hs⟩
    by_cases hij : i = j
    · subst hij
      exact ⟨c, hs, Function.update_self ..⟩
    · obtain ⟨e, he, heo⟩ := h i hi hij
      have hne : e ≠ c := by
        rintro rfl
        rw [ho] at heo
        cases heo
      refine ⟨e, ?_, by rwa [Function.update_of_ne hne]⟩
      rw [← he, Cell.offset_offset hs]
      congr 1
      ring

/-- **A stone makes five exactly on the cells that complete five**, when there was no five
before. -/
lemma hasFive_update_iff (ho : o c = none) (hno : ¬ HasFive o color) :
    HasFive (Function.update o c (some color)) color ↔ ∃ d, ∃ j < 5, Completes o color c d j := by
  rw [hasFive_iff_row]
  constructor
  · rintro ⟨start, d, hrow⟩
    refine ⟨d, (row_update_iff ho).mp ⟨start, hrow, ?_⟩⟩
    by_contra hc
    simp only [not_exists, not_and] at hc
    exact hno (hasFive_iff_row.mpr ⟨start, d, hrow.of_update hc⟩)
  · rintro ⟨d, h⟩
    obtain ⟨start, hrow, -⟩ := (row_update_iff ho).mpr h
    exact ⟨start, d, hrow⟩

/-! ### Windows -/

/-- What a colour sees from a cell along a direction, read off the cells: its own stones, and the
enemy's stones together with what is off the board. -/
def Window.ofCells (o : Cell → Option Color) (c : Cell) (color : Color) (d : Direction) :
    Window where
  own := ⟨Nat.ofBits fun i : Fin 9 =>
    (c.offset d.step ((i : ℤ) - 4)).any fun e => o e = some color, Nat.ofBits_lt_two_pow _⟩
  blocked := ⟨Nat.ofBits fun i : Fin 9 =>
    (c.offset d.step ((i : ℤ) - 4)).all fun e => o e = some color.other, Nat.ofBits_lt_two_pow _⟩

namespace Stones

/-- The words of the lines hold the stones of the cells and nothing else. -/
def Mirrored (s : Stones) : Prop :=
  ∀ (color : Color) (d : Direction) (l : Fin 37) (k : ℕ),
    (s.line color d l).testBit k = true ↔ ∃ e, d.line e = l ∧ d.bit e = k ∧ s.get e = some color

lemma mirrored_empty : empty.Mirrored := by
  intro color d l k
  simp [empty, line, get, LineTable.word_empty]

lemma get_empty (e : Cell) : empty.get e = none := by
  simp [empty, get]

lemma isEmpty_iff {s : Stones} {e : Cell} : s.isEmpty e = true ↔ s.get e = none := by
  simp [isEmpty]

lemma line_put (s : Stones) (c : Cell) (color other : Color) (d : Direction) (l : Fin 37) :
    (s.put c color).line other d l =
      if other = color ∧ l = d.line c then s.line other d l ||| 1 <<< d.bit c
      else s.line other d l := by
  simp only [line, put, ByColor.get_modify]
  by_cases ho : other = color
  · simp [ho, LineTable.word_mark]
  · simp [ho]

/-- A stone on an empty cell keeps words and cells together. -/
lemma Mirrored.put {s : Stones} (h : s.Mirrored) (hc : s.get c = none) (color : Color) :
    (s.put c color).Mirrored := by
  intro other d l k
  have hother : (∃ e, d.line e = l ∧ d.bit e = k ∧ (s.put c color).get e = some other) ↔
      (∃ e, d.line e = l ∧ d.bit e = k ∧ s.get e = some other) ∨
        (other = color ∧ l = d.line c ∧ k = d.bit c) := by
    constructor
    · rintro ⟨e, hl, hk, he⟩
      rw [get_put] at he
      split_ifs at he with hec
      · subst hec
        exact .inr ⟨(Option.some.inj he).symm, hl.symm, hk.symm⟩
      · exact .inl ⟨e, hl, hk, he⟩
    · rintro (⟨e, hl, hk, he⟩ | ⟨rfl, rfl, rfl⟩)
      · refine ⟨e, hl, hk, ?_⟩
        rw [get_put, if_neg, he]
        rintro rfl
        rw [hc] at he
        cases he
      · exact ⟨c, rfl, rfl, by rw [get_put, if_pos rfl]⟩
  rw [hother, line_put, ← h other d l k]
  split_ifs with hcase
  · rw [Nat.testBit_or, Bool.or_eq_true, Nat.one_shiftLeft, Nat.testBit_two_pow,
      decide_eq_true_eq]
    tauto
  · tauto

variable {s : Stones}

/-- The bits of the line through a cell are the cells that walks along it end on. -/
lemma Mirrored.testBit_line (h : s.Mirrored) {n : ℤ} {k : ℕ} (hk : (k : ℤ) = d.bit c + n) :
    (s.line color d (d.line c)).testBit k =
      (c.offset d.step n).any fun e => s.get e = some color := by
  rw [Bool.eq_iff_iff, h color d (d.line c) k, Option.any_eq_true]
  constructor
  · rintro ⟨e, hl, hb, he⟩
    exact ⟨e, Direction.offset_eq_some_iff.mpr ⟨hl, by omega⟩, by simpa using he⟩
  · rintro ⟨e, hoff, he⟩
    obtain ⟨hl, hb⟩ := Direction.offset_eq_some_iff.mp hoff
    exact ⟨e, hl, by omega, by simpa using he⟩

/-- A row is a run of bits in the word of its line. -/
lemma Mirrored.row_iff (h : s.Mirrored) {start : Cell} {n : ℕ} :
    Row s.get color start d n ↔
      ∀ j < n, (s.line color d (d.line start)).testBit (d.bit start + j) = true := by
  refine forall_congr' fun j => forall_congr' fun _ => ?_
  rw [h.testBit_line (n := j) (by push_cast; ring), Option.any_eq_true]
  simp

/-- **The words find the rows of five**: the longest run of a line has five bits if and only if
there is a row of five on the line. -/
lemma Mirrored.hasFive_iff (h : s.Mirrored) :
    s.hasFive c color = true ↔
      ∃ start d, d.line start = d.line c ∧ Row s.get color start d 5 := by
  have hline : ∀ d : Direction, 5 ≤ longestRun (s.line color d (d.line c)) ↔
      ∃ start, d.line start = d.line c ∧ Row s.get color start d 5 := by
    intro d
    rw [show 5 = 4 + 1 from rfl, Nat.succ_le_iff, lt_longestRun_iff]
    constructor
    · rintro ⟨i, hi⟩
      obtain ⟨start, hl, hb, -⟩ := (h color d (d.line c) i).mp (hi 0 (by omega))
      refine ⟨start, hl, h.row_iff.mpr fun j hj => ?_⟩
      rw [hl, hb]
      exact hi j hj
    · rintro ⟨start, hl, hrow⟩
      refine ⟨d.bit start, fun j hj => ?_⟩
      rw [← hl]
      exact h.row_iff.mp hrow j hj
  rw [hasFive, List.any_eq_true]
  constructor
  · rintro ⟨d, -, hd⟩
    obtain ⟨start, hs⟩ := (hline d).mp (by simpa using hd)
    exact ⟨start, d, hs⟩
  · rintro ⟨start, d, hs⟩
    exact ⟨d, Direction.mem_all d, by simpa using (hline d).mpr ⟨start, hs⟩⟩

/-- What `color` sees from a cell along one direction, as a window. -/
def window (s : Stones) (c : Cell) (color : Color) (d : Direction) : Window :=
  let l := d.line c
  Window.around (s.line color d l) (s.line color.other d l) (LineTable.board.word d l) (d.bit c)

/-- The words of the lines show the pattern of the window. -/
lemma strongest?_eq_window (s : Stones) (c : Cell) (color : Color) (d : Direction) :
    s.strongest? c color d = (s.window c color d).strongest? := by
  have hbit := d.bit_lt c
  rw [strongest?, view, LineView.strongest?_ofWords_eq_window _ _ _ (by omega), window,
    Window.around, Window.around, Window.slice_ofNat _ (by omega), Window.slice_ofNat _ (by omega),
    Window.slice_ofNat _ (by omega)]

/-- A word of the line and the walks from the cell agree within reach of the window. -/
lemma testBit_walk {c : Cell} {d : Direction} {w : ℕ} {p : Option Cell → Bool}
    (hp : p none = false)
    (hw : ∀ (n : ℤ) (k : ℕ), (k : ℤ) = d.bit c + n → w.testBit k = p (c.offset d.step n)) (i : ℕ) :
    (decide (4 ≤ d.bit c + i) && w.testBit (d.bit c + i - 4)) =
      p (c.offset d.step ((i : ℤ) - 4)) := by
  by_cases h4 : 4 ≤ d.bit c + i
  · rw [decide_eq_true h4, Bool.true_and]
    exact hw _ _ (by omega)
  · have hnone : c.offset d.step ((i : ℤ) - 4) = none := by
      rw [Option.eq_none_iff_forall_not_mem]
      intro e he
      have := (Direction.offset_eq_some_iff.mp he).2
      omega
    rw [decide_eq_false h4, hnone, hp, Bool.false_and]

/-- **The words show the right window**: it is the one that the cells give. -/
lemma Mirrored.window_eq (h : s.Mirrored) (c : Cell) (color : Color) (d : Direction) :
    s.window c color d = Window.ofCells s.get c color d := by
  have hboard : ∀ (n : ℤ) (k : ℕ), (k : ℤ) = d.bit c + n →
      (LineTable.board.word d (d.line c)).testBit k = (c.offset d.step n).isSome := by
    intro n k hk
    rw [LineTable.word_board, Bool.eq_iff_iff, Direction.testBit_lineMask_line d c n k hk,
      Option.isSome_iff_ne_none]
  refine Window.eq_of_testBit (fun i hi => ?_) fun i hi => ?_
  · rw [window, Window.ofCells, Window.testBit_own_around _ _ _ _ hi,
      Nat.testBit_ofBits_lt _ _ hi]
    exact testBit_walk (p := (·.any fun e => s.get e = some color)) rfl
      (fun n k hk => h.testBit_line hk) i
  · rw [window, Window.ofCells, Window.testBit_blocked_around _ _ _ _ hi,
      Nat.testBit_ofBits_lt _ _ hi, testBit_walk rfl hboard i,
      testBit_walk (p := (·.any fun e => s.get e = some color.other)) rfl
        (fun n k hk => h.testBit_line hk) i]
    cases c.offset d.step ((i : ℤ) - 4) <;> simp

end Stones

end FiveInRow
