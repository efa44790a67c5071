import Mathlib.Tactic
import FiveInRow.Proofs.Board.Outcome

/-!
Where the stones are. A board keeps them by cell, in one word on each of the four lines through a
cell, and as a history, and all of these say the same.

* `Board.Recorded`: the history holds the stones of the cells, each cell once;
* `Board.Played.recorded`: accepted moves keep it so;
* `Stones.Mirrored.testBit_line_bit`: a word is read at the bit of a cell;
* `Board.occupancy_exact`: the cells, the words and the history of every board that calls lead to.
-/

namespace FiveInRow

namespace Direction

/-- A cell is where its line and its bit say. -/
lemma eq_of_line_bit {d : Direction} {a e : Cell} (hl : d.line e = d.line a)
    (hb : d.bit e = d.bit a) : e = a := by
  have hoff : a.offset d.step 0 = some e := offset_eq_some_iff.mpr ⟨hl, by omega⟩
  rw [Cell.offset_zero] at hoff
  exact (Option.some.inj hoff).symm

/-- The bit of a cell is a bit of its line. -/
lemma testBit_lineMask_bit (d : Direction) (a : Cell) :
    (d.lineMask (d.line a)).testBit (d.bit a) = true := by
  rw [testBit_lineMask_line d a 0 _ (by omega), Cell.offset_zero]
  exact Option.some_ne_none a

end Direction

/-- The word of a line holds a colour at the bit of a cell if the cell does. -/
lemma Stones.Mirrored.testBit_line_bit {s : Stones} (h : s.Mirrored) {color : Color}
    {d : Direction} {p : Cell} :
    (s.line color d (d.line p)).testBit (d.bit p) = true ↔ s.get p = some color := by
  rw [h]
  constructor
  · rintro ⟨e, hl, hb, he⟩
    rwa [← Direction.eq_of_line_bit hl hb]
  · exact fun hp => ⟨p, rfl, rfl, hp⟩

namespace Board

variable {b : Board} {c : Cell}

/-- The history holds the stones of the cells, each cell once. -/
structure Recorded (b : Board) : Prop where
  mem_iff : ∀ p color, ⟨p, color⟩ ∈ b.moves ↔ b.get p = some color
  distinct : (b.moves.map Move.cell).Nodup

lemma recorded_empty : Recorded empty where
  mem_iff p color := by
    have hget : empty.get p = none := Stones.get_empty p
    have hmoves : empty.moves = [] := rfl
    rw [hget, hmoves]
    exact iff_of_false List.not_mem_nil nofun
  distinct := List.nodup_nil

/-- A cell was played if it holds a stone. -/
lemma Recorded.mem_cells_iff (h : Recorded b) {p : Cell} :
    p ∈ b.moves.map Move.cell ↔ b.get p ≠ none := by
  rw [List.mem_map, Option.ne_none_iff_exists']
  constructor
  · rintro ⟨⟨q, color⟩, hm, rfl⟩
    exact ⟨color, (h.mem_iff q color).mp hm⟩
  · rintro ⟨color, hp⟩
    exact ⟨⟨p, color⟩, (h.mem_iff p color).mpr hp, rfl⟩

/-- **An accepted move is recorded.** -/
lemma Recorded.place (h : Recorded b) (ha : b.accepts c = true) (color : Color) :
    Recorded (b.place c color) := by
  obtain ⟨-, hc⟩ := accepts_iff.mp ha
  have hnew : c ∉ b.moves.map Move.cell := fun hm => h.mem_cells_iff.mp hm hc
  refine ⟨fun p side => ?_, ?_⟩
  · rw [moves_place, List.mem_cons, Move.mk.injEq, get_place, h.mem_iff]
    by_cases hp : p = c
    · subst hp
      rw [Function.update_self, hc, Option.some.injEq, eq_comm (a := side)]
      simp
    · rw [Function.update_of_ne hp]
      simp [hp]
  · rw [moves_place, List.map_cons, List.nodup_cons]
    exact ⟨hnew, h.distinct⟩

/-- **Every played board is recorded.** -/
lemma Played.recorded (h : Played b) : Recorded b := by
  induction h with
  | new => exact recorded_empty
  | place color _ ha ih => exact ih.place ha color

/-- There are as many moves as stones. -/
lemma Recorded.stoneCount_eq (h : Recorded b) :
    b.stoneCount = (Cell.all.filter fun p => !b.isEmptyAt p).length := by
  have hperm : (b.moves.map Move.cell).Perm (Cell.all.filter fun p => !b.isEmptyAt p) := by
    rw [List.perm_ext_iff_of_nodup h.distinct (Cell.nodup_all.filter _)]
    intro p
    have hempty : b.isEmptyAt p = true ↔ b.get p = none := Stones.isEmpty_iff
    rw [h.mem_cells_iff, List.mem_filter, Bool.not_eq_true', ← Bool.not_eq_true, hempty]
    exact (and_iff_right (Cell.mem_all p)).symm
  rw [stoneCount, ← hperm.length_eq, List.length_map]

/-- **Cells, words and history agree**, on every board that calls lead to. A bit on a line through a
cell is set for a colour exactly if the cell holds that colour, and exactly if the history has the
move. No word has a bit off the board or one that is no cell of its line, and no bit is set for both
colours. The history visits no cell twice, and it is as long as there are stones, which is at most
the number of cells. -/
theorem occupancy_exact (h : Reachable b) :
    (∀ color d p,
      ((b.stones.line color d (d.line p)).testBit (d.bit p) = true ↔ b.get p = some color) ∧
        (b.get p = some color ↔ ⟨p, color⟩ ∈ b.history)) ∧
    (∀ color d l k, (b.stones.line color d l).testBit k = true →
      (d.lineMask l).testBit k = true ∧ ∃ p, d.line p = l ∧ d.bit p = k) ∧
    (∀ d l k, ¬ ((b.stones.line .black d l).testBit k = true ∧
      (b.stones.line .white d l).testBit k = true)) ∧
    (b.history.map Move.cell).Nodup ∧
    b.stoneCount = (Cell.all.filter fun p => !b.isEmptyAt p).length ∧ b.stoneCount ≤ 361 := by
  have hrecorded := h.played.recorded
  have hmirrored := h.played.judged.mirrored
  refine ⟨fun color d p => ⟨hmirrored.testBit_line_bit, ?_⟩, fun color d l k hk => ?_,
    fun d l k hboth => ?_, ?_, hrecorded.stoneCount_eq, ?_⟩
  · rw [history, List.mem_reverse, hrecorded.mem_iff]
  · obtain ⟨p, rfl, rfl, -⟩ := (hmirrored color d l k).mp hk
    exact ⟨d.testBit_lineMask_bit p, p, rfl, rfl⟩
  · obtain ⟨hblack, hwhite⟩ := hboth
    obtain ⟨p, rfl, rfl, hp⟩ := (hmirrored .black d l k).mp hblack
    rw [hmirrored.testBit_line_bit, hp] at hwhite
    cases hwhite
  · rw [history, List.map_reverse, List.nodup_reverse]
    exact hrecorded.distinct
  · have hroom := h.played.judged.room
    rw [stoneCount]
    omega

/-- Black has won along the first row: its word there has the lowest five bits, which are the five
cells of the row and black's moves in the history, and nine cells are taken. -/
theorem occupancy_exact_rowGame :
    ∃ b, b = rowGame.foldl after empty ∧ b.stones.line .black .horizontal 0 = 31 ∧
      (∀ p, p.y = 0 →
        ((31 : ℕ).testBit p.x = true ↔ ⟨p, .black⟩ ∈ b.history)) ∧
      (b.history.map Move.cell).Nodup ∧
      (Cell.all.filter fun p => !b.isEmptyAt p).length = 9 := by
  have hr : Reachable (rowGame.foldl after empty) := Reachable.new.calls rowGame
  have hword : (rowGame.foldl after empty).stones.line .black .horizontal 0 = 31 := by
    decide +kernel
  have hstones : (rowGame.foldl after empty).stoneCount = 9 := by decide +kernel
  obtain ⟨hbits, -, -, hdistinct, hcount, -⟩ := occupancy_exact hr
  refine ⟨_, rfl, hword, fun p hp => ?_, hdistinct, by rw [← hcount, hstones]⟩
  obtain ⟨hbit, hmove⟩ := hbits .black .horizontal p
  have hline : Direction.horizontal.line p = 0 := Fin.ext hp
  rw [← hmove, ← hbit, hline, hword]
  rfl

end Board

end FiveInRow
