import Mathlib.Tactic
import FiveInRow.Proofs.Board.Reachable
import FiveInRow.Proofs.Board.Stones

/-!
The result of a game is what the stones say. A move only looks at the four lines through its cell,
which is enough because there was no five anywhere before.

* `Board.Judged`: the invariant: the words mirror the cells, every stone is in the history, and the
  status names the colour with five in a row, or a full board without one;
* `Board.Played.judged`: every played board is judged;
* `Board.outcome_exact`: the result on every board that calls lead to, and that it is final.
-/

namespace FiveInRow

lemma Stones.room_eq_zero_iff {s : Stones} : s.room = 0 ↔ ∀ p, s.get p ≠ none := by
  rw [room, Vector.count_eq_zero, Vector.mem_iff_getElem]
  constructor
  · intro h p hp
    exact h ⟨p.index, p.index.isLt, hp⟩
  · rintro h ⟨i, hi, hp⟩
    exact h ⟨⟨i, hi⟩⟩ hp

lemma Stones.room_empty : empty.room = 361 := by
  have hcells : empty.cells = Vector.replicate 361 none := rfl
  rw [room, hcells, Vector.count_replicate_self]

namespace Board

variable {b : Board} {c : Cell} {color : Color}

/-- The status of a board is the one that its stones call for. -/
structure Judged (b : Board) : Prop where
  mirrored : b.stones.Mirrored
  room : b.moves.length + b.room = 361
  win_iff : ∀ color, b.status = .win color ↔ HasFive b.get color
  draw_iff : b.status = .draw ↔ (∀ p, b.get p ≠ none) ∧ ∀ color, ¬ HasFive b.get color

lemma not_hasFive_empty (color : Color) : ¬ HasFive empty.get color := by
  rintro ⟨start, d, n, hn, h⟩
  obtain ⟨e, -, he⟩ := h 0 (by omega)
  rw [show empty.get e = none from Stones.get_empty e] at he
  cases he

lemma judged_empty : Judged empty where
  mirrored := Stones.mirrored_empty
  room := by
    have hroom : empty.room = 361 := Stones.room_empty
    have hmoves : empty.moves = [] := rfl
    rw [hroom, hmoves, List.length_nil]
  win_iff color := ⟨nofun, fun h => absurd h (not_hasFive_empty color)⟩
  draw_iff := ⟨nofun, fun h => absurd (Stones.get_empty Cell.center) (h.1 Cell.center)⟩

/-- While the game runs nobody has five in a row. -/
lemma Judged.not_hasFive (h : Judged b) (hs : b.status = .inProgress) (color : Color) :
    ¬ HasFive b.get color := by
  rw [← h.win_iff color, hs]
  exact nofun

/-- The new stone decides the game exactly if somewhere there is a five of its colour. -/
lemma Judged.hasFive_put (h : Judged b) (ha : b.accepts c = true) :
    (b.stones.put c color).hasFive c color = true ↔ HasFive (b.place c color).get color := by
  obtain ⟨hs, hc⟩ := accepts_iff.mp ha
  rw [(h.mirrored.put hc color).hasFive_iff, get_put_stones]
  constructor
  · rintro ⟨start, d, -, hrow⟩
    exact hasFive_iff_row.mpr ⟨start, d, hrow⟩
  · intro hfive
    rw [get_place] at hfive ⊢
    obtain ⟨d, hd⟩ := (hasFive_update_iff hc (h.not_hasFive hs color)).mp hfive
    obtain ⟨start, hrow, j, -, hj⟩ := (row_update_iff hc).mpr hd
    exact ⟨start, d, (Direction.offset_eq_some_iff.mp hj).1.symm, hrow⟩

/-- **An accepted move keeps the status right.** -/
lemma Judged.place (h : Judged b) (ha : b.accepts c = true) (color : Color) :
    Judged (b.place c color) := by
  obtain ⟨hs, hc⟩ := accepts_iff.mp ha
  have hmirror : (b.place c color).stones.Mirrored := by
    rw [stones_place]
    exact h.mirrored.put hc color
  have hroom : (b.place c color).moves.length + (b.place c color).room = 361 := by
    have hput := Stones.room_put (Stones.isEmpty_iff.mpr hc) color
    have hb := h.room
    rw [Board.room] at hb
    rw [moves_place, List.length_cons, Board.room, stones_place]
    omega
  -- the colour that did not move has no five
  have hother : ∀ other, other ≠ color → ¬ HasFive (b.place c color).get other := by
    intro other hne hfive
    rw [get_place] at hfive
    exact h.not_hasFive hs other (hasFive_update_other hc hne hfive)
  have hfull : b.moves.length + 1 = 361 ↔ ∀ p, (b.place c color).get p ≠ none := by
    have hzero : (b.place c color).room = 0 ↔ ∀ p, (b.place c color).get p ≠ none :=
      Stones.room_eq_zero_iff
    rw [moves_place, List.length_cons] at hroom
    rw [← hzero]
    omega
  have hstatus := status_place b c color
  rw [hs] at hstatus
  by_cases hfive : (b.stones.put c color).hasFive c color = true
  · rw [if_pos hfive] at hstatus
    have hhas := (h.hasFive_put ha).mp hfive
    refine ⟨hmirror, hroom, fun other => ?_, ?_⟩
    · rw [hstatus, Status.win.injEq]
      constructor
      · rintro rfl
        exact hhas
      · intro ho
        by_contra hne
        exact hother other (Ne.symm hne) ho
    · rw [hstatus]
      refine ⟨fun hd => ?_, fun hd => absurd hhas (hd.2 color)⟩
      cases hd
  · rw [if_neg hfive] at hstatus
    have hnone : ∀ other, ¬ HasFive (b.place c color).get other := by
      intro other
      by_cases hne : other = color
      · subst hne
        exact fun ho => hfive ((h.hasFive_put ha).mpr ho)
      · exact hother other hne
    refine ⟨hmirror, hroom, fun other => ?_, ?_⟩
    · rw [hstatus]
      refine ⟨fun hw => ?_, fun ho => absurd ho (hnone other)⟩
      split_ifs at hw
    · rw [hstatus, ← hfull]
      split_ifs with hlen
      · exact ⟨fun _ => ⟨hlen, hnone⟩, fun _ => rfl⟩
      · exact ⟨False.elim, fun hd => absurd hd.1 hlen⟩

/-- **Every played board is judged.** -/
lemma Played.judged (h : Played b) : Judged b := by
  induction h with
  | new => exact judged_empty
  | place color _ ha ih => exact ih.place ha color

/-- A judged game runs exactly as long as there is a free cell and no five. -/
lemma Judged.inProgress_iff (h : Judged b) :
    b.status = .inProgress ↔ (∃ p, b.get p = none) ∧ ∀ color, ¬ HasFive b.get color := by
  have hwin := h.win_iff
  have hdraw := h.draw_iff
  cases hs : b.status with
  | inProgress =>
      refine ⟨fun _ => ⟨?_, h.not_hasFive hs⟩, fun _ => rfl⟩
      by_contra hfull
      rw [hdraw.mpr ⟨not_exists.mp hfull, h.not_hasFive hs⟩] at hs
      cases hs
  | draw =>
      refine ⟨nofun, ?_⟩
      rintro ⟨⟨p, hp⟩, -⟩
      exact absurd hp ((hdraw.mp hs).1 p)
  | win color =>
      refine ⟨nofun, ?_⟩
      rintro ⟨-, hno⟩
      exact absurd ((hwin color).mp hs) (hno color)

/-- The result depends on nothing but the rows of five and whether the board is full. -/
lemma Judged.status_congr {b' : Board} (h : Judged b) (h' : Judged b')
    (hfive : ∀ color, HasFive b'.get color ↔ HasFive b.get color)
    (hfull : (∀ p, b'.get p ≠ none) ↔ ∀ p, b.get p ≠ none) : b'.status = b.status := by
  cases hs : b.status with
  | win color => rw [h'.win_iff, hfive, ← h.win_iff, hs]
  | draw =>
      rw [h'.draw_iff, hfull]
      simp only [hfive]
      rw [← h.draw_iff, hs]
  | inProgress =>
      obtain ⟨hroom, hno⟩ := h.inProgress_iff.mp hs
      refine h'.inProgress_iff.mpr ⟨?_, fun color => ?_⟩
      · by_contra hnone
        obtain ⟨p, hp⟩ := hroom
        exact hfull.mp (not_exists.mp hnone) p hp
      · rw [hfive]
        exact hno color

/-- **The result of a game is exact and final.** On every board that calls lead to, the status is a
win of the colour that has five or more in a row, which only one colour can have; a draw if the
board is full without such a row; and in all other cases the game runs. Once it has ended no move
changes the board. -/
theorem outcome_exact (h : Reachable b) :
    (∀ color, b.status = .win color ↔ HasFive b.get color) ∧
    ¬ (HasFive b.get .black ∧ HasFive b.get .white) ∧
    (b.status = .draw ↔ (∀ p, b.get p ≠ none) ∧ ∀ color, ¬ HasFive b.get color) ∧
    (b.status = .inProgress ↔ (∃ p, b.get p = none) ∧ ∀ color, ¬ HasFive b.get color) ∧
    (b.status ≠ .inProgress →
      (∀ x y color, b.after (.move x y color) = b) ∧ ∀ p color, b.after (.play p color) = b) := by
  have hj := h.played.judged
  refine ⟨hj.win_iff, ?_, hj.draw_iff, hj.inProgress_iff, ?_⟩
  · rintro ⟨hb, hw⟩
    rw [← hj.win_iff] at hb hw
    rw [hb] at hw
    cases hw
  · intro hs
    have hrefuse : ∀ p color, (b.attempt p color).2 = b := by
      intro p color
      have hna : b.accepts p = false :=
        Bool.eq_false_iff.mpr fun ha => hs (accepts_iff.mp ha).1
      rw [attempt_of_not_accepts hna]
    refine ⟨fun x y color => ?_, hrefuse⟩
    rcases b.after_move x y color with heq | ⟨p, heq⟩
    · exact heq
    · rw [heq, hrefuse]

/-- Black fills the first row from the left, white the second; black is first to have five. -/
def rowGame : List Call :=
  ([0, 19, 1, 20, 2, 21, 3, 22, 4] : List (Fin 361)).map fun i =>
    .play ⟨i⟩ (some (if i.val < 19 then .black else .white))

/-- The end of the game along two rows is black's win, and the last word on the board. -/
theorem outcome_exact_rowGame :
    ∃ b, b = rowGame.foldl after empty ∧ b.status = .win .black ∧ HasFive b.get .black ∧
      ∀ p color, b.after (.play p color) = b := by
  have hr : Reachable (rowGame.foldl after empty) := Reachable.new.calls rowGame
  have hs : (rowGame.foldl after empty).status = .win .black := by decide +kernel
  obtain ⟨hwin, -, -, -, hfinal⟩ := outcome_exact hr
  refine ⟨_, rfl, hs, (hwin .black).mp hs, (hfinal ?_).2⟩
  rw [hs]
  nofun

end Board

end FiveInRow
