import Mathlib.Tactic
import FiveInRow.Board.Basic

/-!
The boards that a caller can produce. Calls come in any order and with any arguments; what they
produce is no more than what accepted moves alone produce, which is the induction that every
invariant of boards goes through.

* `Board.Call`, `Board.after`, `Board.Reachable`: the calls and the boards they lead to;
* `Board.Played`: the boards that accepted moves lead to;
* `Board.Reachable.played`: undoing and clearing lead to no other boards;
* `Board.replay_history`, `Board.undo?_place`: a played board is the replay of its own history, so
  undoing a move gives back the board before it.
-/

namespace FiveInRow

namespace Board

/-- What a caller can ask of a board. -/
inductive Call
  | move (x y : ℤ) (color : Option Color)
  | play (c : Cell) (color : Option Color)
  | undo
  | clear

/-- The board after a call. A call that fails or is refused leaves the board as it was. -/
def after (b : Board) : Call → Board
  | .move x y color =>
    match b.move x y color with
    | .ok (_, b') => b'
    | .error _ => b
  | .play c color => (b.attempt c color).2
  | .undo => b.undo?.getD b
  | .clear => empty

/-- The boards that calls lead to from a new board. -/
inductive Reachable : Board → Prop
  | new : Reachable empty
  | call {b : Board} (k : Call) (h : Reachable b) : Reachable (b.after k)

/-- The boards that accepted moves lead to from a new board. -/
inductive Played : Board → Prop
  | new : Played empty
  | place {b : Board} {c : Cell} (color : Color) (h : Played b) (ha : b.accepts c = true) :
      Played (b.place c color)

variable {b : Board} {c : Cell}

lemma accepts_iff : b.accepts c = true ↔ b.status = .inProgress ∧ b.get c = none := by
  rw [accepts, isOver, isEmptyAt, get, Stones.isEmpty]
  cases b.status <;> simp [Status.isOver]

lemma isOver_eq_false_iff : b.isOver = false ↔ b.status = .inProgress := by
  rw [isOver]
  cases b.status <;> simp [Status.isOver]

/-- A move that is attempted is refused or placed. -/
lemma attempt_eq (b : Board) (c : Cell) (color : Color) :
    b.attempt c (some color) = if b.accepts c then (true, b.place c color) else (false, b) := rfl

/-- A move that is not accepted changes nothing. -/
lemma attempt_of_not_accepts (h : b.accepts c = false) (color : Option Color) :
    b.attempt c color = (false, b) := by
  cases color with
  | none => rfl
  | some color => rw [attempt_eq, h, if_neg Bool.false_ne_true]

/-- A call that asks for a move attempts one or leaves the board alone. -/
lemma after_move (b : Board) (x y : ℤ) (color : Option Color) :
    b.after (.move x y color) = b ∨ ∃ c, b.after (.move x y color) = (b.attempt c color).2 := by
  rw [after, move]
  cases Cell.ofCoordinates x y with
  | error e => exact .inl rfl
  | ok c =>
      dsimp only
      split_ifs
      · exact .inl rfl
      · exact .inr ⟨c, rfl⟩

lemma Played.attempt (h : Played b) (c : Cell) (color : Option Color) :
    Played (b.attempt c color).2 := by
  cases color with
  | none => exact h
  | some color =>
      rw [attempt_eq]
      split_ifs with ha
      · exact h.place color ha
      · exact h

lemma Played.playAll (h : Played b) (moves : List Move) : Played (b.playAll moves) := by
  induction moves generalizing b with
  | nil => exact h
  | cons m moves ih =>
      have hs : Played (if b.accepts m.cell then b.place m.cell m.color else b) := by
        split_ifs with ha
        · exact h.place m.color ha
        · exact h
      exact ih hs

lemma Played.undo? (h : Played b) : Played (b.undo?.getD b) := by
  rw [Board.undo?]
  cases b.moves with
  | nil => exact h
  | cons m earlier => exact Played.new.playAll _

lemma Reachable.calls (h : Reachable b) (ks : List Call) : Reachable (ks.foldl after b) := by
  induction ks generalizing b with
  | nil => exact h
  | cons k ks ih => exact ih (h.call k)

/-- **Undoing and clearing lead to no new boards**: what calls lead to, accepted moves lead to. -/
theorem Reachable.played (h : Reachable b) : Played b := by
  induction h with
  | new => exact .new
  | @call b k _ ih =>
      cases k with
      | move x y color =>
          rcases b.after_move x y color with heq | ⟨c, heq⟩
          · rw [heq]
            exact ih
          · rw [heq]
            exact ih.attempt c color
      | play c color => exact ih.attempt c color
      | undo => exact ih.undo?
      | clear => exact .new

lemma Played.reachable (h : Played b) : Reachable b := by
  induction h with
  | new => exact .new
  | @place b c color _ ha ih =>
      have := ih.call (.play c (some color))
      rwa [after, attempt_eq, if_pos ha] at this

/-! ### What a move changes -/

lemma get_place (b : Board) (c : Cell) (color : Color) :
    (b.place c color).get = Function.update b.get c (some color) := by
  funext e
  rw [get, stones_place, Stones.get_put, Function.update_apply]
  rfl

lemma get_put_stones (b : Board) (c : Cell) (color : Color) :
    (b.stones.put c color).get = (b.place c color).get := by
  funext e
  rw [get, stones_place]

lemma moves_place (b : Board) (c : Cell) (color : Color) :
    (b.place c color).moves = ⟨c, color⟩ :: b.moves := by
  rw [place]
  split_ifs <;> rfl

lemma last?_place (b : Board) (c : Cell) (color : Color) :
    (b.place c color).last? = some ⟨c, color⟩ := by
  rw [last?, moves_place]
  rfl

/-- A move decides the game by a five through its cell, ends it by filling the board, or leaves it
running. -/
lemma status_place (b : Board) (c : Cell) (color : Color) :
    (b.place c color).status =
      if (b.stones.put c color).hasFive c color then .win color
      else if b.moves.length + 1 = 361 then .draw
      else b.status := by
  rw [place]
  simp only [List.length_cons]
  split_ifs <;> rfl

/-! ### Histories -/

lemma history_place (b : Board) (c : Cell) (color : Color) :
    (b.place c color).history = b.history ++ [⟨c, color⟩] := by
  rw [history, moves_place, List.reverse_cons]
  rfl

/-- **A played board is the replay of its own history.** -/
lemma Played.replay_history (h : Played b) : replay b.history = b := by
  induction h with
  | new => rfl
  | @place b c color _ ha ih =>
      rw [history_place, replay, Board.playAll, List.foldl_append]
      change List.foldl _ (replay b.history) _ = _
      rw [ih, List.foldl_cons, List.foldl_nil, if_pos ha]

/-- **Undoing a move gives back the board before it.** -/
lemma Played.undo?_place (h : Played b) (c : Cell) (color : Color) :
    (b.place c color).undo? = some b := by
  rw [Board.undo?, moves_place]
  exact congrArg some h.replay_history

/-- What undoing gives back is the board before the last move. -/
lemma Played.of_undo? {b' : Board} (h : Played b) (hundo : b.undo? = some b') :
    ∃ c color, Played b' ∧ b'.accepts c = true ∧ b = b'.place c color := by
  cases h with
  | new => cases hundo
  | @place before c color hb ha =>
      rw [hb.undo?_place] at hundo
      obtain rfl := Option.some.inj hundo
      exact ⟨c, color, hb, ha, rfl⟩

end Board

end FiveInRow
