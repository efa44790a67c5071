import Mathlib.Tactic
import FiveInRow.Proofs.Board.Outcome

/-!
A board is what its history makes of a new board, down to the order of the entries in its caches.
A replay runs through the very boards of the game, so it refuses no move, and taking back a move
undoes it exactly.

* `Board.acceptsAll`: whether moves are accepted one after another;
* `Board.undoTimes?`: take back several moves;
* `Board.Played.acceptsAll_history`: the replay of a history refuses no move;
* `Board.Played.replay_map`: a second game that renames the moves of the first, step by step;
* `Board.Played.undoTimes?_playAll`: as many moves taken back as were made;
* `Board.canonical`: the boards that calls lead to.
-/

namespace FiveInRow

namespace Board

variable {b : Board} {c : Cell}

/-- Whether moves are accepted one after another. -/
def acceptsAll (b : Board) : List Move → Bool
  | [] => true
  | m :: rest => b.accepts m.cell && (b.place m.cell m.color).acceptsAll rest

/-- Take back a number of moves, if there are as many. -/
def undoTimes? (b : Board) : ℕ → Option Board
  | 0 => some b
  | n + 1 => (b.undoTimes? n).bind undo?

/-- A move that is accepted is played. -/
lemma playAll_cons {m : Move} (h : b.accepts m.cell = true) (moves : List Move) :
    b.playAll (m :: moves) = (b.place m.cell m.color).playAll moves := by
  rw [playAll, List.foldl_cons, if_pos h]
  rfl

lemma acceptsAll_cons_iff {m : Move} {moves : List Move} :
    b.acceptsAll (m :: moves) = true ↔
      b.accepts m.cell = true ∧ (b.place m.cell m.color).acceptsAll moves = true := by
  rw [acceptsAll, Bool.and_eq_true]

/-- One more move is accepted where the moves before it lead. -/
lemma acceptsAll_append {moves : List Move} {m : Move} (h : b.acceptsAll moves = true)
    (hm : (b.playAll moves).accepts m.cell = true) : b.acceptsAll (moves ++ [m]) = true := by
  induction moves generalizing b with
  | nil => exact acceptsAll_cons_iff.mpr ⟨hm, rfl⟩
  | cons first moves ih =>
      obtain ⟨hfirst, hrest⟩ := acceptsAll_cons_iff.mp h
      rw [playAll_cons hfirst] at hm
      exact acceptsAll_cons_iff.mpr ⟨hfirst, ih hrest hm⟩

/-- Moves that are accepted are the end of the history. -/
lemma history_playAll {moves : List Move} (h : b.acceptsAll moves = true) :
    (b.playAll moves).history = b.history ++ moves := by
  induction moves generalizing b with
  | nil => exact (List.append_nil _).symm
  | cons m moves ih =>
      obtain ⟨ha, hrest⟩ := acceptsAll_cons_iff.mp h
      rw [playAll_cons ha, ih hrest, history_place, List.append_assoc, List.singleton_append]

/-- **Two games side by side**: a relation of boards that one more move keeps, when the other game
makes the move `f` has for it, holds at the end of the game that makes the moves of the history
so, and that game refuses none of them. -/
lemma Played.replay_map (h : Played b) {f : Move → Move} {R : Board → Board → Prop}
    (hnew : R empty empty)
    (hstep : ∀ {b b' : Board} (m : Move), Played b → Played b' → R b b' →
      b.accepts m.cell = true → b'.accepts (f m).cell = true ∧
        R (b.place m.cell m.color) (b'.place (f m).cell (f m).color)) :
    empty.acceptsAll (b.history.map f) = true ∧ R b (replay (b.history.map f)) := by
  induction h with
  | new => exact ⟨rfl, hnew⟩
  | @place b c color hb ha ih =>
      obtain ⟨hall, hR⟩ := ih
      have hplayed : Played (replay (b.history.map f)) := Played.new.playAll _
      obtain ⟨haccept, hnext⟩ := hstep ⟨c, color⟩ hb hplayed hR ha
      have hreplay : replay (b.history.map f ++ [f ⟨c, color⟩]) =
          (replay (b.history.map f)).place (f ⟨c, color⟩).cell (f ⟨c, color⟩).color := by
        rw [replay, Board.playAll, List.foldl_append]
        exact if_pos haccept
      rw [history_place, List.map_append, List.map_singleton, hreplay]
      exact ⟨acceptsAll_append hall haccept, hnext⟩

/-- **The replay of a history refuses no move**: it runs through the boards of the game. -/
lemma Played.acceptsAll_history (h : Played b) : empty.acceptsAll b.history = true := by
  induction h with
  | new => rfl
  | @place b c color hb ha ih =>
      have hlast : (empty.playAll b.history).accepts c = true := by
        have hreplay : empty.playAll b.history = b := hb.replay_history
        rw [hreplay, ha]
      rw [history_place]
      exact acceptsAll_append ih hlast

/-- **As many moves taken back as were made** lead back to where they started. -/
lemma Played.undoTimes?_playAll (h : Played b) {moves : List Move}
    (hm : b.acceptsAll moves = true) : (b.playAll moves).undoTimes? moves.length = some b := by
  induction moves generalizing b with
  | nil => rfl
  | cons m moves ih =>
      obtain ⟨ha, hrest⟩ := acceptsAll_cons_iff.mp hm
      rw [playAll_cons ha, List.length_cons, undoTimes?, ih (h.place m.color ha) hrest,
        Option.bind_some]
      exact h.undo?_place m.cell m.color

lemma Played.undo?_attempt (h : Played b) {color : Option Color}
    (ha : (b.attempt c color).1 = true) : (b.attempt c color).2.undo? = some b := by
  cases color with
  | none => cases ha
  | some color =>
      rw [attempt_eq] at ha ⊢
      split_ifs at ha ⊢ with hc
      exact h.undo?_place c color

lemma Played.undo?_move (h : Played b) {x y : ℤ} {color : Option Color} {b' : Board}
    (hm : b.move x y color = .ok (true, b')) : b'.undo? = some b := by
  rw [move] at hm
  cases hc : Cell.ofCoordinates x y with
  | error e =>
      rw [hc] at hm
      cases hm
  | ok c =>
      rw [hc] at hm
      dsimp only at hm
      split_ifs at hm
      have hattempt : b.attempt c color = (true, b') := Except.ok.inj hm
      have hundo : (b.attempt c color).2.undo? = some b := h.undo?_attempt (by rw [hattempt])
      rwa [hattempt] at hundo

lemma undo?_eq_none_iff : b.undo? = none ↔ b.history = [] := by
  rw [undo?, history, List.reverse_eq_nil_iff]
  cases b.moves <;> simp

/-- **A board is what its history makes of a new board**, on every board that calls lead to. The
replay of the history accepts every move and gives the same board, with all its caches. So taking
back an accepted move gives back the board before it, whatever the move did, and so do several
moves that are taken back one after another. Nothing can be taken back exactly if there is no
history, and then nothing changes. -/
theorem canonical (h : Reachable b) :
    (empty.acceptsAll b.history = true ∧ replay b.history = b) ∧
    (∀ c color, (b.attempt c color).1 = true → (b.attempt c color).2.undo? = some b) ∧
    (∀ x y color b', b.move x y color = .ok (true, b') → b'.undo? = some b) ∧
    (∀ moves, b.acceptsAll moves = true →
      (b.playAll moves).undoTimes? moves.length = some b) ∧
    (b.undo? = none ↔ b.history = []) ∧
    (b.history = [] → b.after .undo = b) := by
  have hp := h.played
  refine ⟨⟨hp.acceptsAll_history, hp.replay_history⟩, fun c color => hp.undo?_attempt,
    fun x y color b' => hp.undo?_move, fun moves => hp.undoTimes?_playAll, undo?_eq_none_iff,
    fun hnil => ?_⟩
  rw [after, undo?_eq_none_iff.mpr hnil, Option.getD_none]

/-- Black's winning move is taken back: what is left is the board before it, with its history of
eight moves. -/
theorem canonical_rowGame :
    ∃ b won, b = (rowGame.take 8).foldl after empty ∧ b.attempt ⟨4⟩ (some .black) = (true, won) ∧
      won.status = .win .black ∧ won.undo? = some b ∧ b.history.length = 8 ∧
      replay b.history = b := by
  have hr : Reachable ((rowGame.take 8).foldl after empty) := Reachable.new.calls _
  obtain ⟨⟨-, hreplay⟩, hundo, -⟩ := canonical hr
  have hwins : (((rowGame.take 8).foldl after empty).attempt ⟨4⟩ (some .black)).1 = true := by
    decide +kernel
  refine ⟨_, _, rfl, Prod.ext hwins rfl, ?_, hundo _ _ hwins, ?_, hreplay⟩
  · decide +kernel
  · decide +kernel

end Board

end FiveInRow
