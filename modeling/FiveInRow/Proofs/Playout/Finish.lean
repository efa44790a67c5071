import Mathlib.Tactic
import FiveInRow.Proofs.Playout.Resemblance
import FiveInRow.Proofs.Ranking.Draws

/-!
Playouts are games that end. From a running game a playout draws a move on every turn, the rules
accept it, and the playout stops where the game has ended and nowhere else.

* `Board.PlaysOut`: the moves of a playout, each of them drawn and accepted, up to a decided board;
* `Board.Played.playsOut`: every playout is of this kind;
* `Board.PlaysOut.history_eq`, `Board.PlaysOut.status_ne`: the board that it ends on;
* `Board.playouts_finish`: every playout of a running game finishes it.
-/

namespace FiveInRow

namespace Board

variable {γ : Type} [WordSource γ] {b e : Board} {last : Option Color} {g g' : γ}
  {moves : List Move}

/-- The moves of a playout: after `last` the colours take turns; each move is drawn, it is a free
cell of the frontier, and the rules accept it; and the board `e` on which it stops is decided. The
words that are left then are those of `g'`. -/
inductive PlaysOut : Board → Option Color → γ → List Move → Board → γ → Prop
  | stop {b : Board} (last : Option Color) (g : γ) (h : b.status ≠ .inProgress) :
      PlaysOut b last g [] b g
  | move {b b₁ e : Board} {last : Option Color} {g g₁ g' : γ} {c : Cell} {moves : List Move}
      (hdraw : b.sample (some (Color.after last)) g = (some c, g₁))
      (hcell : b.frontier.contains c = true ∧ b.get c = none)
      (hplay : b.attempt c (some (Color.after last)) = (true, b₁))
      (hrest : PlaysOut b₁ (some (Color.after last)) g₁ moves e g') :
      PlaysOut b last g (⟨c, Color.after last⟩ :: moves) e g'

/-- In a finished game nothing is drawn, and a playout stops at once. -/
lemma playOut_of_over (h : b.status ≠ .inProgress) (last : Option Color) (g : γ) :
    b.playOut last g = (b, g) := by
  have hover : b.isOver = true := by
    rw [← Bool.not_eq_false, isOver_eq_false_iff]
    exact h
  have hnone : (b.sample (some (Color.after last)) : Draw γ (Option Cell)) g = (none, g) := by
    rw [sample, hover, Bool.true_or, if_pos rfl]
    rfl
  rw [playOut_apply, hnone]

/-- A move that is drawn and accepted is the first move of the playout. -/
lemma playOut_of_sample {c : Cell} (ha : b.accepts c = true)
    (hdraw : (b.sample (some (Color.after last)) g).1 = some c) :
    b.playOut last g = (b.place c (Color.after last)).playOut (some (Color.after last))
      (b.sample (some (Color.after last)) g).2 := by
  have hstep : b.sample (some (Color.after last)) g =
      (some c, (b.sample (some (Color.after last)) g).2) := Prod.ext hdraw rfl
  rw [playOut_apply, hstep]
  exact if_pos ha

/-- **A playout draws a move on every turn, until the game has ended.** -/
lemma Played.playsOut (h : Played b) (last : Option Color) (g : γ) :
    ∃ moves, PlaysOut b last g moves (b.playOut last g).1 (b.playOut last g).2 := by
  -- induction on the room of the board, which every move lowers
  induction hn : b.room using Nat.strong_induction_on generalizing b last g with
  | _ n ih =>
      by_cases hs : b.status = .inProgress
      · obtain ⟨c, hc, hdraw⟩ := h.exists_sample hs (some (Color.after last)) g
        have ha := h.accepts_of_mem_shortlist hc
        obtain ⟨-, hmem⟩ := mem_available_of_mem_shortlist hc
        obtain ⟨moves, hrest⟩ := ih _ (hn ▸ room_place ha (Color.after last))
          (h.place (Color.after last) ha) (some (Color.after last))
          (b.sample (some (Color.after last)) g).2 rfl
        refine ⟨⟨c, Color.after last⟩ :: moves, ?_⟩
        rw [playOut_of_sample ha hdraw]
        refine .move (Prod.ext hdraw rfl) ⟨CellSet.mem_toList.mp hmem, (accepts_iff.mp ha).2⟩ ?_
          hrest
        rw [attempt_eq, if_pos ha]
      · rw [playOut_of_over hs]
        exact ⟨[], .stop last g hs⟩

/-- The history grows by the moves of the playout. -/
lemma PlaysOut.history_eq (h : PlaysOut b last g moves e g') : e.history = b.history ++ moves := by
  induction h with
  | stop => exact (List.append_nil _).symm
  | @move b b₁ e last g g₁ g' c moves _ _ hplay _ ih =>
      rw [attempt_eq] at hplay
      split_ifs at hplay
      · obtain rfl := (Prod.mk.inj hplay).2
        rw [ih, history_place, List.append_assoc, List.singleton_append]
      · cases (Prod.mk.inj hplay).1

/-- A playout stops on a decided board. -/
lemma PlaysOut.status_ne (h : PlaysOut b last g moves e g') : e.status ≠ .inProgress := by
  induction h with
  | stop _ _ h => exact h
  | move _ _ _ _ ih => exact ih

/-- A playout makes accepted moves only. -/
lemma PlaysOut.played (h : PlaysOut b last g moves e g') (hb : Played b) : Played e := by
  induction h with
  | stop => exact hb
  | @move b b₁ _ last _ _ _ c _ _ _ hplay _ ih =>
      have hnext := hb.attempt c (some (Color.after last))
      rw [hplay] at hnext
      exact ih hnext

/-- **Every playout of a running game finishes it.** Whoever moved last and whatever words the
source yields, the playout draws a free cell of the frontier on every turn and the rules accept it,
until the game has ended, which takes no more moves than there are free cells. Then a colour has
five in a row, and the playout is worth one to that colour and minus one to everybody else; or the
board is full without a five, and it is worth nothing. In particular a running game has a cell worth
considering, and a shortlist for both colours. -/
theorem playouts_finish {γ : Type} [WordSource γ] {b : Board} (h : Reachable b)
    (hs : b.status = .inProgress) (last side : Option Color) (g : γ) :
    (∃ moves e g', b.playOut last g = (e, g') ∧ PlaysOut b last g moves e g' ∧
      e.history = b.history ++ moves ∧ moves.length ≤ 361 - b.stoneCount ∧
      ((∃ winner, e.status = .win winner ∧ HasFive e.get winner ∧
          (b.playOutValue last side g).1 = if some winner = side then 1 else -1) ∨
        (e.status = .draw ∧ (∀ p, e.get p ≠ none) ∧ (∀ color, ¬ HasFive e.get color) ∧
          (b.playOutValue last side g).1 = 0))) ∧
    (∃ c, b.frontier.contains c = true) ∧ ∀ color, b.shortlist (some color) ≠ [] := by
  have hp := h.played
  refine ⟨?_, hp.exists_mem_frontier hs, fun color => hp.shortlist_ne_nil hs (some color)⟩
  obtain ⟨moves, hmoves⟩ := hp.playsOut last g
  have hvalue : (b.playOutValue last side g).1 =
      ((b.playOut last g).1.status.map some).value side := rfl
  have hend := hmoves.played hp
  have hhistory := hmoves.history_eq
  refine ⟨moves, _, _, rfl, hmoves, hhistory, ?_, ?_⟩
  · have hlength := congrArg List.length hhistory
    rw [List.length_append, history, history, List.length_reverse, List.length_reverse] at hlength
    have hroom := hend.judged.room
    rw [stoneCount]
    omega
  · rw [hvalue]
    cases hstatus : (b.playOut last g).1.status with
    | inProgress => exact absurd hstatus hmoves.status_ne
    | win winner => exact .inl ⟨winner, rfl, (hend.judged.win_iff winner).mp hstatus, rfl⟩
    | draw =>
        obtain ⟨hfull, hnone⟩ := hend.judged.draw_iff.mp hstatus
        exact .inr ⟨rfl, hfull, hnone, rfl⟩

/-- Black has opened in the middle and white has answered: the playout with seed 17 finishes the
game with at most 359 more moves. -/
theorem playouts_finish_twoStones :
    ∃ b, b = (empty.place ⟨180⟩ .black).place ⟨200⟩ .white ∧
      Reachable b ∧ b.status = .inProgress ∧
      ∃ moves e g', b.playOut (some .white) (Xoshiro.ofSeed 17) = (e, g') ∧
        PlaysOut b (some .white) (Xoshiro.ofSeed 17) moves e g' ∧ moves.length ≤ 359 ∧
        e.status ≠ .inProgress := by
  have hp : Played ((empty.place ⟨180⟩ .black).place ⟨200⟩ .white) :=
    (Played.new.place .black (by decide +kernel)).place .white (by decide +kernel)
  have hs : ((empty.place ⟨180⟩ .black).place ⟨200⟩ .white).status = .inProgress := by
    decide +kernel
  obtain ⟨⟨moves, e, g', hplay, hmoves, -, hlength, -⟩, -⟩ :=
    playouts_finish hp.reachable hs (some .white) (some .black) (Xoshiro.ofSeed 17)
  rw [stoneCount, moves_place, moves_place] at hlength
  exact ⟨_, rfl, hp.reachable, hs, moves, e, g', hplay, hmoves, hlength, hmoves.status_ne⟩

end Board

end FiveInRow
