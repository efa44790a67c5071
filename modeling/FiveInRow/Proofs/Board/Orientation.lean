import Mathlib.Tactic
import FiveInRow.Proofs.Board.Canonical
import FiveInRow.Proofs.Board.Frontier
import FiveInRow.Proofs.Pattern.Reversal

/-!
The board has no orientation for the attacker. A game that is rotated or reflected is accepted
move by move; it stands as the game does, and while it runs its frontier and its attack priorities
are the images of those of the game.

* `Symmetry.onMove`, `Board.turned`: a symmetry of moves, and the board of the turned game;
* `Board.Judged.status_eq`: positions that are images of each other have the same result;
* `Board.Played.carries_turned`: the turned game refuses no move, and its cells are the images of
  the cells;
* `Board.Played.frontier_onCell`: so is its frontier;
* `Board.attack_turned`: the turned game of every board that calls lead to.
-/

namespace FiveInRow

/-- The move on the image of the cell. -/
def Symmetry.onMove (s : Symmetry) (m : Move) : Move := ⟨s.onCell m.cell, m.color⟩

namespace Board

variable {s : Symmetry} {b b' : Board} {c : Cell}

/-- **Positions that are images of each other have the same result.** -/
lemma Judged.status_eq (hb : Judged b) (hb' : Judged b') (h : s.Carries b.get b'.get) :
    b'.status = b.status :=
  hb.status_congr hb' (fun _ => h.hasFive_iff) (h.forall_iff (P := fun x => x ≠ none))

/-- The board of the game in which every move is made on the image of its cell. -/
def turned (s : Symmetry) (b : Board) : Board := replay (b.history.map s.onMove)

/-- **The turned game refuses no move**, and it leads to the turned position. -/
lemma Played.carries_turned (h : Played b) (s : Symmetry) :
    empty.acceptsAll (b.history.map s.onMove) = true ∧ s.Carries b.get (b.turned s).get := by
  have hnew : s.Carries empty.get empty.get :=
    fun e => (Stones.get_empty _).trans (Stones.get_empty e).symm
  refine h.replay_map (R := fun b b' => s.Carries b.get b'.get) hnew ?_
  intro b b' m hb hb' hR ha
  obtain ⟨hrun, hc⟩ := accepts_iff.mp ha
  refine ⟨accepts_iff.mpr ⟨?_, (hR m.cell).trans hc⟩, ?_⟩
  · rw [hb.judged.status_eq hb'.judged hR, hrun]
  · rw [get_place, get_place]
    exact hR.update m.cell (some m.color)

/-- **The frontier of the turned position** is the image of the frontier. -/
lemma Played.frontier_onCell (hb : Played b) (hb' : Played b') (h : s.Carries b.get b'.get)
    (hs : b.status = .inProgress) (e : Cell) :
    b'.frontier.contains (s.onCell e) = true ↔ b.frontier.contains e = true := by
  have hs' : b'.status = .inProgress := by rw [hb.judged.status_eq hb'.judged h, hs]
  have hmoves : b'.moves = [] ↔ b.moves = [] := by
    rw [hb'.moves_eq_nil_iff, hb.moves_eq_nil_iff]
    exact h.forall_iff (P := fun x => x = none)
  have hcenter : s.onCell e = Cell.center ↔ e = Cell.center := by
    rw [← s.onCell_center, s.onCell_injective.eq_iff, s.onCell_center]
  have hnext : (∃ q, b'.get q ≠ none ∧ q.Adjacent (s.onCell e)) ↔
      ∃ q, b.get q ≠ none ∧ q.Adjacent e := by
    simp only [Cell.adjacent_iff_distance]
    constructor
    · rintro ⟨q, hq, hdistance⟩
      refine ⟨s.inverse.onCell q, by rwa [h.inverse], ?_⟩
      rw [← s.distance_onCell, s.onCell_inverse, hdistance]
    · rintro ⟨q, hq, hdistance⟩
      exact ⟨s.onCell q, by rwa [h], by rw [s.distance_onCell, hdistance]⟩
  simp only [hb'.frontier_iff hs', hb.frontier_iff hs, hmoves, h e, hcenter, hnext]

/-- **Attack does not depend on the board's orientation**, on every board that calls lead to and for
every rotation and reflection of the square. The game in which every move is made on the image of
its cell refuses no move, and it stands as the game does. While it runs its frontier is the image
of the frontier, and on the image of a cell a colour attacks exactly as much as on the cell. -/
theorem attack_turned (h : Reachable b) (s : Symmetry) :
    empty.acceptsAll (b.history.map s.onMove) = true ∧
    (b.turned s).status = b.status ∧
    (b.status = .inProgress →
      (∀ e, (b.turned s).frontier.contains e = true ↔
        ∃ c, b.frontier.contains c = true ∧ s.onCell c = e) ∧
      ∀ c color, (b.turned s).attackOf (s.onCell c) color = b.attackOf c color) := by
  have hb := h.played
  have hb' : Played (b.turned s) := Played.new.playAll _
  obtain ⟨hall, hcarries⟩ := hb.carries_turned s
  have hstatus := hb.judged.status_eq hb'.judged hcarries
  refine ⟨hall, hstatus, fun hs => ⟨fun e => ?_, fun c color => ?_⟩⟩
  · have hfrontier := hb.frontier_onCell hb' hcarries hs
    constructor
    · intro he
      refine ⟨s.inverse.onCell e, ?_, s.onCell_inverse e⟩
      rwa [← hfrontier, s.onCell_inverse]
    · rintro ⟨c, hc, rfl⟩
      exact (hfrontier c).mpr hc
  · cases color with
    | none => rfl
    | some color =>
        rw [hb'.attackOf_eq (hstatus.trans hs), hb.attackOf_eq hs, hcarries.attackFrom_eq]

/-- Black has four stones at the start of the first row. A quarter turn takes them to the top of the
last column, and black gains as much by a stone below them there as by one to their right here. -/
theorem attack_turned_rowGame :
    ∃ b s, b = (rowGame.take 8).foldl after empty ∧ s = (⟨true, true, false⟩ : Symmetry) ∧
      (b.turned s).status = .inProgress ∧ (b.turned s).frontier.contains ⟨94⟩ = true ∧
      (b.turned s).attackOf ⟨94⟩ (some .black) = b.attackOf ⟨4⟩ (some .black) := by
  have hr : Reachable ((rowGame.take 8).foldl after empty) := Reachable.new.calls _
  have hs : ((rowGame.take 8).foldl after empty).status = .inProgress := by decide +kernel
  have hnext : ((rowGame.take 8).foldl after empty).frontier.contains ⟨4⟩ = true := by
    decide +kernel
  have himage : (⟨true, true, false⟩ : Symmetry).onCell ⟨4⟩ = ⟨94⟩ := by decide
  obtain ⟨-, hstatus, hrunning⟩ := attack_turned hr ⟨true, true, false⟩
  obtain ⟨hfrontier, hattack⟩ := hrunning hs
  refine ⟨_, _, rfl, rfl, hstatus.trans hs, (hfrontier ⟨94⟩).mpr ⟨⟨4⟩, hnext, himage⟩, ?_⟩
  rw [← himage, hattack]

end Board

end FiveInRow
