import Mathlib.Tactic
import FiveInRow.Ranking.Shortlist
import FiveInRow.Proofs.Board.Frontier

/-!
What the ranking may leave of a position: cells of the frontier, which can be played.

* `Draw.exists_pick?`: what is picked from a list is a member of it;
* `Board.mem_available_of_mem_shortlist`: the shortlist is drawn from the frontier;
* `Board.Played.accepts_of_mem_shortlist`: every move of the shortlist can be played.
-/

namespace FiveInRow

/-- What is picked from a list is a member of it. -/
lemma Draw.exists_pick? {α γ : Type} [WordSource γ] {xs : List α} (hne : xs ≠ [])
    (hlen : xs.length ≤ 2 ^ 32) (g : γ) : ∃ x ∈ xs, (Draw.pick? xs g).1 = some x := by
  cases xs with
  | nil => exact absurd rfl hne
  | cons x xs =>
      have hlt := Draw.below_lt (Nat.succ_pos xs.length) hlen g
      refine ⟨_, List.getElem_mem hlt, ?_⟩
      exact List.getElem?_eq_getElem hlt

/-- Cells in index order are no more than all cells. -/
lemma Cell.length_le_all {cells : List Cell} (h : cells.Sublist all) : cells.length ≤ 361 :=
  calc cells.length ≤ all.length := h.length_le
    _ = 361 := by rw [all, List.length_map, List.length_finRange]

/-- Cells in index order are few enough to pick from. -/
lemma Cell.length_le_of_sublist {cells : List Cell} (h : cells.Sublist all) :
    cells.length ≤ 2 ^ 32 :=
  (length_le_all h).trans (by norm_num)

namespace Board

variable {b : Board} {c : Cell} {color : Option Color}

/-- The shortlist is drawn from the frontier of a running game. -/
lemma mem_available_of_mem_shortlist (h : c ∈ b.shortlist color) :
    b.status = .inProgress ∧ c ∈ b.available := by
  have hattack : c ∈ (Outlook.of b color).topAttack → c ∈ b.available := fun hc =>
    Levels.mem_of_mem_ofCells hc
  have hdefence : c ∈ (Outlook.of b color).topDefence → c ∈ b.available := fun hc =>
    Levels.mem_of_mem_ofCells hc
  rw [shortlist] at h
  cases hover : b.isOver with
  | true =>
      rw [hover, if_pos rfl] at h
      cases h
  | false =>
      rw [hover, if_neg Bool.false_ne_true] at h
      refine ⟨isOver_eq_false_iff.mp hover, ?_⟩
      cases hv : (Outlook.of b color).verdict with
      | attack =>
          simp only [hv] at h
          exact hattack h
      | defence =>
          simp only [hv] at h
          exact hdefence h
      | either =>
          simp only [hv] at h
          rw [CellSet.mem_toList, CellSet.contains_ofList, List.mem_append] at h
          exact h.elim hattack hdefence
      | spread =>
          simp only [hv] at h
          exact h

/-- **Every move of the shortlist can be played.** -/
lemma Played.accepts_of_mem_shortlist (h : Played b) (hc : c ∈ b.shortlist color) :
    b.accepts c = true := by
  obtain ⟨hs, hmem⟩ := mem_available_of_mem_shortlist hc
  exact accepts_iff.mpr ⟨hs, h.get_of_frontier hs (CellSet.mem_toList.mp hmem)⟩

end Board

end FiveInRow
