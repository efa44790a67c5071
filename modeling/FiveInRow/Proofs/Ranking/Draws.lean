import Mathlib.Tactic
import FiveInRow.Proofs.Ranking.Candidates
import FiveInRow.Proofs.Ranking.Tickets

/-!
What a draw can return. In a running game every draw is a move of the shortlist: the list that is
drawn from is never empty, and every ticket of the weighted draw falls on a level that holds a cell.

* `Levels.le_top`: no level above the top one holds a cell;
* `Levels.exists_weightedPick?`: the weighted draw returns a cell of a level;
* `Board.Played.exists_sample`: every draw in a running game is a move of the shortlist.
-/

namespace FiveInRow

namespace Levels

variable {levels : Levels} {p : Priority} {γ : Type} [WordSource γ]

/-! ### The top level -/

/-- No level above the top one holds a cell. -/
lemma le_top (h : levels.get p ≠ []) : p ≤ levels.top := by
  have hdown : (List.finRange 9).reverse.Pairwise fun q r => r ≤ q := by decide
  have hmem : p ∈ (List.finRange 9).reverse := List.mem_reverse.mpr (List.mem_finRange p)
  have hp : (!levels[p].isEmpty) = true := by
    rw [Bool.not_eq_true', List.isEmpty_eq_false_iff]
    exact h
  rw [top]
  generalize (List.finRange 9).reverse = order at hdown hmem
  -- the search stops at `p` or above it
  induction order with
  | nil => cases hmem
  | cons q order ih =>
      rw [List.pairwise_cons] at hdown
      rw [List.find?_cons]
      cases hq : !levels[q].isEmpty with
      | true =>
          rcases List.mem_cons.mp hmem with rfl | hmem
          · exact le_rfl
          · exact hdown.1 p hmem
      | false =>
          rcases List.mem_cons.mp hmem with rfl | hmem
          · rw [hp] at hq
            cases hq
          · exact ih hdown.2 hmem

/-! ### The weighted draw -/

/-- **The weighted draw returns a cell of a level**, if some level holds one. -/
lemma exists_weightedPick? (h : levels.get p ≠ []) (hlen : ∀ q, (levels.get q).length ≤ 2 ^ 32)
    (g : γ) : ∃ q, ∃ c ∈ levels.get q, (levels.weightedPick? g).1 = some c := by
  have hlt := Draw.below_lt (weight_pos h) ((weight_le levels).trans (by decide)) g
  rcases hdraw : (Draw.below levels.weight : Draw γ ℕ) g with ⟨ticket, g'⟩
  rw [hdraw] at hlt
  obtain ⟨q, hq⟩ := exists_fallsOn hlt
  obtain ⟨c, hc, hpick⟩ := Draw.exists_pick? hq.get_ne_nil (hlen q) g'
  exact ⟨q, c, hc, by rw [hq.weightedPick?_eq hdraw, hpick]⟩

end Levels

namespace Board

variable {b : Board} {γ : Type} [WordSource γ]

/-- **Every draw in a running game is a move of the shortlist.** -/
lemma Played.exists_sample (h : Played b) (hs : b.status = .inProgress) (color : Option Color)
    (g : γ) : ∃ c ∈ b.shortlist color, (b.sample color g).1 = some c := by
  obtain ⟨e, he⟩ := h.exists_mem_frontier hs
  have hrun := isOver_eq_false_iff.mpr hs
  have hquiet : (b.isOver || b.frontier.isEmpty) = false := by
    rw [hrun, Bool.false_or]
    exact CellSet.isEmpty_eq_false he
  have havailable : b.available ≠ [] := List.ne_nil_of_mem (CellSet.mem_toList.mpr he)
  -- the cells of the frontier by attack or by defence: what a draw from them returns
  have hpick : ∀ priority : Cell → Priority, ∀ g : γ,
      let levels := Levels.ofCells priority b.available
      ∃ c ∈ levels.get levels.top, (Draw.pick? (levels.get levels.top) g).1 = some c :=
    fun priority g => Draw.exists_pick? (Levels.get_top_ofCells_ne_nil priority havailable)
      (Cell.length_le_of_sublist (b.sublist_level priority _)) g
  have hweighted : ∀ priority : Cell → Priority, ∀ g : γ,
      ∃ c ∈ b.available, ((Levels.ofCells priority b.available).weightedPick? g).1 = some c := by
    intro priority g
    obtain ⟨q, c, hc, hdraw⟩ := Levels.exists_weightedPick?
      (Levels.get_top_ofCells_ne_nil priority havailable)
      (fun q => Cell.length_le_of_sublist (b.sublist_level priority q)) g
    exact ⟨c, Levels.mem_of_mem_ofCells hc, hdraw⟩
  rw [sample, shortlist, hquiet, hrun, if_neg Bool.false_ne_true, if_neg Bool.false_ne_true]
  cases hv : (Outlook.of b color).verdict with
  | attack =>
      simp only [hv]
      exact hpick (b.attackOf · color) g
  | defence =>
      simp only [hv]
      exact hpick (b.defenceOf · color) g
  | either =>
      simp only [hv, bind, StateT.bind]
      rcases (Draw.coin : Draw γ Bool) g with ⟨_ | _, g'⟩
      · obtain ⟨c, hc, hdraw⟩ := hpick (b.defenceOf · color) g'
        refine ⟨c, ?_, hdraw⟩
        rw [CellSet.mem_toList, CellSet.contains_ofList]
        exact List.mem_append_right _ hc
      · obtain ⟨c, hc, hdraw⟩ := hpick (b.attackOf · color) g'
        refine ⟨c, ?_, hdraw⟩
        rw [CellSet.mem_toList, CellSet.contains_ofList]
        exact List.mem_append_left _ hc
  | spread =>
      simp only [hv, bind, StateT.bind]
      rcases (Draw.coin : Draw γ Bool) g with ⟨_ | _, g'⟩
      · exact hweighted (b.defenceOf · color) g'
      · exact hweighted (b.attackOf · color) g'

end Board

end FiveInRow
