import Mathlib.Tactic
import FiveInRow.Proofs.Ranking.Support

/-!
Uniform draws. The frontier is a set of cells in six words, and a uniform draw asks it for the
member of a rank that was drawn.

* `Board.sampleUniform_eq`: a uniform draw is a drawn rank, read off the frontier;
* `Board.exists_returns_sampleUniform`: every rank can be drawn;
* `Board.ranks_exact`: the words of a set are its members, and ranks name the cells of the frontier
  one to one.
-/

namespace FiveInRow

namespace Board

variable {b : Board} {γ : Type} [WordSource γ]

lemma sampleUniform_of_over (g : γ) (h : b.isOver = true ∨ b.frontier.count = 0) :
    b.sampleUniform g = (none, g) := by
  have hcheck : (b.isOver || decide (b.frontier.count = 0)) = true := by
    rcases h with h | h <;> simp [h]
  rw [sampleUniform, hcheck, if_pos rfl]
  rfl

/-- A uniform draw is a drawn rank, read off the frontier. -/
lemma sampleUniform_eq (g : γ) (hover : b.isOver = false) (hpos : 0 < b.frontier.count) :
    (b.sampleUniform g).1 = b.frontier.nth? (Draw.below b.frontier.count g).1 := by
  have hcheck : (b.isOver || decide (b.frontier.count = 0)) = false := by
    rw [hover, Bool.false_or, decide_eq_false (by omega)]
  rw [sampleUniform, hcheck, if_neg Bool.false_ne_true]
  rfl

lemma count_frontier_le (b : Board) : b.frontier.count ≤ 361 := by
  rw [← CellSet.length_toList]
  exact Cell.length_le_all b.frontier.sublist_toList

/-- **Every rank can be drawn.** -/
lemma exists_returns_sampleUniform {k : ℕ} (hover : b.isOver = false) (hk : k < b.frontier.count) :
    ∃ words, (b.sampleUniform (WordCycle.ofList words)).1 = b.frontier.nth? k := by
  have hle := b.count_frontier_le
  obtain ⟨w, hw⟩ := Draw.exists_returns_below hk (hle.trans (by norm_num))
  exact ⟨[w], by rw [sampleUniform_eq _ hover (by omega), hw.ofList]⟩

/-- **The words of a set are its members, and ranks name the cells of the frontier one to one.**
After any insertions, removals, clearings and collections the operations on the words are those on
the finite set of the members, and equal members mean equal words. So on a running game a uniform
draw turns the ranks below the size of the frontier one to one into its cells: whatever the
generator, it returns the cell of the rank that is drawn, and every rank can be drawn. In a finished
game, or without a frontier, there is no draw and no word is taken. -/
theorem ranks_exact (changes : List CellSet.Change) (b : Board) :
    (CellSet.after changes).ActsAs (CellSet.membersAfter changes) ∧
    (∀ others, CellSet.after others = CellSet.after changes ↔
      CellSet.membersAfter others = CellSet.membersAfter changes) ∧
    (∃ cellOf : Fin b.frontier.count ≃ {c // b.frontier.contains c = true},
      (∀ k, b.frontier.nth? k.val = some (cellOf k).val) ∧
      (b.isOver = false →
        (∀ {γ : Type} [WordSource γ] (g : γ), 0 < b.frontier.count →
          ∃ k : Fin b.frontier.count, (Draw.below b.frontier.count g).1 = k.val ∧
            (b.sampleUniform g).1 = some (cellOf k).val) ∧
        ∀ k, ∃ words, (b.sampleUniform (WordCycle.ofList words)).1 = some (cellOf k).val)) ∧
    (b.isOver = true ∨ b.frontier.count = 0 →
      ∀ {γ : Type} [WordSource γ] (g : γ), b.sampleUniform g = (none, g)) := by
  have hset := CellSet.represents_after changes
  obtain ⟨cellOf, hcell⟩ := b.frontier.exists_equiv_members
  refine ⟨hset.actsAs, fun others => (CellSet.represents_after others).eq_iff hset,
    ⟨cellOf, hcell, fun hover => ⟨fun g hpos => ?_, fun k => ?_⟩⟩,
    fun h _ _ g => sampleUniform_of_over g h⟩
  · have hle := b.count_frontier_le
    have hlt := Draw.below_lt hpos (hle.trans (by norm_num)) g
    exact ⟨⟨_, hlt⟩, rfl, by rw [sampleUniform_eq g hover hpos, ← hcell ⟨_, hlt⟩]⟩
  · obtain ⟨words, hwords⟩ := exists_returns_sampleUniform hover k.isLt
    exact ⟨words, by rw [hwords, hcell k]⟩

/-- Cells in three of the words, one of them taken out again and one added twice; and the cells
around four stones in a row, of which each can be drawn. -/
theorem ranks_exact_fourStones :
    (CellSet.after
      [.collect [⟨360⟩, ⟨64⟩, ⟨3⟩, ⟨64⟩], .insert ⟨128⟩, .erase ⟨3⟩, .insert ⟨128⟩]).ActsAs
        {⟨64⟩, ⟨128⟩, ⟨360⟩} ∧
    fourStones.isOver = false ∧ 0 < fourStones.frontier.count ∧
    ∀ c, fourStones.frontier.contains c = true → ∃ words,
      (fourStones.sampleUniform (WordCycle.ofList words)).1 = some c := by
  have hover : fourStones.isOver = false := by decide +kernel
  obtain ⟨hacts, -, ⟨cellOf, -, hdraw⟩, -⟩ :=
    ranks_exact [.collect [⟨360⟩, ⟨64⟩, ⟨3⟩, ⟨64⟩], .insert ⟨128⟩, .erase ⟨3⟩, .insert ⟨128⟩]
      fourStones
  refine ⟨?_, hover, by decide +kernel, fun c hc => ?_⟩
  · convert hacts
    decide
  · obtain ⟨words, hwords⟩ := (hdraw hover).2 (cellOf.symm ⟨c, hc⟩)
    rw [Equiv.apply_symm_apply] at hwords
    exact ⟨words, hwords⟩

end Board

end FiveInRow
