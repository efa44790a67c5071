import Mathlib.Tactic
import FiveInRow.Proofs.Ranking.Support

/-!
The weights of the weighted draw: how many of its tickets fall on each level, and when there is
nothing to draw.

* `Levels.weightedPick?_zeros_ne`: a level that holds a cell is enough for a draw;
* `Levels.weights_exact`: the weighted draw, ticket by ticket and level by level.
-/

namespace FiveInRow

/-- Where every word is zero, a drawn number is zero. -/
lemma Draw.below_zeros (n : ℕ) :
    (Draw.below n : Draw WordCycle ℕ) ⟨[], []⟩ = (0, ⟨[], []⟩) := by
  have hhalf : (Draw.half : Draw WordCycle ℕ) ⟨[], []⟩ = (0, ⟨[], []⟩) := rfl
  simp only [below, bind, StateT.bind, hhalf, Nat.zero_mul, Nat.zero_mod, Nat.zero_div,
    if_neg (Nat.not_lt_zero _)]
  rfl

namespace Levels

variable {levels : Levels} {p : Priority}

/-- Where every word is zero, the first cell of the first level that holds one is drawn. -/
lemma weightedPick?_zeros_ne (h : levels.get p ≠ []) :
    (levels.weightedPick? (⟨[], []⟩ : WordCycle)).1 ≠ none := by
  obtain ⟨q, hq⟩ := exists_fallsOn (weight_pos h)
  rw [hq.weightedPick?_eq (Draw.below_zeros _)]
  cases hcells : levels.get q with
  | nil => exact absurd hcells hq.get_ne_nil
  | cons c cells =>
      have hpick : (Draw.pick? (c :: cells) : Draw WordCycle (Option Cell)) ⟨[], []⟩ =
          (some c, ⟨[], []⟩) := by
        simp only [Draw.pick?, bind, StateT.bind, Draw.below_zeros]
        rfl
      rw [hpick]
      exact Option.some_ne_none c

/-- **The weighted draw has the weights that it should.** Without a cell in any level it returns
none and takes no word, and only then. Otherwise:

* the tickets that are drawn are those below the sum of the weights, and each of them can be drawn;
* each of them falls on exactly one level, which holds a cell, and on its way it never pays more than
  is left of it; the draw then takes one of the cells of that level, and unless there are more of
  them than a drawn number of 32 bits can tell apart, it cannot come out empty;
* each level that holds a cell has as many tickets as it weighs, one more than its number. -/
theorem weights_exact (levels : Levels) :
    ((∀ {γ : Type} [WordSource γ] (g : γ), levels.weightedPick? g = (none, g)) ↔
      ∀ p, levels.get p = []) ∧
    (levels.weight = 0 ↔ ∀ p, levels.get p = []) ∧
    (∀ {γ : Type} [WordSource γ] (g : γ), 0 < levels.weight →
      (Draw.below levels.weight g).1 < levels.weight) ∧
    (∀ ticket < levels.weight,
      (∃ word, Draw.Returns (Draw.below levels.weight) [word] ticket) ∧
      ∃ p, levels.get p ≠ [] ∧ levels.FallsOn ticket p ∧
        (∀ q, levels.FallsOn ticket q → q = p) ∧
        ticketed levels.weighted ticket = levels.get p ∧
        ∀ {γ : Type} [WordSource γ] (g g' : γ), Draw.below levels.weight g = (ticket, g') →
          levels.weightedPick? g = Draw.pick? (levels.get p) g') ∧
    (∀ {γ : Type} [WordSource γ] (g : γ), (∀ p, (levels.get p).length ≤ 2 ^ 32) →
      ((levels.weightedPick? g).1 = none ↔ ∀ p, levels.get p = [])) ∧
    ∀ p, levels.get p ≠ [] →
      {ticket | ticket < levels.weight ∧ levels.FallsOn ticket p}.ncard = p.val + 1 := by
  have hle := weight_le levels
  refine ⟨⟨fun h p => ?_, fun h _ _ g => weightedPick?_of_empty h g⟩, weight_eq_zero_iff,
    fun g hpos => Draw.below_lt hpos (hle.trans (by norm_num)) g, fun ticket hticket => ⟨?_, ?_⟩,
    fun g hlen => ⟨fun hnone p => ?_, fun h => ?_⟩, fun p hp => ncard_fallsOn hp⟩
  · by_contra hp
    exact weightedPick?_zeros_ne hp (by rw [h])
  · exact Draw.exists_returns_below hticket (hle.trans (by norm_num))
  · obtain ⟨p, hp⟩ := exists_fallsOn hticket
    refine ⟨p, hp.get_ne_nil, hp, fun q hq => hq.unique hp, ?_, fun g g' hdraw =>
      hp.weightedPick?_eq hdraw⟩
    rw [weighted_eq, hp.ticketed_eq]
  · by_contra hp
    obtain ⟨q, c, -, hdraw⟩ := exists_weightedPick? hp hlen g
    rw [hdraw] at hnone
    cases hnone
  · rw [weightedPick?_of_empty h]

/-- Levels of which most are empty; two of the others hold the same cell. -/
def sparse : Levels := #v[[], [], [⟨3⟩, ⟨5⟩], [], [], [⟨3⟩], [], [], [⟨7⟩]]

/-- Eighteen tickets: three for the lowest of the levels that hold a cell, six for the middle one and
nine for the highest; the ninth ticket is the last one of the middle level. -/
theorem weights_exact_sparse :
    sparse.weight = 18 ∧ sparse.get 5 ≠ [] ∧
    {ticket | ticket < sparse.weight ∧ sparse.FallsOn ticket 5}.ncard = 6 ∧
    ∃ p, sparse.FallsOn 8 p ∧ ticketed sparse.weighted 8 = sparse.get p ∧
      ∃ words, (sparse.weightedPick? (WordCycle.ofList words)).1 = some ⟨3⟩ := by
  have hweight : sparse.weight = 18 := by decide
  have hmiddle : sparse.get 5 ≠ [] := by decide
  obtain ⟨-, -, -, htickets, -, hcount⟩ := weights_exact sparse
  obtain ⟨⟨word, hword⟩, p, -, hfalls, -, htaken, hdraw⟩ := htickets 8 (by rw [hweight]; decide)
  have hp : sparse.get p = [⟨3⟩] := by
    rw [← htaken]
    decide
  refine ⟨hweight, hmiddle, hcount 5 hmiddle, p, hfalls, htaken, [word, 0], ?_⟩
  have hrun : Draw.below sparse.weight (WordCycle.ofList [word, 0]) = (8, ⟨[word, 0], [0]⟩) :=
    hword [word, 0] [0]
  rw [hdraw _ _ hrun, hp]
  rfl

end Levels

end FiveInRow
