import Mathlib.Tactic
import FiveInRow.Ranking.Levels

/-!
The tickets of the weighted draw. A ticket goes down the levels: a level without cells is skipped,
a level that weighs more than the ticket stops it, and any other level takes its weight off.

* `Levels.weight`: what the levels that hold a cell weigh together, which is the number of tickets;
* `Levels.Falls`: on which of some levels a ticket falls, every level that it passes being paid in
  full;
* `Levels.exists_falls`, `Levels.Falls.unique`: a ticket below the weight falls on exactly one level;
* `Levels.falls_append_iff`: the tickets of a level are an interval, as long as the level weighs;
* `Levels.FallsOn.weightedPick?_eq`: the weighted draw takes a cell of the level that its ticket
  falls on.
-/

namespace FiveInRow

namespace Levels

variable {levels : Levels} {p q : Priority} {ps : List Priority} {ticket : ℕ}

/-- What the levels that hold a cell weigh together, each one more than its number. -/
def weight (levels : Levels) : ℕ := ∑ p : Priority with levels.get p ≠ [], (p.val + 1)

/-- The entries that some levels have in the weighted draw. -/
def entriesOf (levels : Levels) (ps : List Priority) : List (ℕ × List Cell) :=
  (ps.filter fun p => levels.get p ≠ []).map fun p => (p.val + 1, levels.get p)

/-- What some levels weigh together. -/
def weightOf (levels : Levels) (ps : List Priority) : ℕ := ((levels.entriesOf ps).map (·.1)).sum

/-- A ticket on its way down some levels falls on the level `q`. A level is only ever passed by a
ticket that pays its whole weight, and there is no rule for a ticket that has passed all levels. -/
inductive Falls (levels : Levels) : List Priority → ℕ → Priority → Prop
  | skip {p q : Priority} {ps : List Priority} {ticket : ℕ} (hp : levels.get p = [])
      (h : Falls levels ps ticket q) : Falls levels (p :: ps) ticket q
  | stop {p : Priority} {ps : List Priority} {ticket : ℕ} (hp : levels.get p ≠ [])
      (hle : ticket ≤ p.val) : Falls levels (p :: ps) ticket p
  | pass {p q : Priority} {ps : List Priority} {ticket : ℕ} (hp : levels.get p ≠ [])
      (h : Falls levels ps ticket q) : Falls levels (p :: ps) (ticket + (p.val + 1)) q

/-- A ticket falls on this one of all levels. -/
def FallsOn (levels : Levels) (ticket : ℕ) (q : Priority) : Prop :=
  levels.Falls (List.finRange 9) ticket q

/-! ### What the levels weigh -/

lemma entriesOf_cons_of_empty (hp : levels.get p = []) :
    levels.entriesOf (p :: ps) = levels.entriesOf ps := by
  rw [entriesOf, List.filter_cons_of_neg (by simpa using hp), entriesOf]

lemma entriesOf_cons_of_holds (hp : levels.get p ≠ []) :
    levels.entriesOf (p :: ps) = (p.val + 1, levels.get p) :: levels.entriesOf ps := by
  rw [entriesOf, List.filter_cons_of_pos (by simpa using hp), List.map_cons, entriesOf]

lemma weightOf_cons_of_empty (hp : levels.get p = []) :
    levels.weightOf (p :: ps) = levels.weightOf ps := by
  rw [weightOf, entriesOf_cons_of_empty hp, weightOf]

lemma weightOf_cons_of_holds (hp : levels.get p ≠ []) :
    levels.weightOf (p :: ps) = p.val + 1 + levels.weightOf ps := by
  rw [weightOf, entriesOf_cons_of_holds hp, List.map_cons, List.sum_cons, weightOf]

lemma weightOf_append (levels : Levels) (ps qs : List Priority) :
    levels.weightOf (ps ++ qs) = levels.weightOf ps + levels.weightOf qs := by
  rw [weightOf, entriesOf, List.filter_append, List.map_append, List.map_append, List.sum_append]
  rfl

/-- The levels weigh nothing if and only if none of them holds a cell. -/
lemma weight_eq_zero_iff : levels.weight = 0 ↔ ∀ p, levels.get p = [] := by
  rw [weight, Finset.sum_eq_zero_iff]
  refine ⟨fun h p => ?_, fun h p hp => absurd (h p) (Finset.mem_filter.mp hp).2⟩
  by_contra hp
  exact Nat.succ_ne_zero _ (h p (Finset.mem_filter.mpr ⟨Finset.mem_univ p, hp⟩))

lemma weight_pos (hp : levels.get p ≠ []) : 0 < levels.weight :=
  Nat.pos_of_ne_zero fun hzero => hp (weight_eq_zero_iff.mp hzero p)

lemma weight_eq_weightOf (levels : Levels) : levels.weight = levels.weightOf (List.finRange 9) := by
  have hset : ({p : Priority | levels.get p ≠ []} : Finset Priority) =
      ((List.finRange 9).filter fun p => levels.get p ≠ []).toFinset := by
    ext p
    simp
  rw [weight, hset, List.sum_toFinset _ ((List.nodup_finRange 9).filter _), weightOf, entriesOf,
    List.map_map]
  rfl

/-- The entries of the weighted draw, from the levels in their order. -/
lemma weighted_eq (levels : Levels) : levels.weighted = levels.entriesOf (List.finRange 9) := by
  have hlevels : levels.toList.zipIdx =
      (List.finRange 9).map fun p => (levels.get p, p.val) := by
    refine List.ext_getElem (by simp) fun i _ _ => ?_
    simp [Vector.get]
  rw [weighted, hlevels, List.filter_map, List.map_map, entriesOf]
  refine congrArg (List.map _) (List.filter_congr fun p _ => ?_)
  rw [Function.comp_apply, Bool.eq_iff_iff, Bool.not_eq_true', List.isEmpty_eq_false_iff,
    decide_eq_true_iff]

/-- The draw counts the tickets that there are. -/
lemma sum_weighted (levels : Levels) : (levels.weighted.map (·.1)).sum = levels.weight := by
  rw [weighted_eq, weight_eq_weightOf, weightOf]

/-- All levels together weigh forty-five. -/
lemma weight_le (levels : Levels) : levels.weight ≤ 45 :=
  Finset.sum_le_sum_of_subset (Finset.filter_subset _ Finset.univ)

/-! ### Where a ticket falls -/

lemma falls_cons_of_empty (hp : levels.get p = []) :
    levels.Falls (p :: ps) ticket q ↔ levels.Falls ps ticket q := by
  refine ⟨fun h => ?_, fun h => .skip hp h⟩
  cases h with
  | skip hp' h => exact h
  | stop hp' hle => exact absurd hp hp'
  | pass hp' h => exact absurd hp hp'

lemma falls_cons_of_le (hp : levels.get p ≠ []) (hle : ticket ≤ p.val) :
    levels.Falls (p :: ps) ticket q ↔ q = p := by
  constructor
  · intro h
    cases h with
    | skip hp' h => exact absurd hp' hp
    | stop hp' hle' => rfl
    | pass hp' h => omega
  · rintro rfl
    exact .stop hp hle

lemma falls_cons_add (hp : levels.get p ≠ []) :
    levels.Falls (p :: ps) (ticket + (p.val + 1)) q ↔ levels.Falls ps ticket q := by
  refine ⟨fun h => ?_, fun h => .pass hp h⟩
  generalize hsum : ticket + (p.val + 1) = total at h
  cases h with
  | skip hp' h => exact absurd hp' hp
  | stop hp' hle => omega
  | pass hp' h =>
      obtain rfl := Nat.add_right_cancel hsum
      exact h

/-- A ticket that a level does not stop is what the level weighs and a rest. -/
lemma exists_rest (h : ¬ ticket ≤ p.val) : ∃ rest, ticket = rest + (p.val + 1) :=
  ⟨ticket - (p.val + 1), by omega⟩

lemma Falls.get_ne_nil (h : levels.Falls ps ticket q) : levels.get q ≠ [] := by
  induction h with
  | skip hp h ih => exact ih
  | stop hp hle => exact hp
  | pass hp h ih => exact ih

lemma Falls.mem (h : levels.Falls ps ticket q) : q ∈ ps := by
  induction h with
  | skip hp h ih => exact List.mem_cons_of_mem _ ih
  | stop hp hle => exact List.mem_cons_self
  | pass hp h ih => exact List.mem_cons_of_mem _ ih

/-- Only tickets below the weight fall on a level. -/
lemma Falls.lt (h : levels.Falls ps ticket q) : ticket < levels.weightOf ps := by
  induction h with
  | skip hp h ih => rwa [weightOf_cons_of_empty hp]
  | stop hp hle =>
      rw [weightOf_cons_of_holds hp]
      omega
  | pass hp h ih =>
      rw [weightOf_cons_of_holds hp]
      omega

/-- **Every ticket below the weight falls on a level.** -/
lemma exists_falls (h : ticket < levels.weightOf ps) : ∃ q, levels.Falls ps ticket q := by
  induction ps generalizing ticket with
  | nil => exact absurd h (Nat.not_lt_zero ticket)
  | cons p ps ih =>
      by_cases hp : levels.get p = []
      · rw [weightOf_cons_of_empty hp] at h
        simpa only [falls_cons_of_empty hp] using ih h
      · rw [weightOf_cons_of_holds hp] at h
        by_cases hle : ticket ≤ p.val
        · exact ⟨p, .stop hp hle⟩
        · obtain ⟨rest, rfl⟩ := exists_rest hle
          have hrest : rest < levels.weightOf ps := by omega
          simpa only [falls_cons_add hp] using ih hrest

/-- A ticket falls on one level only. -/
lemma Falls.unique (h : levels.Falls ps ticket q) (h' : levels.Falls ps ticket p) : q = p := by
  induction h with
  | skip hq h ih => exact ih ((falls_cons_of_empty hq).mp h')
  | stop hq hle => exact ((falls_cons_of_le hq hle).mp h').symm
  | pass hq h ih => exact ih ((falls_cons_add hq).mp h')

/-- **The loop over the entries stops at the level that the ticket falls on.** -/
lemma Falls.ticketed_eq (h : levels.Falls ps ticket q) :
    ticketed (levels.entriesOf ps) ticket = levels.get q := by
  induction h with
  | skip hp h ih => rwa [entriesOf_cons_of_empty hp]
  | stop hp hle => rw [entriesOf_cons_of_holds hp, ticketed, if_pos (Nat.lt_succ_of_le hle)]
  | pass hp h ih =>
      rw [entriesOf_cons_of_holds hp, ticketed, if_neg (by omega), Nat.add_sub_cancel, ih]

/-! ### The tickets of a level -/

/-- **The tickets of a level are an interval.** They begin after those of the levels before it, and
there are as many of them as the level weighs. -/
lemma falls_append_iff {before behind : List Priority} (hq : levels.get q ≠ [])
    (hbefore : q ∉ before) (hbehind : q ∉ behind) :
    levels.Falls (before ++ q :: behind) ticket q ↔
      levels.weightOf before ≤ ticket ∧ ticket < levels.weightOf before + (q.val + 1) := by
  -- induction on the levels before: each is skipped, or stops the tickets that it weighs more than,
  -- or takes its weight off the ticket and off the bounds alike
  induction before generalizing ticket with
  | nil =>
      show _ ↔ 0 ≤ ticket ∧ ticket < 0 + (q.val + 1)
      rw [List.nil_append]
      by_cases hle : ticket ≤ q.val
      · exact iff_of_true (.stop hq hle) (by omega)
      · obtain ⟨rest, rfl⟩ := exists_rest hle
        rw [falls_cons_add hq]
        exact iff_of_false (fun h => hbehind h.mem) (by omega)
  | cons p before ih =>
      obtain ⟨hne, hrest⟩ := List.ne_and_not_mem_of_not_mem_cons hbefore
      rw [List.cons_append]
      by_cases hp : levels.get p = []
      · rw [falls_cons_of_empty hp, weightOf_cons_of_empty hp, ih hrest]
      · rw [weightOf_cons_of_holds hp]
        by_cases hle : ticket ≤ p.val
        · rw [falls_cons_of_le hp hle]
          exact iff_of_false hne (by omega)
        · obtain ⟨rest, rfl⟩ := exists_rest hle
          rw [falls_cons_add hp, ih hrest]
          omega

/-- Among all levels, the tickets of a level that holds a cell. -/
lemma exists_fallsOn_iff (hq : levels.get q ≠ []) : ∃ first,
    first + (q.val + 1) ≤ levels.weight ∧
      ∀ ticket, levels.FallsOn ticket q ↔ first ≤ ticket ∧ ticket < first + (q.val + 1) := by
  obtain ⟨before, behind, hsplit⟩ := List.append_of_mem (List.mem_finRange q)
  have hnodup := List.nodup_finRange 9
  rw [hsplit, List.nodup_middle, List.nodup_cons, List.mem_append, not_or] at hnodup
  refine ⟨levels.weightOf before, ?_, fun ticket => ?_⟩
  · rw [weight_eq_weightOf, hsplit, weightOf_append, weightOf_cons_of_holds hq]
    omega
  · rw [FallsOn, hsplit, falls_append_iff hq hnodup.1.1 hnodup.1.2]

lemma FallsOn.lt (h : levels.FallsOn ticket q) : ticket < levels.weight := by
  rw [weight_eq_weightOf]
  exact Falls.lt h

lemma exists_fallsOn (h : ticket < levels.weight) : ∃ q, levels.FallsOn ticket q :=
  exists_falls (weight_eq_weightOf levels ▸ h)

/-- **A level has as many tickets as it weighs.** -/
lemma ncard_fallsOn (hq : levels.get q ≠ []) :
    {ticket | ticket < levels.weight ∧ levels.FallsOn ticket q}.ncard = q.val + 1 := by
  obtain ⟨first, hle, hfalls⟩ := exists_fallsOn_iff hq
  have hinterval : {ticket | ticket < levels.weight ∧ levels.FallsOn ticket q} =
      Finset.Ico first (first + (q.val + 1)) := by
    ext ticket
    rw [Set.mem_ofPred_eq, hfalls, Finset.mem_coe, Finset.mem_Ico]
    omega
  rw [hinterval, Set.ncard_coe_finset, Nat.card_Ico, Nat.add_sub_cancel_left]

/-! ### The draw -/

variable {γ : Type} [WordSource γ]

/-- Where no level holds a cell, no word is taken. -/
lemma weightedPick?_of_empty (h : ∀ p, levels.get p = []) (g : γ) :
    levels.weightedPick? g = (none, g) := by
  have htotal : (levels.weighted.map (·.1)).foldr (· + ·) 0 = 0 :=
    (sum_weighted levels).trans (weight_eq_zero_iff.mpr h)
  rw [weightedPick?, if_pos htotal]
  rfl

/-- **The ticket is drawn first, and then a cell of the level that it falls on.** -/
lemma FallsOn.weightedPick?_eq {g g' : γ} (h : levels.FallsOn ticket q)
    (hdraw : Draw.below levels.weight g = (ticket, g')) :
    levels.weightedPick? g = Draw.pick? (levels.get q) g' := by
  have htotal : (levels.weighted.map (·.1)).foldr (· + ·) 0 = levels.weight :=
    sum_weighted levels
  have hpos : levels.weight ≠ 0 := (Nat.zero_le ticket).trans_lt h.lt |>.ne'
  have hcells : ticketed levels.weighted ticket = levels.get q := by
    rw [weighted_eq, h.ticketed_eq]
  rw [weightedPick?, htotal, if_neg hpos]
  show (let r := Draw.below levels.weight g; Draw.pick? (ticketed levels.weighted r.1) r.2) = _
  rw [hdraw]
  dsimp only
  rw [hcells]

end Levels

end FiveInRow
