/-!
How urgent a move is. The nine levels are also the buckets from which moves are drawn.
-/

namespace FiveInRow

/-- An urgency level. -/
abbrev Priority := Fin 9

/-- Lets numerals name the levels. -/
instance neZero_levels : @NeZero Nat Zero.ofOfNat0 9 := ⟨by decide⟩

namespace Priority

/-- Nothing is gained. -/
def none : Priority := 0

/-- An open two or a closed three. -/
def low : Priority := 2

/-- A four or an open three. -/
def high : Priority := 4

/-- Two independent threats at once. -/
def vital : Priority := 5

/-- An open four. -/
def urgent : Priority := 6

/-- Five in a row. -/
def immediate : Priority := 8

/-- The more urgent of two levels. -/
@[inline] def max (p q : Priority) : Priority := if p ≤ q then q else p

theorem val_max (p q : Priority) : (max p q).val = Max.max p.val q.val := by
  unfold max
  split <;> rename_i h <;> rw [Fin.le_def] at h <;> omega

end Priority

end FiveInRow
