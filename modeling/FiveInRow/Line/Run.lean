/-!
Words as rows of cells: bit `i` of a word says whether cell `i` of a line is taken.

* `longestRun`: the length of the longest run of consecutive set bits. One step of the recursion
  removes the last bit of every run, so the number of steps is the length of the longest one.
-/

namespace FiveInRow

/-- Erosion makes a word smaller. -/
theorem erode_lt {w : Nat} (h : w ≠ 0) : w &&& w >>> 1 < w := by
  have h₁ : w &&& w >>> 1 ≤ w >>> 1 := Nat.and_le_right
  have h₂ : w >>> 1 = w / 2 := by simp [Nat.shiftRight_eq_div_pow]
  omega

/-- The length of the longest run of consecutive set bits. -/
def longestRun (w : Nat) : Nat :=
  if h : w = 0 then 0 else longestRun (w &&& w >>> 1) + 1
termination_by w
decreasing_by exact erode_lt h

end FiveInRow
