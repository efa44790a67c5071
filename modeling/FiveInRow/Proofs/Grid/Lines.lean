import Mathlib.Tactic
import FiveInRow.Grid.Direction

/-!
Walking along the lines of the board. The coordinates of a cell are traded for its line and its
bit, so that a walk of `n` steps on a line adds `n` to the bit and a ray is a stretch of bits.

* `Cell.offset_eq_some_iff`: a walk in coordinates;
* `Direction.offset_eq_some_iff`: a walk along a line, in bits;
* `Direction.testBit_lineMask_line`: the bits of a line that are cells;
* `Cell.getElem?_ray`: a ray lists the walks of length `1, 2, …`, since the board is convex.
-/

namespace FiveInRow

namespace Cell

/-- A cell is determined by its coordinates. -/
lemma eq_of_x_y {a b : Cell} (hx : a.x = b.x) (hy : a.y = b.y) : a = b := by
  have h := at?_x_y a
  rw [hx, hy, at?_x_y b] at h
  exact (Option.some.inj h).symm

lemma nodup_all : all.Nodup :=
  (List.nodup_finRange 361).map fun _ _ hij => congrArg Cell.index hij

lemma at?_eq_some_iff {x y : ℤ} {c : Cell} : at? x y = some c ↔ (c.x : ℤ) = x ∧ (c.y : ℤ) = y := by
  constructor
  · exact fun h => ⟨x_of_at? h, y_of_at? h⟩
  · rintro ⟨rfl, rfl⟩
    exact at?_x_y c

/-- A walk ends on the cell whose coordinates it adds up to. -/
lemma offset_eq_some_iff {c e : Cell} {step : ℤ × ℤ} {n : ℤ} :
    c.offset step n = some e ↔ (e.x : ℤ) = c.x + step.1 * n ∧ (e.y : ℤ) = c.y + step.2 * n :=
  at?_eq_some_iff

lemma offset_eq_none_iff {c : Cell} {step : ℤ × ℤ} {n : ℤ} :
    c.offset step n = none ↔ ¬ OnBoard (c.x + step.1 * n) (c.y + step.2 * n) := by
  rw [offset, ← at?_isSome_iff, Option.not_isSome_iff_eq_none]

@[simp] lemma offset_zero (c : Cell) (step : ℤ × ℤ) : c.offset step 0 = some c := by
  rw [offset_eq_some_iff]
  simp

/-- Walking backwards is walking along the opposite step. -/
lemma offset_neg (c : Cell) (dx dy n : ℤ) : c.offset (-dx, -dy) n = c.offset (dx, dy) (-n) := by
  simp only [offset, neg_mul, mul_neg]

/-- A walk can be taken back. -/
lemma offset_symm {a b : Cell} {step : ℤ × ℤ} {n : ℤ} (h : a.offset step n = some b) :
    b.offset step (-n) = some a := by
  rw [offset_eq_some_iff] at h ⊢
  obtain ⟨hx, hy⟩ := h
  constructor
  · rw [hx]; ring
  · rw [hy]; ring

/-- Walks add up. -/
lemma offset_offset {a b : Cell} {step : ℤ × ℤ} {m : ℤ} (h : a.offset step m = some b) (n : ℤ) :
    b.offset step n = a.offset step (m + n) := by
  obtain ⟨hx, hy⟩ := offset_eq_some_iff.mp h
  rw [offset, offset, hx, hy]
  congr 1 <;> ring

/-- The board is convex: who is still on it after `n + 1` steps was on it after the first one. -/
lemma offset_one_ne_none {c : Cell} {step : ℤ × ℤ} {n : ℕ}
    (h : c.offset step (n + 1) ≠ none) : c.offset step 1 ≠ none := by
  have convex : ∀ x d : ℤ, 0 ≤ x → x < 19 → 0 ≤ x + d * (n + 1) → x + d * (n + 1) < 19 →
      0 ≤ x + d * 1 ∧ x + d * 1 < 19 := by
    intro x d h₁ h₂ h₃ h₄
    have hn : (0 : ℤ) ≤ n := Int.natCast_nonneg n
    rcases le_total 0 d with hd | hd
    · have := mul_nonneg hd hn
      constructor <;> linarith
    · have := mul_nonneg (neg_nonneg.mpr hd) hn
      constructor <;> linarith
  rw [Ne, offset_eq_none_iff, not_not] at h ⊢
  obtain ⟨h₁, h₂, h₃, h₄⟩ := h
  have hx := c.x_lt
  have hy := c.y_lt
  obtain ⟨hx₀, hx₁⟩ := convex c.x step.1 (by omega) (by omega) h₁ h₂
  obtain ⟨hy₀, hy₁⟩ := convex c.y step.2 (by omega) (by omega) h₃ h₄
  exact ⟨hx₀, hx₁, hy₀, hy₁⟩

/-- A ray lists the cells at distance `1, 2, …` up to its length. -/
lemma getElem?_ray (c : Cell) (step : ℤ × ℤ) {k n : ℕ} (h : k < n) :
    (c.ray step n)[k]? = c.offset step (k + 1) := by
  induction n generalizing c k with
  | zero => omega
  | succ n ih =>
      rw [ray]
      cases hc : c.offset step 1 with
      | none =>
          by_contra hne
          exact offset_one_ne_none (n := k) (Ne.symm (by simpa using hne)) hc
      | some d =>
          cases k with
          | zero => simp [hc]
          | succ k =>
              rw [List.getElem?_cons_succ, ih d (by omega), offset_offset hc]
              congr 1
              push_cast
              ring

/-- The first cells of a ray are the short walks. -/
lemma mem_take_ray {c a : Cell} {step : ℤ × ℤ} {m n : ℕ} (h : m ≤ n) :
    a ∈ (c.ray step n).take m ↔ ∃ k < m, c.offset step ((k : ℤ) + 1) = some a := by
  rw [List.mem_iff_getElem?]
  constructor
  · rintro ⟨k, hk⟩
    rw [List.getElem?_take] at hk
    split_ifs at hk with hkm
    · exact ⟨k, hkm, by rw [← getElem?_ray c step (show k < n by omega), hk]⟩
  · rintro ⟨k, hkm, hk⟩
    refine ⟨k, ?_⟩
    rw [List.getElem?_take, if_pos hkm, getElem?_ray c step (by omega), hk]

end Cell

namespace Direction

/-- A walk of `n` steps stays on the line and raises the bit by `n`. -/
lemma offset_eq_some_iff {d : Direction} {c e : Cell} {n : ℤ} :
    c.offset d.step n = some e ↔ d.line e = d.line c ∧ (d.bit e : ℤ) = d.bit c + n := by
  have hcx := c.x_lt
  have hex := e.x_lt
  rw [Cell.offset_eq_some_iff]
  cases d <;> simp only [step, line, bit, Fin.mk.injEq] <;> omega

/-- The word of a line has exactly the bits between the first and the last cell. -/
lemma testBit_lineMask (d : Direction) (l k : ℕ) :
    (d.lineMask l).testBit k = true ↔ (d.extent l).1 ≤ k ∧ k ≤ (d.extent l).2 := by
  rw [lineMask]
  rcases d.extent l with ⟨low, high⟩
  show ((1 <<< (high + 1 - low) - 1) <<< low).testBit k = true ↔ low ≤ k ∧ k ≤ high
  rw [Nat.testBit_shiftLeft, Nat.one_shiftLeft, Nat.testBit_two_pow_sub_one]
  simp only [Bool.and_eq_true, decide_eq_true_eq]
  omega

/-- The bits of a line lie among the lowest 19. -/
lemma lineMask_lt (d : Direction) (l : ℕ) : d.lineMask l < 2 ^ 19 := by
  refine Nat.lt_pow_two_of_testBit _ fun k hk => ?_
  rw [Bool.eq_false_iff, Ne, testBit_lineMask]
  cases d <;> simp only [extent] <;> omega

/-- On the line through a cell the bits of the board are the walks that stay on it. -/
lemma testBit_lineMask_line (d : Direction) (c : Cell) (n : ℤ) (k : ℕ)
    (hk : (k : ℤ) = d.bit c + n) :
    (d.lineMask (d.line c)).testBit k = true ↔ c.offset d.step n ≠ none := by
  have hcx := c.x_lt
  have hcy := c.y_lt
  rw [testBit_lineMask, Ne, Cell.offset_eq_none_iff, not_not, OnBoard]
  cases d <;> simp only [extent, step, line, bit] at hk ⊢ <;> omega

end Direction

end FiveInRow
