import Mathlib.Tactic
import FiveInRow.Line.Run

/-!
The erosion of `longestRun` measures runs: a word has a run of `n` consecutive set bits if and only
if its longest run is at least `n`. A word of 32 bits can be eroded from either end of its runs, in
equally many rounds.

* `lt_longestRun_iff`: runs are found by erosion;
* `testBit_erodeUp_iterate`: the bits that are left after some rounds are the upper ends of windows;
* `erodeUp_iterate_eq_zero_iff`: the rounds from the lower ends count the longest run as well;
* `longestRun_exact`: the longest run of a word of 32 bits.
-/

namespace FiveInRow

lemma testBit_erode (w k : ℕ) :
    (w &&& w >>> 1).testBit k = (w.testBit k && w.testBit (k + 1)) := by
  rw [Nat.testBit_and, Nat.testBit_shiftRight, Nat.add_comm 1 k]

lemma longestRun_of_ne_zero {w : ℕ} (h : w ≠ 0) :
    longestRun w = longestRun (w &&& w >>> 1) + 1 := by
  rw [longestRun, dif_neg h]

lemma longestRun_pos_iff {w : ℕ} : 0 < longestRun w ↔ w ≠ 0 := by
  by_cases hw : w = 0
  · simp [hw, longestRun]
  · simp [hw, longestRun_of_ne_zero hw]

lemma ne_zero_of_testBit {w i : ℕ} (h : w.testBit i = true) : w ≠ 0 := by
  rintro rfl
  simp at h

/-- The bits of a number below a power of two. -/
lemma lt_of_testBit {m n k : ℕ} (hm : m < 2 ^ n) (h : m.testBit k = true) : k < n :=
  (Nat.pow_lt_pow_iff_right (by decide)).mp ((Nat.ge_two_pow_of_testBit h).trans_lt hm)

/-- **Runs are found by erosion**: the longest run has length at least `n + 1` if and only if some
`n + 1` consecutive bits are set. One erosion turns a run of `n + 1` bits into one of `n` bits. -/
lemma lt_longestRun_iff (n w : ℕ) :
    n < longestRun w ↔ ∃ i, ∀ j < n + 1, w.testBit (i + j) = true := by
  induction n generalizing w with
  | zero =>
      rw [longestRun_pos_iff]
      refine ⟨fun hw => ?_, fun ⟨i, hi⟩ => ne_zero_of_testBit (hi 0 (by omega))⟩
      obtain ⟨i, hi⟩ := Nat.exists_testBit_of_ne_zero hw
      refine ⟨i, fun j hj => ?_⟩
      obtain rfl : j = 0 := by omega
      exact hi
  | succ n ih =>
      refine ⟨fun h => ?_, fun ⟨i, hi⟩ => ?_⟩
      · have hw : w ≠ 0 := longestRun_pos_iff.mp (by omega)
        rw [longestRun_of_ne_zero hw, Nat.add_lt_add_iff_right, ih] at h
        obtain ⟨i, hi⟩ := h
        simp only [testBit_erode, Bool.and_eq_true] at hi
        refine ⟨i, fun j hj => ?_⟩
        rcases Nat.lt_succ_iff_lt_or_eq.mp hj with hj | rfl
        · exact (hi j hj).1
        · exact (hi n (by omega)).2
      · have hw : w ≠ 0 := ne_zero_of_testBit (hi 0 (by omega))
        rw [longestRun_of_ne_zero hw, Nat.add_lt_add_iff_right, ih]
        refine ⟨i, fun j hj => ?_⟩
        rw [testBit_erode, Bool.and_eq_true]
        exact ⟨hi j (by omega), hi (j + 1) (by omega)⟩

/-! ### Words of 32 bits -/

/-- Erode a word from the lower ends of its runs: a bit stays if the one below it is set. -/
def erodeUp (bits : UInt32) : UInt32 := bits &&& bits <<< 1

/-- A bit that stays is one whose lower neighbour is set. The highest bit, which the shift drops, is
nobody's lower neighbour. -/
lemma testBit_erodeUp (bits : UInt32) (i : ℕ) :
    (erodeUp bits).toNat.testBit i = true ↔
      ∃ k, k + 1 = i ∧ bits.toNat.testBit k = true ∧ bits.toNat.testBit i = true := by
  have hword : (erodeUp bits).toNat = bits.toNat &&& bits.toNat <<< 1 % 2 ^ 32 := by
    rw [erodeUp, UInt32.toNat_and, UInt32.toNat_shiftLeft]
    rfl
  rw [hword, Nat.testBit_and, Nat.testBit_mod_two_pow, Nat.testBit_shiftLeft]
  simp only [Bool.and_eq_true, decide_eq_true_eq]
  constructor
  · rintro ⟨hi, -, hpos, hk⟩
    exact ⟨i - 1, by omega, hk, hi⟩
  · rintro ⟨k, rfl, hk, hi⟩
    exact ⟨hi, lt_of_testBit bits.toNat_lt hi, by omega, hk⟩

/-- **What some rounds leave**: the bits at the upper ends of windows of set bits. Every round makes
the windows longer by one. -/
lemma testBit_erodeUp_iterate (n : ℕ) (bits : UInt32) (i : ℕ) :
    (erodeUp^[n] bits).toNat.testBit i = true ↔
      ∃ k, k + n = i ∧ ∀ j < n + 1, bits.toNat.testBit (k + j) = true := by
  induction n generalizing i with
  | zero => simp
  | succ n ih =>
      rw [Function.iterate_succ_apply', testBit_erodeUp]
      simp only [ih]
      constructor
      · rintro ⟨_, rfl, ⟨k, rfl, hk⟩, k', hnext, hk'⟩
        obtain rfl : k' = k + 1 := by omega
        refine ⟨k, by omega, fun j hj => ?_⟩
        rcases Nat.lt_succ_iff_lt_or_eq.mp hj with hj | rfl
        · exact hk j hj
        · rw [Nat.add_comm n 1, ← Nat.add_assoc]
          exact hk' n (Nat.lt_succ_self n)
      · rintro ⟨k, rfl, hk⟩
        refine ⟨k + n, by omega, ⟨k, rfl, fun j hj => hk j (by omega)⟩, k + 1, by omega,
          fun j hj => ?_⟩
        rw [Nat.add_assoc, Nat.add_comm 1 j]
        exact hk (j + 1) (by omega)

/-- **The rounds from the lower ends count the longest run as well.** -/
lemma erodeUp_iterate_eq_zero_iff (n : ℕ) (bits : UInt32) :
    erodeUp^[n] bits = 0 ↔ longestRun bits.toNat ≤ n := by
  rw [← not_lt, lt_longestRun_iff, iff_not_comm, ← UInt32.toNat_inj]
  constructor
  · rintro ⟨k, hk⟩
    exact ne_zero_of_testBit ((testBit_erodeUp_iterate n bits (k + n)).mpr ⟨k, rfl, hk⟩)
  · intro hne
    obtain ⟨i, hi⟩ := Nat.exists_testBit_of_ne_zero hne
    obtain ⟨k, -, hk⟩ := (testBit_erodeUp_iterate n bits i).mp hi
    exact ⟨k, hk⟩

/-- A window of set bits lies inside the word. -/
lemma le_longestRun_iff (k : ℕ) (bits : UInt32) :
    k ≤ longestRun bits.toNat ↔
      ∃ i, i + k ≤ 32 ∧ ∀ j < k, bits.toNat.testBit (i + j) = true := by
  cases k with
  | zero => exact iff_of_true (Nat.zero_le _) ⟨0, Nat.zero_le _, nofun⟩
  | succ k =>
      rw [Nat.succ_le_iff, lt_longestRun_iff]
      refine exists_congr fun i => ⟨fun hi => ⟨?_, hi⟩, fun hi => hi.2⟩
      have := lt_of_testBit bits.toNat_lt (hi k (Nat.lt_succ_self k))
      omega

/-- **The longest run of a word of 32 bits.** It is the greatest number of consecutive positions of
the word whose bits are all set, so that some `k` consecutive bits are set if and only if it is at
least `k`; it is zero for the empty word alone. Eroding the word from the lower ends of its runs, by
`bits &&& bits <<< 1` until nothing is left, comes to an end, and after just as many rounds. -/
theorem longestRun_exact (bits : UInt32) :
    IsGreatest {l | ∃ i, i + l ≤ 32 ∧ ∀ j < l, bits.toNat.testBit (i + j) = true}
      (longestRun bits.toNat) ∧
    (∀ k, k ≤ longestRun bits.toNat ↔
      ∃ i, i + k ≤ 32 ∧ ∀ j < k, bits.toNat.testBit (i + j) = true) ∧
    (longestRun bits.toNat = 0 ↔ bits = 0) ∧
    IsLeast {n | erodeUp^[n] bits = 0} (longestRun bits.toNat) := by
  refine ⟨⟨(le_longestRun_iff _ bits).mp le_rfl, fun l hl => (le_longestRun_iff l bits).mpr hl⟩,
    fun k => le_longestRun_iff k bits, ?_, (erodeUp_iterate_eq_zero_iff _ bits).mpr le_rfl,
    fun n hn => (erodeUp_iterate_eq_zero_iff n bits).mp hn⟩
  rw [← Nat.le_zero]
  exact (erodeUp_iterate_eq_zero_iff 0 bits).symm

/-- Runs at both ends of a word: five bits from the lowest one on, and six up to the highest one. -/
theorem longestRun_exact_bothEnds :
    longestRun (0xfc00001f : UInt32).toNat = 6 ∧ erodeUp^[6] (0xfc00001f : UInt32) = 0 ∧
    (∃ i, i + 6 ≤ 32 ∧ ∀ j < 6, (0xfc00001f : UInt32).toNat.testBit (i + j) = true) ∧
    ¬∃ i, i + 7 ≤ 32 ∧ ∀ j < 7, (0xfc00001f : UInt32).toNat.testBit (i + j) = true := by
  have hsix : longestRun (0xfc00001f : UInt32).toNat = 6 := by decide +kernel
  obtain ⟨-, hruns, -, hleast⟩ := longestRun_exact 0xfc00001f
  rw [hsix] at hruns hleast
  refine ⟨hsix, hleast.1, (hruns 6).mp le_rfl, fun h => ?_⟩
  exact absurd ((hruns 7).mpr h) (by decide)

end FiveInRow
