import Mathlib.Tactic
import FiveInRow.Pattern.LineView
import FiveInRow.Proofs.Pattern.Window

/-!
Patterns are local. Wherever a pattern is laid on the words of a line, it reads the nine bits around
the candidate and nothing else, so the words can be replaced by a window of nine bits.

* `Component.liesOn_ofMask_iff`: laid at a bit, a mask over a window reads the bits of the window;
* `LineView.hasSupport_iff`: the test for support reads the same bits;
* `LineView.strongest?_eq_find?`: the test never hides a pattern;
* `LineView.Alike.strongest?_eq`: views that are alike at nine bits show the same pattern;
* `LineView.strongest?_ofWords_eq_window`: the words and the window of a line show the same pattern.
-/

namespace FiveInRow

/-! ### Bits of words -/

lemma toNat_ofNat_of_lt {n : ℕ} (hn : n < 2 ^ 64) : (UInt64.ofNat n).toNat = n :=
  UInt64.toNat_ofNat_of_lt' hn

lemma testBit_ushiftRight (word : UInt64) {n : ℕ} (hn : n < 64) (k : ℕ) :
    (word >>> .ofNat n).toNat.testBit k = word.toNat.testBit (n + k) := by
  rw [UInt64.toNat_shiftRight, toNat_ofNat_of_lt (by omega), Nat.mod_eq_of_lt hn,
    Nat.testBit_shiftRight]

lemma testBit_complement (word : UInt64) (k : ℕ) :
    (~~~word).toNat.testBit k = (decide (k < 64) && !word.toNat.testBit k) := by
  rw [UInt64.toNat_not, show UInt64.size - 1 - word.toNat = 2 ^ 64 - (word.toNat + 1) by
    rw [UInt64.size]; omega]
  exact Nat.testBit_two_pow_sub_succ word.toNat_lt k

/-! ### Masks -/

namespace Component

variable {mask pos : ℕ} {word : UInt64}

/-- A mask without its lowest bits, laid that much higher. -/
lemma liesOn_shifted_iff (hmask : mask < 2 ^ 9) {low : ℕ} (hlow : 4 ≤ pos + low)
    (hhigh : pos + low - 4 < 64) :
    (Component.mk (.ofNat (mask >>> low)) ((low : ℤ) - 4)).liesOn word pos = true ↔
      ∀ k, mask.testBit (low + k) = true → word.toNat.testBit (pos + low - 4 + k) = true := by
  have hoffset : (offset ⟨.ofNat (mask >>> low), (low : ℤ) - 4⟩ pos).toNat = pos + low - 4 := by
    show ((pos : ℤ) + ((low : ℤ) - 4)).toNat = _
    omega
  have hbits (k : ℕ) : (UInt64.ofNat (mask >>> low)).toNat.testBit k = mask.testBit (low + k) := by
    have hle : mask >>> low ≤ mask := Nat.shiftRight_le mask low
    rw [toNat_ofNat_of_lt (by omega), Nat.testBit_shiftRight]
  rw [liesOn, beq_iff_eq, ← UInt64.toNat_inj, UInt64.toNat_and, ← beq_iff_eq,
    and_eq_right_iff_testBit, hoffset]
  simp only [hbits, testBit_ushiftRight word hhigh]

/-- **Laid at a bit, a mask over a window reads the nine bits around it.** -/
lemma liesOn_ofMask_iff (hmask : mask < 2 ^ 9) (hlow : 4 ≤ pos) (hhigh : pos + 4 < 64) :
    (ofMask mask).liesOn word pos = true ↔
      ∀ i < 9, mask.testBit i = true → word.toNat.testBit (pos + i - 4) = true := by
  rw [ofMask, Pattern.trim]
  cases hfirst : (List.range 9).find? mask.testBit with
  | none =>
      rw [List.find?_eq_none] at hfirst
      refine iff_of_true ?_ fun i hi hset => absurd hset (hfirst i (List.mem_range.mpr hi))
      exact beq_iff_eq.mpr UInt64.and_zero
  | some low =>
      obtain ⟨-, hlow9, hbelow⟩ := List.find?_range_eq_some.mp hfirst
      rw [List.mem_range] at hlow9
      rw [liesOn_shifted_iff hmask (by omega) (by omega)]
      constructor
      · intro h i _ hi
        have hle : low ≤ i := by
          by_contra hlt
          have hclear := hbelow i (by omega)
          rw [hi] at hclear
          cases hclear
        have hread := h (i - low) (by rwa [show low + (i - low) = i by omega])
        rwa [show pos + low - 4 + (i - low) = pos + i - 4 by omega] at hread
      · intro h k hk
        have hread := h (low + k) (lt_of_testBit hmask hk) hk
        rwa [show pos + (low + k) - 4 = pos + low - 4 + k by omega] at hread

end Component

/-! ### Views -/

namespace LineView

variable {v w : LineView} {p : Pattern}

/-- The nine bits around the candidate are bits of the words. -/
structure InWord (v : LineView) : Prop where
  low : 4 ≤ v.pos
  high : v.pos + 4 < 64

lemma inWord_ofWords (own enemy board : UInt32) {bit : ℕ} (hbit : bit < 32) :
    (ofWords own enemy board bit).InWord where
  low := by
    show 4 ≤ bit + 8
    omega
  high := by
    show bit + 8 + 4 < 64
    omega

/-- What a pattern asks of the nine bits around the candidate. -/
lemma InWord.shows_laid_iff (h : v.InWord) (hp : p ∈ patterns) :
    v.shows p.laid = true ↔
      (∀ i < 9, p.stones.testBit i = true → v.own.toNat.testBit (v.pos + i - 4) = true) ∧
      (∀ i < 9, p.free.testBit i = true → v.free.toNat.testBit (v.pos + i - 4) = true) ∧
      ∀ i < 9, p.walls.testBit i = true → v.blocked.toNat.testBit (v.pos + i - 4) = true := by
  obtain ⟨hstones, hfree, hwalls, -⟩ := Pattern.masks_lt hp
  rw [shows, Bool.and_eq_true, Bool.and_eq_true, and_assoc, Pattern.laid,
    Component.liesOn_ofMask_iff hstones h.low h.high,
    Component.liesOn_ofMask_iff hfree h.low h.high,
    Component.liesOn_ofMask_iff hwalls h.low h.high]

/-- The test for support reads the same nine bits. -/
lemma InWord.hasSupport_iff (h : v.InWord) :
    v.hasSupport = true ↔ ∃ i < 9, v.own.toNat.testBit (v.pos + i - 4) = true := by
  obtain ⟨hlow, hhigh⟩ := h
  have hmask : ((1 : UInt64) <<< .ofNat (2 * reach + 1) - 1).toNat = 2 ^ 9 - 1 := by decide
  have hread (k : ℕ) : ((v.own >>> .ofNat (v.pos - reach)) &&&
      ((1 : UInt64) <<< .ofNat (2 * reach + 1) - 1)).toNat.testBit k =
        (v.own.toNat.testBit (v.pos + k - 4) && decide (k < 9)) := by
    rw [UInt64.toNat_and, hmask, Nat.testBit_and, Nat.testBit_two_pow_sub_one, reach,
      testBit_ushiftRight v.own (by omega), show v.pos - 4 + k = v.pos + k - 4 by omega]
  rw [hasSupport, bne_iff_ne, Ne, ← UInt64.toNat_inj]
  constructor
  · intro hne
    obtain ⟨k, hk⟩ := Nat.exists_testBit_of_ne_zero hne
    rw [hread, Bool.and_eq_true, decide_eq_true_iff] at hk
    exact ⟨k, hk.2, hk.1⟩
  · rintro ⟨i, hi, hset⟩ hzero
    have hbit := hread i
    rw [hzero, hset, decide_eq_true hi] at hbit
    simp at hbit

/-- **The test for support never hides a pattern.** -/
lemma InWord.strongest?_eq_find? (h : v.InWord) :
    v.strongest? = patterns.find? fun p => v.shows p.laid := by
  have hfind : (laidPatterns.find? v.shows).map (·.pattern) =
      patterns.find? fun p => v.shows p.laid := by
    rw [laidPatterns, List.find?_map, Option.map_map]
    exact Option.map_id_apply
  rw [strongest?, hfind]
  split_ifs with hsupport
  · rfl
  · rw [eq_comm, List.find?_eq_none]
    intro p hp hshows
    obtain ⟨-, -, -, i, hi, hset⟩ := Pattern.masks_lt hp
    exact hsupport (h.hasSupport_iff.mpr ⟨i, hi, ((h.shows_laid_iff hp).mp hshows).1 i hi hset⟩)

/-- Two views are alike: the bits from four below the candidate to four above it are the same. -/
structure Alike (v w : LineView) : Prop where
  own : ∀ i < 9, v.own.toNat.testBit (v.pos + i - 4) = w.own.toNat.testBit (w.pos + i - 4)
  free : ∀ i < 9, v.free.toNat.testBit (v.pos + i - 4) = w.free.toNat.testBit (w.pos + i - 4)
  blocked : ∀ i < 9,
    v.blocked.toNat.testBit (v.pos + i - 4) = w.blocked.toNat.testBit (w.pos + i - 4)

/-- **Views that are alike show the same pattern.** -/
lemma Alike.strongest?_eq (h : v.Alike w) (hv : v.InWord) (hw : w.InWord) :
    v.strongest? = w.strongest? := by
  rw [hv.strongest?_eq_find?, hw.strongest?_eq_find?]
  refine List.find?_congr fun p hp => Bool.eq_iff_iff.mpr ?_
  rw [hv.shows_laid_iff hp, hw.shows_laid_iff hp]
  exact and_congr (forall₂_congr fun i hi => by rw [h.own i hi])
    (and_congr (forall₂_congr fun i hi => by rw [h.free i hi])
      (forall₂_congr fun i hi => by rw [h.blocked i hi]))

/-! ### The words of a line -/

variable {own enemy board own' enemy' board' : UInt32} {bit bit' i : ℕ}

lemma testBit_padded (w : UInt32) {k : ℕ} (hk : k < 64) :
    (w.toUInt64 <<< .ofNat pad).toNat.testBit k = (decide (8 ≤ k) && w.toNat.testBit (k - 8)) := by
  rw [UInt64.toNat_shiftLeft, UInt32.toNat_toUInt64, toNat_ofNat_of_lt (by decide),
    Nat.testBit_mod_two_pow, decide_eq_true hk, Bool.true_and, pad, Nat.testBit_shiftLeft]

/-- The bits of a word around a candidate: the padding below the line is empty. -/
lemma testBit_padded_around (w : UInt32) (hbit : bit < 32) (hi : i < 9) :
    (w.toUInt64 <<< .ofNat pad).toNat.testBit (bit + pad + i - 4) =
      (decide (4 ≤ bit + i) && w.toNat.testBit (bit + i - 4)) := by
  have hk : bit + 8 + i - 4 < 64 := by omega
  have hbelow : decide (8 ≤ bit + 8 + i - 4) = decide (4 ≤ bit + i) :=
    decide_eq_decide.mpr (by omega)
  rw [show bit + pad + i - 4 = bit + 8 + i - 4 from rfl, testBit_padded w hk, hbelow,
    show bit + 8 + i - 4 - 8 = bit + i - 4 by omega]

lemma testBit_own_ofWords (hbit : bit < 32) (hi : i < 9) :
    (ofWords own enemy board bit).own.toNat.testBit
        ((ofWords own enemy board bit).pos + i - 4) =
      (decide (4 ≤ bit + i) && own.toNat.testBit (bit + i - 4)) :=
  testBit_padded_around own hbit hi

lemma testBit_free_ofWords (hbit : bit < 32) (hi : i < 9) :
    (ofWords own enemy board bit).free.toNat.testBit
        ((ofWords own enemy board bit).pos + i - 4) =
      ((decide (4 ≤ bit + i) && board.toNat.testBit (bit + i - 4)) &&
        !((decide (4 ≤ bit + i) && own.toNat.testBit (bit + i - 4)) ||
          (decide (4 ≤ bit + i) && enemy.toNat.testBit (bit + i - 4)))) := by
  have hk : bit + pad + i - 4 < 64 := by
    rw [pad]
    omega
  dsimp only [ofWords]
  rw [UInt64.toNat_and, Nat.testBit_and, testBit_complement, decide_eq_true hk, Bool.true_and,
    UInt64.toNat_or, Nat.testBit_or, testBit_padded_around own hbit hi,
    testBit_padded_around enemy hbit hi, testBit_padded_around board hbit hi]

lemma testBit_blocked_ofWords (hbit : bit < 32) (hi : i < 9) :
    (ofWords own enemy board bit).blocked.toNat.testBit
        ((ofWords own enemy board bit).pos + i - 4) =
      ((decide (4 ≤ bit + i) && enemy.toNat.testBit (bit + i - 4)) ||
        !(decide (4 ≤ bit + i) && board.toNat.testBit (bit + i - 4))) := by
  have hk : bit + pad + i - 4 < 64 := by
    rw [pad]
    omega
  dsimp only [ofWords]
  rw [UInt64.toNat_or, Nat.testBit_or, testBit_complement, decide_eq_true hk, Bool.true_and,
    testBit_padded_around enemy hbit hi, testBit_padded_around board hbit hi]

/-- Words that agree around a bit give views that are alike. -/
lemma alike_ofWords (hbit : bit < 32)
    (h : ∀ k < 32, k ≤ bit + 4 → bit ≤ k + 4 →
      own.toNat.testBit k = own'.toNat.testBit k ∧
      enemy.toNat.testBit k = enemy'.toNat.testBit k ∧
      board.toNat.testBit k = board'.toNat.testBit k) :
    (ofWords own enemy board bit).Alike (ofWords own' enemy' board' bit) := by
  have hout (x : UInt32) {k : ℕ} (hk : 32 ≤ k) : x.toNat.testBit k = false :=
    Nat.testBit_lt_two_pow (x.toNat_lt.trans_le (Nat.pow_le_pow_right (by omega) hk))
  have hall : ∀ i < 9, 4 ≤ bit + i →
      own.toNat.testBit (bit + i - 4) = own'.toNat.testBit (bit + i - 4) ∧
      enemy.toNat.testBit (bit + i - 4) = enemy'.toNat.testBit (bit + i - 4) ∧
      board.toNat.testBit (bit + i - 4) = board'.toNat.testBit (bit + i - 4) := by
    intro i hi h4
    by_cases hk : bit + i - 4 < 32
    · exact h _ hk (by omega) (by omega)
    · simp only [hout _ (show 32 ≤ bit + i - 4 by omega), and_self]
  constructor <;> intro i hi <;> by_cases h4 : 4 ≤ bit + i
  · rw [testBit_own_ofWords hbit hi, testBit_own_ofWords hbit hi, (hall i hi h4).1]
  · simp only [testBit_own_ofWords hbit hi, h4, decide_false, Bool.false_and]
  · obtain ⟨hown, henemy, hboard⟩ := hall i hi h4
    rw [testBit_free_ofWords hbit hi, testBit_free_ofWords hbit hi, hown, henemy, hboard]
  · simp only [testBit_free_ofWords hbit hi, h4, decide_false, Bool.false_and]
  · obtain ⟨-, henemy, hboard⟩ := hall i hi h4
    rw [testBit_blocked_ofWords hbit hi, testBit_blocked_ofWords hbit hi, henemy, hboard]
  · simp only [testBit_blocked_ofWords hbit hi, h4, decide_false, Bool.false_and]

end LineView

/-- **The words of a line and its window show the same pattern.** -/
lemma LineView.strongest?_ofWords_eq_window (own enemy board : UInt32) {bit : ℕ} (hbit : bit < 32) :
    (ofWords own enemy board bit).strongest? =
      (Window.around own.toNat enemy.toNat board.toNat bit).strongest? := by
  have hin := inWord_ofWords own enemy board hbit
  rw [hin.strongest?_eq_find?, Window.strongest?_eq_find?]
  refine List.find?_congr fun p hp => Bool.eq_iff_iff.mpr ?_
  rw [hin.shows_laid_iff hp, Window.fits_iff hp]
  refine and_congr (forall₂_congr fun i hi => ?_)
    (and_congr (forall₂_congr fun i hi => ?_) (forall₂_congr fun i hi => ?_))
  · rw [testBit_own_ofWords hbit hi, Window.testBit_own_around _ _ _ _ hi]
  · rw [testBit_free_ofWords hbit hi, Window.testBit_free_eq _ hi,
      Window.testBit_own_around _ _ _ _ hi, Window.testBit_blocked_around _ _ _ _ hi]
    cases decide (4 ≤ bit + i) && own.toNat.testBit (bit + i - 4) <;>
      cases decide (4 ≤ bit + i) && enemy.toNat.testBit (bit + i - 4) <;>
        cases decide (4 ≤ bit + i) && board.toNat.testBit (bit + i - 4) <;> rfl
  · rw [testBit_blocked_ofWords hbit hi, Window.testBit_blocked_around _ _ _ _ hi, Bool.or_comm]

/-! ### What a view depends on -/

namespace LineView

variable {own enemy board : UInt32} {bit : ℕ}

/-- The bits that a pattern of the table reads are within reach of the candidate. -/
lemma within_of_testBit {p : LaidPattern} (hp : p ∈ laidPatterns) {m : Component}
    (hm : m ∈ [p.stones, p.free, p.walls]) :
    -4 ≤ m.shift ∧ m.shift ≤ 4 ∧ ∀ k, m.mask.toNat.testBit k = true → m.shift + k ≤ 4 := by
  have hall : ∀ p ∈ laidPatterns, ∀ m ∈ [p.stones, p.free, p.walls],
      -4 ≤ m.shift ∧ m.shift ≤ 4 ∧ m.mask.toNat < 2 ^ (5 - m.shift).toNat := by decide +kernel
  obtain ⟨hlow, hhigh, hmask⟩ := hall p hp m hm
  refine ⟨hlow, hhigh, fun k hk => ?_⟩
  have hlt := lt_of_testBit hmask hk
  omega

/-- A word with one more stone. -/
def withStone (word : UInt32) (far : ℕ) : UInt32 := word ||| (1 : UInt32) <<< .ofNat far

lemma testBit_withStone (word : UInt32) {far k : ℕ} (hfar : far < 32) (hk : far ≠ k) :
    (withStone word far).toNat.testBit k = word.toNat.testBit k := by
  have hone : ((1 : UInt32) <<< .ofNat far).toNat = 2 ^ far := by
    have hlt : 2 ^ far < 2 ^ 32 := Nat.pow_lt_pow_right (by decide) hfar
    rw [UInt32.toNat_shiftLeft, UInt32.toNat_ofNat_of_lt' (by rw [UInt32.size]; omega),
      Nat.mod_eq_of_lt hfar, UInt32.toNat_one, Nat.one_shiftLeft, Nat.mod_eq_of_lt hlt]
  rw [withStone, UInt32.toNat_or, Nat.testBit_or, hone, Nat.testBit_two_pow, decide_eq_false hk,
    Bool.or_false]

/-- **A stone out of reach is not seen**, whoever placed it. -/
lemma strongest?_withStone {far : ℕ} (hbit : bit < 32) (hfar : far < 32)
    (hout : far + 4 < bit ∨ bit + 4 < far) :
    (ofWords (withStone own far) enemy board bit).strongest? =
        (ofWords own enemy board bit).strongest? ∧
      (ofWords own (withStone enemy far) board bit).strongest? =
        (ofWords own enemy board bit).strongest? := by
  constructor
  · refine (alike_ofWords hbit fun k _ hhigh hlow => ⟨?_, rfl, rfl⟩).strongest?_eq
      (inWord_ofWords _ _ _ hbit) (inWord_ofWords _ _ _ hbit)
    exact testBit_withStone own hfar (by omega)
  · refine (alike_ofWords hbit fun k _ hhigh hlow => ⟨rfl, ?_, rfl⟩).strongest?_eq
      (inWord_ofWords _ _ _ hbit) (inWord_ofWords _ _ _ hbit)
    exact testBit_withStone enemy hfar (by omega)

end LineView

end FiveInRow
