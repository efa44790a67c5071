import Mathlib.Tactic
import FiveInRow.Proofs.Grid.Lines
import FiveInRow.Proofs.Pattern.Drawn

/-!
What the patterns mean. The shapes of a line are told by its runs alone, with no regard to the
templates; and the pattern that is found is of the first shape that a stone makes.

* `Line.put`, `Line.IsRun`, `Line.exists_isRun`: the longest rows of own stones of a line;
* `Line.Makes`: the shapes that a stone on a place makes;
* `Line.makes_of_draws`: what the table draws around an empty place, a stone there makes;
* `Line.draws_of_makes`: and what a stone makes the table draws, or it draws a five;
* `Line.shapes_around`: the window at an empty place shows the first shape that is made;
* `Line.shapes_exact`: the pattern that is found on the words of a line of the board.
-/

namespace FiveInRow

namespace Line

variable {line : Line} {b e k lo hi : ℤ} {f : Family}

/-! ### Runs -/

/-- The line with one more own stone. -/
def put (line : Line) (b : ℤ) : Line := Function.update line b .stone

lemma put_eq_stone_iff : line.put b k = .stone ↔ k = b ∨ line k = .stone := by
  rw [put, Function.update_apply]
  split_ifs with h
  · exact iff_of_true rfl (.inl h)
  · exact (or_iff_right h).symm

/-- The places from `lo` up to `hi`, place `b` among them and `hi` not, hold own stones, and the
places next to them on both sides do not. -/
structure IsRun (line : Line) (b lo hi : ℤ) : Prop where
  low : lo ≤ b
  high : b < hi
  stones : ∀ k, lo ≤ k → k < hi → line k = .stone
  below : line (lo - 1) ≠ .stone
  above : line hi ≠ .stone

/-- There is no own stone far out. -/
def Bounded (line : Line) : Prop := ∃ n : ℕ, ∀ k : ℤ, line k = .stone → k.natAbs < n

lemma Bounded.put (h : line.Bounded) (b : ℤ) : (line.put b).Bounded := by
  obtain ⟨n, hn⟩ := h
  refine ⟨max n (b.natAbs + 1), fun k hk => ?_⟩
  rcases put_eq_stone_iff.mp hk with rfl | hk
  · omega
  · have := hn k hk
    omega

/-- The own stones of words are bits of a word. -/
lemma bounded_ofWords (own enemy board : ℕ) : (ofWords own enemy board).Bounded := by
  refine ⟨own, fun k hk => ?_⟩
  rw [ofWords] at hk
  split_ifs at hk with hneg hstone
  have hle := Nat.ge_two_pow_of_testBit hstone
  have hlt := Nat.lt_two_pow_self (n := k.toNat)
  omega

/-- **A row of own stones is part of a run.** -/
lemma exists_isRun (h : line.Bounded) (hlo : lo ≤ b) (hhi : b < hi)
    (hstones : ∀ k, lo ≤ k → k < hi → line k = .stone) :
    ∃ lo' hi', line.IsRun b lo' hi' ∧ lo' ≤ lo ∧ hi ≤ hi' := by
  obtain ⟨n, hn⟩ := h
  -- walking away from the row, one comes to a place without a stone
  have hdown : ∃ m : ℕ, line (lo - 1 - m) ≠ .stone :=
    ⟨n + lo.natAbs, fun hstone => by have := hn _ hstone; omega⟩
  have hup : ∃ m : ℕ, line (hi + m) ≠ .stone :=
    ⟨n + hi.natAbs, fun hstone => by have := hn _ hstone; omega⟩
  classical
  refine ⟨lo - Nat.find hdown, hi + Nat.find hup, ⟨by omega, by omega, fun k hk hk' => ?_, ?_, ?_⟩,
    by omega, by omega⟩
  · by_cases hbelow : k < lo
    · have hnot := Nat.find_min hdown (m := (lo - 1 - k).toNat) (by omega)
      rw [not_not, show lo - 1 - ((lo - 1 - k).toNat : ℤ) = k by omega] at hnot
      exact hnot
    · by_cases habove : hi ≤ k
      · have hnot := Nat.find_min hup (m := (k - hi).toNat) (by omega)
        rw [not_not, show hi + ((k - hi).toNat : ℤ) = k by omega] at hnot
        exact hnot
      · exact hstones k (by omega) (by omega)
  · have hend := Nat.find_spec hdown
    rwa [show lo - 1 - (Nat.find hdown : ℤ) = lo - Nat.find hdown - 1 by omega] at hend
  · exact Nat.find_spec hup

/-! ### Shapes -/

/-- The shapes that a stone on place `b` makes:
* a five is a run of five or more;
* an open four is a run of four with an empty cell on either side;
* a four leaves an empty cell that makes it a five;
* an open three leaves an empty cell that makes it an open four;
* a closed three is a run of three with a wall on one side and two empty cells on the other;
* an open two has another stone next to it or next but one, and both lie inside six cells that are
  otherwise empty. -/
def Makes (line : Line) (b : ℤ) : Family → Prop
  | .five => ∃ lo hi, (line.put b).IsRun b lo hi ∧ 5 ≤ hi - lo
  | .openFour => ∃ lo hi, (line.put b).IsRun b lo hi ∧ hi - lo = 4 ∧
      line (lo - 1) = .empty ∧ line hi = .empty
  | .four => ∃ e, e ≠ b ∧ line e = .empty ∧
      ∃ lo hi, ((line.put b).put e).IsRun b lo hi ∧ lo ≤ e ∧ e < hi ∧ 5 ≤ hi - lo
  | .openThree => ∃ e, e ≠ b ∧ line e = .empty ∧
      ∃ lo hi, ((line.put b).put e).IsRun b lo hi ∧ lo ≤ e ∧ e < hi ∧ hi - lo = 4 ∧
        line (lo - 1) = .empty ∧ line hi = .empty
  | .closedThree => ∃ lo hi, (line.put b).IsRun b lo hi ∧ hi - lo = 3 ∧
      (line (lo - 1) = .wall ∧ line hi = .empty ∧ line (hi + 1) = .empty ∨
        line hi = .wall ∧ line (lo - 1) = .empty ∧ line (lo - 2) = .empty)
  | .openTwo => ∃ e, line e = .stone ∧ ((e - b).natAbs = 1 ∨ (e - b).natAbs = 2) ∧
      ∃ lo, lo < b ∧ b < lo + 5 ∧ lo < e ∧ e < lo + 5 ∧
        ∀ k, lo ≤ k → k < lo + 6 → k ≠ b → k ≠ e → line k = .empty

/-! ### One stone more -/

/-- A stone that fills a gap between own stones makes a run of them. -/
lemma isRun_put (hlo : lo ≤ b) (hhi : b < hi) (hloe : lo ≤ e) (hhie : e < hi)
    (hstones : ∀ k, lo ≤ k → k < hi → k ≠ e → line k = .stone) (hbelow : line (lo - 1) ≠ .stone)
    (habove : line hi ≠ .stone) : (line.put e).IsRun b lo hi := by
  refine ⟨hlo, hhi, fun k hk hk' => put_eq_stone_iff.mpr ?_, ?_, ?_⟩
  · by_cases hke : k = e
    · exact .inl hke
    · exact .inr (hstones k hk hk' hke)
  · rw [Ne, put_eq_stone_iff, not_or]
    exact ⟨by omega, hbelow⟩
  · rw [Ne, put_eq_stone_iff, not_or]
    exact ⟨by omega, habove⟩

/-- A row with a gap becomes part of a run. -/
lemma exists_isRun_put (h : line.Bounded) (hlo : lo ≤ b) (hhi : b < hi)
    (hstones : ∀ k, lo ≤ k → k < hi → k ≠ e → line k = .stone) :
    ∃ lo' hi', (line.put e).IsRun b lo' hi' ∧ lo' ≤ lo ∧ hi ≤ hi' := by
  refine exists_isRun (h.put e) hlo hhi fun k hk hk' => put_eq_stone_iff.mpr ?_
  by_cases hke : k = e
  · exact .inl hke
  · exact .inr (hstones k hk hk' hke)

/-- What is in a run beside the stone that was put was there before. -/
lemma IsRun.stone_of_ne (h : (line.put e).IsRun b lo hi) (hk : lo ≤ k) (hk' : k < hi)
    (hne : k ≠ e) : line k = .stone :=
  (put_eq_stone_iff.mp (h.stones k hk hk')).resolve_left hne

/-! ### The shapes and their rows -/

lemma draws_five (lo : ℤ) (hb : line b = .empty) (hlo : lo ≤ b) (hhi : b < lo + 5)
    (hstones : ∀ k, lo ≤ k → k < lo + 5 → k ≠ b → line k = .stone) : line.Draws b .five := by
  refine draws_iff_row.mpr ⟨lo, b, ⟨by omega, by omega, rfl⟩, fun k hk hk' => ?_⟩
  simp only [Family.rowLength, Family.rowPlace] at hk' ⊢
  split_ifs with hkb
  · rwa [show k = b by omega]
  · exact hstones k hk hk' (by omega)

lemma makes_five_iff (hbound : line.Bounded) (hb : line b = .empty) :
    line.Makes b .five ↔ line.Draws b .five := by
  constructor
  · rintro ⟨lo, hi, hrun, h5⟩
    have hlow := hrun.low
    have hhigh := hrun.high
    -- five places of the run with the stone among them
    exact draws_five (max lo (b - 4)) hb (by omega) (by omega)
      fun k hk hk' hkb => hrun.stone_of_ne (by omega) (by omega) hkb
  · intro h
    obtain ⟨lo, e, ⟨hlo, hhi, -⟩, hrow⟩ := draws_iff_row.mp h
    simp only [Family.rowLength, Family.rowPlace] at hrow
    have hstones : ∀ k, lo ≤ k → k < lo + 5 → k ≠ b → line k = .stone :=
      fun k hk hk' hkb => (hrow k hk hk').trans (if_neg (by omega))
    obtain ⟨lo', hi', hrun, hle, hge⟩ :=
      exists_isRun_put (b := b) hbound (by omega) (by omega) hstones
    exact ⟨lo', hi', hrun, by omega⟩

lemma makes_openFour_iff (hb : line b = .empty) :
    line.Makes b .openFour ↔ line.Draws b .openFour := by
  constructor
  · rintro ⟨lo, hi, hrun, h4, hlow, hhigh⟩
    have hlo := hrun.low
    have hhi := hrun.high
    refine draws_iff_row.mpr ⟨lo - 1, b, ⟨by omega, by omega, rfl⟩, fun k hk hk' => ?_⟩
    simp only [Family.rowLength, Family.rowPlace] at hk' ⊢
    split_ifs with hfree
    · obtain rfl | rfl | rfl : k = lo - 1 ∨ k = hi ∨ k = b := by omega
      · exact hlow
      · exact hhigh
      · exact hb
    · exact hrun.stone_of_ne (by omega) (by omega) (by omega)
  · intro h
    obtain ⟨lo, e, ⟨hlo, hhi, -⟩, hrow⟩ := draws_iff_row.mp h
    simp only [Family.rowLength, Family.rowPlace] at hrow
    have hlow : line lo = .empty := (hrow lo (by omega) (by omega)).trans (if_pos (by omega))
    have hhigh : line (lo + 5) = .empty :=
      (hrow _ (by omega) (by omega)).trans (if_pos (by omega))
    have hrun : (line.put b).IsRun b (lo + 1) (lo + 5) := by
      refine isRun_put (by omega) (by omega) (by omega) (by omega) (fun k hk hk' hkb => ?_) ?_ ?_
      · exact (hrow k (by omega) (by omega)).trans (if_neg (by omega))
      · rw [add_sub_cancel_right, hlow]
        nofun
      · rw [hhigh]
        nofun
    exact ⟨lo + 1, lo + 5, hrun, by omega, by rwa [add_sub_cancel_right], hhigh⟩

/-- A four leaves the cell that makes it a five within reach, or there is a five already. -/
lemma draws_of_makes_four (hb : line b = .empty) (h : line.Makes b .four) :
    line.Draws b .four ∨ line.Draws b .five := by
  obtain ⟨e, hne, he, lo, hi, hrun, hloe, hhie, h5⟩ := h
  have hlo := hrun.low
  have hhi := hrun.high
  have hstone : ∀ k, lo ≤ k → k < hi → k ≠ b → k ≠ e → line k = .stone :=
    fun k hk hk' hkb hke =>
      (put_eq_stone_iff.mp (hrun.stone_of_ne hk hk' hke)).resolve_left hkb
  by_cases hnear : (e - b).natAbs < 5
  · -- five places of the run with both stones among them
    left
    refine draws_iff_row.mpr ⟨max lo (max b e - 4), e,
      ⟨by omega, by omega, by omega, by omega, by omega⟩, fun k hk hk' => ?_⟩
    simp only [Family.rowLength, Family.rowPlace] at hk' ⊢
    split_ifs with hfree
    · obtain rfl | rfl : k = b ∨ k = e := by omega
      · exact hb
      · exact he
    · exact hstone k (by omega) (by omega) (by omega) (by omega)
  · right
    rcases lt_or_gt_of_ne hne with hlt | hgt
    · exact draws_five (b - 4) hb (by omega) (by omega)
        fun k hk hk' hkb => hstone k (by omega) (by omega) hkb (by omega)
    · exact draws_five b hb (by omega) (by omega)
        fun k hk hk' hkb => hstone k (by omega) (by omega) hkb (by omega)

lemma makes_four_of_draws (hbound : line.Bounded) (h : line.Draws b .four) :
    line.Makes b .four := by
  obtain ⟨lo, e, ⟨hlo, hhi, hloe, hhie, hne⟩, hrow⟩ := draws_iff_row.mp h
  simp only [Family.rowLength, Family.rowPlace] at hrow
  have he : line e = .empty := (hrow e (by omega) (by omega)).trans (if_pos (by omega))
  have hstones : ∀ k, lo ≤ k → k < lo + 5 → k ≠ e → line.put b k = .stone := by
    intro k hk hk' hke
    by_cases hkb : k = b
    · exact put_eq_stone_iff.mpr (.inl hkb)
    · exact put_eq_stone_iff.mpr (.inr ((hrow k hk hk').trans (if_neg (by omega))))
  obtain ⟨lo', hi', hrun, hle, hge⟩ :=
    exists_isRun_put (b := b) (hbound.put b) (by omega) (by omega) hstones
  exact ⟨e, by omega, he, lo', hi', hrun, by omega, by omega, by omega⟩

lemma makes_openThree_iff (hb : line b = .empty) :
    line.Makes b .openThree ↔ line.Draws b .openThree := by
  constructor
  · rintro ⟨e, hne, he, lo, hi, hrun, hloe, hhie, h4, hlow, hhigh⟩
    have hlo := hrun.low
    have hhi := hrun.high
    refine draws_iff_row.mpr ⟨lo - 1, e, ⟨by omega, by omega, by omega, by omega, by omega⟩,
      fun k hk hk' => ?_⟩
    simp only [Family.rowLength, Family.rowPlace] at hk' ⊢
    split_ifs with hfree
    · obtain rfl | rfl | rfl | rfl : k = lo - 1 ∨ k = hi ∨ k = b ∨ k = e := by omega
      · exact hlow
      · exact hhigh
      · exact hb
      · exact he
    · have hstone := hrun.stone_of_ne (k := k) (by omega) (by omega) (by omega)
      exact (put_eq_stone_iff.mp hstone).resolve_left (by omega)
  · intro h
    obtain ⟨lo, e, ⟨hlo, hhi, hloe, hhie, hne⟩, hrow⟩ := draws_iff_row.mp h
    simp only [Family.rowLength, Family.rowPlace] at hrow
    have he : line e = .empty := (hrow e (by omega) (by omega)).trans (if_pos (by omega))
    have hlow : line lo = .empty := (hrow lo (by omega) (by omega)).trans (if_pos (by omega))
    have hhigh : line (lo + 5) = .empty :=
      (hrow _ (by omega) (by omega)).trans (if_pos (by omega))
    have hrun : ((line.put b).put e).IsRun b (lo + 1) (lo + 5) := by
      refine isRun_put (by omega) (by omega) (by omega) (by omega) (fun k hk hk' hke => ?_) ?_ ?_
      · by_cases hkb : k = b
        · exact put_eq_stone_iff.mpr (.inl hkb)
        · exact put_eq_stone_iff.mpr
            (.inr ((hrow k (by omega) (by omega)).trans (if_neg (by omega))))
      · rw [Ne, put_eq_stone_iff, not_or, add_sub_cancel_right, hlow]
        exact ⟨by omega, nofun⟩
      · rw [Ne, put_eq_stone_iff, not_or, hhigh]
        exact ⟨by omega, nofun⟩
    exact ⟨e, by omega, he, lo + 1, lo + 5, hrun, by omega, by omega, by omega,
      by rwa [add_sub_cancel_right], hhigh⟩

/-- A wall with a row of three next to it and two empty cells behind the row is a closed three, to
whichever side of the wall it lies. -/
lemma draws_closedThree (lo : ℤ) (hb : line b = .empty)
    (hadmits : Family.closedThree.Admits (b - lo) (e - lo)) (hwall : line e = .wall)
    (hfree : ∀ k, lo ≤ k → k < lo + 6 → 4 ≤ (k - e).natAbs → line k = .empty)
    (hstones : ∀ k, lo ≤ k → k < lo + 6 → k ≠ b → k ≠ e → (k - e).natAbs < 4 → line k = .stone) :
    line.Draws b .closedThree := by
  refine draws_iff_row.mpr ⟨lo, e, hadmits, fun k hk hk' => ?_⟩
  simp only [Family.rowLength, Family.rowPlace, sub_sub_sub_cancel_right] at hk' ⊢
  split_ifs with hke hempty
  · rwa [show k = e by omega]
  · rcases hempty with hkb | hfar
    · rwa [show k = b by omega]
    · exact hfree k hk (by omega) hfar
  · exact hstones k hk (by omega) (by omega) (by omega) (by omega)

lemma makes_closedThree_iff (hb : line b = .empty) :
    line.Makes b .closedThree ↔ line.Draws b .closedThree := by
  constructor
  · rintro ⟨lo, hi, hrun, h3, ⟨hwall, hnear, hfar⟩ | ⟨hwall, hnear, hfar⟩⟩
    · have hlo := hrun.low
      have hhi := hrun.high
      refine draws_closedThree (lo - 1) hb (.inl ⟨by omega, by omega, by omega⟩) hwall
        (fun k hk hk' hkw => ?_)
        fun k hk hk' hkb hke hkw => hrun.stone_of_ne (by omega) (by omega) hkb
      obtain rfl | rfl : k = hi ∨ k = hi + 1 := by omega
      · exact hnear
      · exact hfar
    · have hlo := hrun.low
      have hhi := hrun.high
      refine draws_closedThree (lo - 2) hb (.inr ⟨by omega, by omega, by omega⟩) hwall
        (fun k hk hk' hkw => ?_)
        fun k hk hk' hkb hke hkw => hrun.stone_of_ne (by omega) (by omega) hkb
      obtain rfl | rfl : k = lo - 1 ∨ k = lo - 2 := by omega
      · exact hnear
      · exact hfar
  · intro h
    obtain ⟨lo, e, hadmits, hrow⟩ := draws_iff_row.mp h
    simp only [Family.rowLength, Family.rowPlace, sub_sub_sub_cancel_right] at hrow
    have hwall : lo ≤ e → e < lo + 6 → line e = .wall := fun hk hk' =>
      (hrow e hk hk').trans (if_pos rfl)
    have hfree : ∀ k, lo ≤ k → k < lo + 6 → 4 ≤ (k - e).natAbs → line k = .empty :=
      fun k hk hk' hkw => (hrow k hk hk').trans ((if_neg (by omega)).trans (if_pos (.inr hkw)))
    have hstone : ∀ k, lo ≤ k → k < lo + 6 → k ≠ b → k ≠ e → (k - e).natAbs < 4 →
        line k = .stone := fun k hk hk' hkb hke hkw =>
      (hrow k hk hk').trans ((if_neg (by omega)).trans (if_neg (by omega)))
    rcases hadmits with ⟨hlo, hhi, he⟩ | ⟨hlo, hhi, he⟩
    · obtain rfl : e = lo := by omega
      have hnear := hfree (e + 4) (by omega) (by omega) (by omega)
      have hrun : (line.put b).IsRun b (e + 1) (e + 4) := by
        refine isRun_put (by omega) (by omega) (by omega) (by omega) (fun k hk hk' hkb => ?_) ?_ ?_
        · exact hstone k (by omega) (by omega) hkb (by omega) (by omega)
        · rw [add_sub_cancel_right, hwall (by omega) (by omega)]
          nofun
        · rw [hnear]
          nofun
      exact ⟨e + 1, e + 4, hrun, by omega, .inl ⟨by rw [add_sub_cancel_right, hwall] <;> omega,
        hnear, hfree _ (by omega) (by omega) (by omega)⟩⟩
    · obtain rfl : lo = e - 5 := by omega
      have hnear := hfree (e - 4) (by omega) (by omega) (by omega)
      have hrun : (line.put b).IsRun b (e - 3) e := by
        refine isRun_put (by omega) (by omega) (by omega) (by omega) (fun k hk hk' hkb => ?_) ?_ ?_
        · exact hstone k (by omega) (by omega) hkb (by omega) (by omega)
        · rw [show e - 3 - 1 = e - 4 by omega, hnear]
          nofun
        · rw [hwall (by omega) (by omega)]
          nofun
      exact ⟨e - 3, e, hrun, by omega, .inr ⟨hwall (by omega) (by omega),
        by rwa [show e - 3 - 1 = e - 4 by omega], hfree _ (by omega) (by omega) (by omega)⟩⟩

lemma makes_openTwo_iff (hb : line b = .empty) :
    line.Makes b .openTwo ↔ line.Draws b .openTwo := by
  constructor
  · rintro ⟨e, he, hdist, lo, hlo, hhi, hloe, hhie, hempty⟩
    have hdist' : ((e - lo) - (b - lo)).natAbs ∈ [1, 2] := by
      rw [sub_sub_sub_cancel_right, List.mem_cons, List.mem_singleton]
      exact hdist
    refine draws_iff_row.mpr ⟨lo, e, ⟨by omega, by omega, by omega, by omega, hdist'⟩,
      fun k hk hk' => ?_⟩
    simp only [Family.rowLength, Family.rowPlace] at hk' ⊢
    split_ifs with hke
    · rwa [show k = e by omega]
    · by_cases hkb : k = b
      · rwa [hkb]
      · exact hempty k hk hk' hkb (by omega)
  · intro h
    obtain ⟨lo, e, ⟨hlo, hhi, hloe, hhie, hdist⟩, hrow⟩ := draws_iff_row.mp h
    simp only [Family.rowLength, Family.rowPlace] at hrow
    rw [sub_sub_sub_cancel_right, List.mem_cons, List.mem_singleton] at hdist
    exact ⟨e, (hrow e (by omega) (by omega)).trans (if_pos rfl), hdist, lo, by omega, by omega,
      by omega, by omega, fun k hk hk' _ hke => (hrow k hk hk').trans (if_neg (by omega))⟩

/-! ### The first shape -/

/-- **What the table draws around an empty place, a stone there makes.** -/
lemma makes_of_draws (hbound : line.Bounded) (hb : line b = .empty) (h : line.Draws b f) :
    line.Makes b f := by
  cases f with
  | five => exact (makes_five_iff hbound hb).mpr h
  | openFour => exact (makes_openFour_iff hb).mpr h
  | four => exact makes_four_of_draws hbound h
  | openThree => exact (makes_openThree_iff hb).mpr h
  | closedThree => exact (makes_closedThree_iff hb).mpr h
  | openTwo => exact (makes_openTwo_iff hb).mpr h

/-- **What a stone on an empty place makes, the table draws**, or it draws a five there. -/
lemma draws_of_makes (hbound : line.Bounded) (hb : line b = .empty) (h : line.Makes b f) :
    line.Draws b f ∨ line.Draws b .five := by
  cases f with
  | five => exact .inr ((makes_five_iff hbound hb).mp h)
  | openFour => exact .inl ((makes_openFour_iff hb).mp h)
  | four => exact draws_of_makes_four hb h
  | openThree => exact .inl ((makes_openThree_iff hb).mp h)
  | closedThree => exact .inl ((makes_closedThree_iff hb).mp h)
  | openTwo => exact .inl ((makes_openTwo_iff hb).mp h)

/-- So the first family that is drawn is the first shape that is made. -/
lemma first_draws_iff (hbound : line.Bounded) (hb : line b = .empty) :
    (line.Draws b f ∧ ∀ f', f'.code < f.code → ¬ line.Draws b f') ↔
      line.Makes b f ∧ ∀ f', f'.code < f.code → ¬ line.Makes b f' := by
  have hfive : ∀ f' : Family, f' = .five ∨ Family.five.code < f'.code := by
    intro f'
    cases f' <;> decide
  constructor
  · rintro ⟨hdraws, hfirst⟩
    refine ⟨makes_of_draws hbound hb hdraws, fun f' hlt hmakes => ?_⟩
    rcases draws_of_makes hbound hb hmakes with hdraws' | hdraws'
    · exact hfirst f' hlt hdraws'
    · rcases hfive f' with rfl | hlt'
      · exact hfirst _ hlt hdraws'
      · exact hfirst _ (hlt'.trans hlt) hdraws'
  · rintro ⟨hmakes, hfirst⟩
    refine ⟨?_, fun f' hlt hdraws => hfirst f' hlt (makes_of_draws hbound hb hdraws)⟩
    rcases draws_of_makes hbound hb hmakes with hdraws | hdraws
    · exact hdraws
    · rcases hfive f with rfl | hlt
      · exact hdraws
      · exact absurd (makes_of_draws hbound hb hdraws) (hfirst _ hlt)

lemma none_draws_iff (hbound : line.Bounded) (hb : line b = .empty) :
    (∀ f, ¬ line.Draws b f) ↔ ∀ f, ¬ line.Makes b f := by
  constructor
  · intro h f hmakes
    rcases draws_of_makes hbound hb hmakes with hdraws | hdraws
    · exact h f hdraws
    · exact h _ hdraws
  · exact fun h f hdraws => h f (makes_of_draws hbound hb hdraws)

/-- **The window at an empty place shows the first shape** that an own stone there makes, and nothing
if it makes none. -/
lemma shapes_around {own enemy board pos : ℕ} (hown : ∀ k, own.testBit k = true →
      board.testBit k = true ∧ enemy.testBit k = false)
    (hempty : ofWords own enemy board pos = .empty) :
    (∀ f, (Window.around own enemy board pos).strongest?.map Pattern.family = some f ↔
      (ofWords own enemy board).Makes pos f ∧
        ∀ f', f'.code < f.code → ¬ (ofWords own enemy board).Makes pos f') ∧
      ((Window.around own enemy board pos).strongest?.map Pattern.family = none ↔
        ∀ f, ¬ (ofWords own enemy board).Makes pos f) := by
  have hbound := bounded_ofWords own enemy board
  refine ⟨fun f => ?_, ?_⟩
  · rw [family_around_eq_some_iff hown, first_draws_iff hbound hempty]
  · rw [family_around_eq_none_iff hown, none_draws_iff hbound hempty]

/-- **The table names every line exactly.** On the words of a line of the board, the own stones on
the line and apart from the enemy's, the pattern found at an empty bit is of the first shape that an
own stone there makes, in the order five, open four, four, open three, closed three, open two; and
none is found if it makes none. -/
theorem shapes_exact (d : Direction) (l : Fin 37) (own enemy : UInt32) (pos : ℕ)
    (hown : own &&& .ofNat (d.lineMask l) = own) (hapart : own &&& enemy = 0)
    (hboard : (d.lineMask l).testBit pos = true)
    (hfree : own.toNat.testBit pos = false ∧ enemy.toNat.testBit pos = false) :
    let line := ofWords own.toNat enemy.toNat (d.lineMask l)
    let found :=
      (LineView.ofWords own enemy (.ofNat (d.lineMask l)) pos).strongest?.map Pattern.family
    (∀ f, found = some f ↔ line.Makes pos f ∧ ∀ f', f'.code < f.code → ¬ line.Makes pos f') ∧
      (found = none ↔ ∀ f, ¬ line.Makes pos f) := by
  have hmask : (UInt32.ofNat (d.lineMask l)).toNat = d.lineMask l :=
    UInt32.toNat_ofNat_of_lt' ((d.lineMask_lt l).trans (by decide))
  have hpos : pos < 19 := lt_of_testBit (d.lineMask_lt l) hboard
  have hapart' : ∀ k, own.toNat.testBit k = true →
      (d.lineMask l).testBit k = true ∧ enemy.toNat.testBit k = false := by
    intro k hk
    have hon := congrArg (fun w : UInt32 => w.toNat.testBit k) hown
    have hoff := congrArg (fun w : UInt32 => w.toNat.testBit k) hapart
    simp only [UInt32.toNat_and, UInt32.toNat_zero, hmask, Nat.testBit_and, hk, Bool.true_and,
      Nat.zero_testBit] at hon hoff
    exact ⟨hon, hoff⟩
  have hempty : ofWords own.toNat enemy.toNat (d.lineMask l) pos = .empty := by
    rw [ofWords_natCast, hfree.1, hfree.2, hboard]
    rfl
  dsimp only
  rw [LineView.strongest?_ofWords_eq_window own enemy _ (hpos.trans (by decide)), hmask]
  exact shapes_around hapart' hempty

/-- Next to three stones on bits 5, 6 and 7 of a row, the pattern found at bit 4 is an open four,
which an own stone there makes, and a four if there is an enemy stone on bit 8. -/
theorem shapes_exact_threeStones :
    ((LineView.ofWords 0b11100000 0 0x7ffff 4).strongest?.map Pattern.family = some .openFour ∧
      (ofWords 0b11100000 0 0x7ffff).Makes 4 .openFour ∧
      ¬ (ofWords 0b11100000 0 0x7ffff).Makes 4 .five) ∧
    (LineView.ofWords 0b11100000 0b100000000 0x7ffff 4).strongest?.map Pattern.family =
        some .four ∧
      (ofWords 0b11100000 0b100000000 0x7ffff).Makes 4 .four ∧
      ¬ (ofWords 0b11100000 0b100000000 0x7ffff).Makes 4 .openFour := by
  have hopen : (LineView.ofWords 0b11100000 0 0x7ffff 4).strongest?.map Pattern.family =
      some .openFour := by decide +kernel
  have hclosed : (LineView.ofWords 0b11100000 0b100000000 0x7ffff 4).strongest?.map
      Pattern.family = some .four := by decide +kernel
  obtain ⟨hfound, -⟩ := shapes_exact .horizontal 0 0b11100000 0 4 (by decide) (by decide)
    (by decide) (by decide)
  obtain ⟨hfound', -⟩ := shapes_exact .horizontal 0 0b11100000 0b100000000 4 (by decide)
    (by decide) (by decide) (by decide)
  obtain ⟨hmakes, hfirst⟩ := (hfound .openFour).mp hopen
  obtain ⟨hmakes', hfirst'⟩ := (hfound' .four).mp hclosed
  exact ⟨⟨hopen, hmakes, hfirst .five (by decide)⟩, hclosed, hmakes',
    hfirst' .openFour (by decide)⟩

end Line

end FiveInRow
