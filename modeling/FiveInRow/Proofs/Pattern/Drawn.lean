import Mathlib.Tactic
import FiveInRow.Proofs.Pattern.Fours

/-!
The table of templates on a line of places. The templates of a family are the rows of one shape, in
which the anchor, and one other place in some families, moves; so a family is drawn around a place
exactly if such a row lies on the line.

* `Place`, `Line`, `Line.ofWords`: what the places of a line are to one player;
* `Line.shows_around_iff`: the window at a bit shows the places around it;
* `Line.Shows`, `Line.Draws`: a template, and some template of a family, lies on a line with its
  anchor on a given place;
* `Window.family_strongest?_eq_some_iff`, `Line.family_around_eq_some_iff`: the pattern that is
  found is of the first family that fits, and so of the first that is drawn;
* `Family.Admits`, `Family.rowPlace`, `Family.drawings_eq_rows`: the rows of a family;
* `Line.draws_iff_row`: a family is drawn where one of its rows lies.
-/

namespace FiveInRow

/-! ### Lines -/

/-- What a place of a line is to one player. -/
inductive Place
  /-- An own stone. -/
  | stone
  /-- An empty cell of the board. -/
  | empty
  /-- An enemy stone, or no cell of the board. -/
  | wall
  deriving DecidableEq, Repr

/-- A line: its places are numbered as its bits, and there is nothing but walls beyond the board. -/
abbrev Line := ℤ → Place

/-- The line with the given words of own stones, of enemy stones and of the cells on the board. -/
def Line.ofWords (own enemy board : ℕ) : Line := fun k =>
  if k < 0 then .wall
  else if own.testBit k.toNat then .stone
  else if board.testBit k.toNat && !enemy.testBit k.toNat then .empty
  else .wall

/-- What a mark asks of its place. -/
def Mark.place : Mark → Place
  | .stone => .stone
  | .anchor | .gap | .cover => .empty
  | .wall => .wall

namespace Line

variable {own enemy board : ℕ} {line : Line} {b : ℤ} {f : Family} {t : Template}

/-! ### Windows of a line -/

lemma ofWords_natCast (own enemy board k : ℕ) :
    ofWords own enemy board k =
      if own.testBit k then .stone
      else if board.testBit k && !enemy.testBit k then .empty
      else .wall := by
  rw [ofWords, if_neg (Int.natCast_nonneg k).not_gt, Int.toNat_natCast]

/-- **The window at a bit shows the places around it**, where the own stones are on the board and
apart from the enemy's. -/
lemma shows_around_iff (hown : ∀ k, own.testBit k = true →
      board.testBit k = true ∧ enemy.testBit k = false) (pos : ℕ) {i : ℕ} (hi : i < 9) (m : Mark) :
    (Window.around own enemy board pos).Shows m i ↔
      ofWords own enemy board (pos + i - 4) = m.place := by
  have hstone := Window.testBit_own_around own enemy board pos hi
  have hblocked := Window.testBit_blocked_around own enemy board pos hi
  have hfree := Window.testBit_free_eq (Window.around own enemy board pos) hi
  rw [hstone, hblocked] at hfree
  by_cases h4 : 4 ≤ pos + i
  · have hk : (pos : ℤ) + i - 4 = ((pos + i - 4 : ℕ) : ℤ) := by omega
    have hbit := hown (pos + i - 4)
    rw [decide_eq_true h4] at hstone hblocked hfree
    rw [hk, ofWords_natCast]
    generalize own.testBit (pos + i - 4) = x at hstone hfree hbit ⊢
    generalize board.testBit (pos + i - 4) = y at hblocked hfree hbit ⊢
    generalize enemy.testBit (pos + i - 4) = z at hblocked hfree hbit ⊢
    cases m <;> simp only [Window.Shows, Mark.place, hstone, hblocked, hfree] <;>
      revert hbit <;> cases x <;> cases y <;> cases z <;> decide
  · have hk : (pos : ℤ) + i - 4 < 0 := by omega
    rw [decide_eq_false h4] at hstone hblocked hfree
    rw [ofWords, if_pos hk]
    cases m <;> simp [Window.Shows, Mark.place, hstone, hblocked, hfree]

/-! ### What is drawn is found -/

/-- Every mark of a template agrees with the line when its anchor is laid on place `b`. -/
def Shows (line : Line) (b : ℤ) (t : Template) : Prop :=
  ∀ (i : ℕ) (m : Mark), t[i]? = some m → line (b + i - Pattern.anchorOf t) = m.place

/-- The table draws a family around a place: the line shows one of its templates. -/
def Draws (line : Line) (b : ℤ) (f : Family) : Prop :=
  ∃ t, (f, t) ∈ templates ∧ line.Shows b t

/-- A pattern fits the window at a bit exactly if the line shows its template there. -/
lemma fits_around_iff (hown : ∀ k, own.testBit k = true →
      board.testBit k = true ∧ enemy.testBit k = false) (pos id : ℕ) (ht : (f, t) ∈ templates) :
    (Pattern.ofTemplate id f t).fits (Window.around own enemy board pos) = true ↔
      (ofWords own enemy board).Shows pos t := by
  obtain ⟨hlow, hhigh⟩ := Template.inSight ht
  rw [Pattern.fits_ofTemplate_iff_shows]
  refine forall_congr' fun k => forall_congr' fun m => forall_congr' fun hk => ?_
  obtain ⟨hlt, hoff⟩ := Template.place_lt hlow hhigh hk
  rw [shows_around_iff hown pos hlt, add_sub_assoc, hoff, ← add_sub_assoc]

end Line

lemma Family.eq_of_code_eq {f f' : Family} (h : f.code = f'.code) : f = f' := by
  revert h
  cases f <;> cases f' <;> decide

namespace Window

variable {w : Window} {f : Family}

/-- No pattern that fits is of an earlier family than the one that is found. -/
lemma code_le_of_strongest {p q : Pattern} (h : w.strongest? = some p) (hq : q ∈ patterns)
    (hfits : q.fits w = true) : p.family.code ≤ q.family.code := by
  have hsorted : patterns.Pairwise fun p q => p.family.code ≤ q.family.code := by decide
  rw [strongest?_eq_find?, List.find?_eq_some_iff_append] at h
  obtain ⟨-, before, behind, hsplit, hbefore⟩ := h
  rw [hsplit] at hq hsorted
  rcases List.mem_append.mp hq with hq | hq
  · have hnot := hbefore q hq
    rw [hfits] at hnot
    cases hnot
  · rcases List.mem_cons.mp hq with rfl | hq
    · exact le_rfl
    · exact (List.pairwise_cons.mp (List.pairwise_append.mp hsorted).2.1).1 q hq

/-- **The pattern that is found is of the first family that fits.** -/
lemma family_strongest?_eq_some_iff :
    w.strongest?.map Pattern.family = some f ↔
      (∃ p ∈ patterns, p.family = f ∧ p.fits w = true) ∧
        ∀ f', f'.code < f.code → ¬ ∃ p ∈ patterns, p.family = f' ∧ p.fits w = true := by
  constructor
  · intro h
    obtain ⟨p, hp, rfl⟩ := Option.map_eq_some_iff.mp h
    refine ⟨⟨p, mem_patterns hp, rfl, fits_of_strongest hp⟩, ?_⟩
    rintro f' hlt ⟨q, hq, rfl, hfits⟩
    exact absurd (code_le_of_strongest hp hq hfits) (not_le.mpr hlt)
  · rintro ⟨⟨q, hq, rfl, hfits⟩, hfirst⟩
    obtain ⟨p, hp⟩ : ∃ p, w.strongest? = some p := by
      rw [strongest?_eq_find?, ← Option.isSome_iff_exists, List.find?_isSome]
      exact ⟨q, hq, hfits⟩
    have hle := code_le_of_strongest hp hq hfits
    have hge : ¬ p.family.code < q.family.code := fun hlt =>
      hfirst _ hlt ⟨p, mem_patterns hp, rfl, fits_of_strongest hp⟩
    rw [hp, Option.map_some, Family.eq_of_code_eq (le_antisymm hle (not_lt.mp hge))]

lemma family_strongest?_eq_none_iff :
    w.strongest?.map Pattern.family = none ↔
      ∀ f, ¬ ∃ p ∈ patterns, p.family = f ∧ p.fits w = true := by
  rw [Option.map_eq_none_iff, strongest?_eq_find?, List.find?_eq_none]
  constructor
  · rintro h f ⟨p, hp, -, hfits⟩
    exact h p hp hfits
  · intro h p hp hfits
    exact h _ ⟨p, hp, rfl, hfits⟩

end Window

namespace Line

variable {own enemy board : ℕ} {f : Family}

/-- A pattern of a family fits the window at a bit exactly if the family is drawn there. -/
lemma exists_fits_around_iff (hown : ∀ k, own.testBit k = true →
      board.testBit k = true ∧ enemy.testBit k = false) (pos : ℕ) (f : Family) :
    (∃ p ∈ patterns, p.family = f ∧ p.fits (Window.around own enemy board pos) = true) ↔
      (ofWords own enemy board).Draws pos f := by
  constructor
  · rintro ⟨p, hp, rfl, hfits⟩
    obtain ⟨id, f, t, hid, rfl⟩ := Pattern.mem_patterns_iff.mp hp
    have ht := List.mem_of_getElem? hid
    exact ⟨t, ht, (fits_around_iff hown pos id ht).mp hfits⟩
  · rintro ⟨t, ht, hshows⟩
    obtain ⟨id, hid⟩ := List.mem_iff_getElem?.mp ht
    exact ⟨_, Pattern.mem_patterns_iff.mpr ⟨id, f, t, hid, rfl⟩, rfl,
      (fits_around_iff hown pos id ht).mpr hshows⟩

/-- **The pattern that is found is of the first family that is drawn.** -/
lemma family_around_eq_some_iff (hown : ∀ k, own.testBit k = true →
      board.testBit k = true ∧ enemy.testBit k = false) (pos : ℕ) :
    (Window.around own enemy board pos).strongest?.map Pattern.family = some f ↔
      (ofWords own enemy board).Draws pos f ∧
        ∀ f', f'.code < f.code → ¬ (ofWords own enemy board).Draws pos f' := by
  simp only [Window.family_strongest?_eq_some_iff, exists_fits_around_iff hown]

lemma family_around_eq_none_iff (hown : ∀ k, own.testBit k = true →
      board.testBit k = true ∧ enemy.testBit k = false) (pos : ℕ) :
    (Window.around own enemy board pos).strongest?.map Pattern.family = none ↔
      ∀ f, ¬ (ofWords own enemy board).Draws pos f := by
  simp only [Window.family_strongest?_eq_none_iff, exists_fits_around_iff hown]

end Line

/-! ### The rows of the families -/

namespace Family

/-- The templates of a family. -/
def drawings : Family → List Template
  | five => Template.fives
  | openFour => Template.openFours
  | four => Template.fours
  | openThree => Template.openThrees
  | closedThree => Template.closedThrees
  | openTwo => Template.openTwos

lemma mem_templates_iff {f : Family} {t : Template} : (f, t) ∈ templates ↔ t ∈ f.drawings := by
  cases f <;> simp [templates, drawings]

/-- The places in a row of the family. -/
def rowLength : Family → ℕ
  | five | four => 5
  | openFour | openThree | closedThree | openTwo => 6

/-- Where a row of the family may have its anchor, at `j`, and its other special place, at `e`: the
free place that a four or an open three leaves, the wall of a closed three, the stone of an open
two. The other families have none, and `e` is the anchor again. -/
def Admits : Family → ℤ → ℤ → Prop
  | five, j, e => 0 ≤ j ∧ j < 5 ∧ e = j
  | openFour, j, e => 0 < j ∧ j < 5 ∧ e = j
  | four, j, e => 0 ≤ j ∧ j < 5 ∧ 0 ≤ e ∧ e < 5 ∧ e ≠ j
  | openThree, j, e => 0 < j ∧ j < 5 ∧ 0 < e ∧ e < 5 ∧ e ≠ j
  | closedThree, j, e => 0 < j ∧ j < 4 ∧ e = 0 ∨ 1 < j ∧ j < 5 ∧ e = 5
  | openTwo, j, e => 0 < j ∧ j < 5 ∧ 0 < e ∧ e < 5 ∧ (e - j).natAbs ∈ [1, 2]

instance (f : Family) (j e : ℤ) : Decidable (f.Admits j e) :=
  match f with
  | five => inferInstanceAs (Decidable (_ ∧ _ ∧ _))
  | openFour => inferInstanceAs (Decidable (_ ∧ _ ∧ _))
  | four => inferInstanceAs (Decidable (_ ∧ _ ∧ _ ∧ _ ∧ _))
  | openThree => inferInstanceAs (Decidable (_ ∧ _ ∧ _ ∧ _ ∧ _))
  | closedThree => inferInstanceAs (Decidable (_ ∨ _))
  | openTwo => inferInstanceAs (Decidable (_ ∧ _ ∧ _ ∧ _ ∧ _))

/-- What is at place `i` of a row with its special places at `j` and `e`. -/
def rowPlace : Family → ℤ → ℤ → ℤ → Place
  | five, j, _, i => if i = j then .empty else .stone
  | openFour, j, _, i => if i = 0 ∨ i = 5 ∨ i = j then .empty else .stone
  | four, j, e, i => if i = j ∨ i = e then .empty else .stone
  | openThree, j, e, i => if i = 0 ∨ i = 5 ∨ i = j ∨ i = e then .empty else .stone
  | closedThree, j, e, i =>
    if i = e then .wall else if i = j ∨ 4 ≤ (i - e).natAbs then .empty else .stone
  | openTwo, _, e, i => if i = e then .stone else .empty

/-- The row of a family with its special places at `j` and `e`, and where its anchor is. -/
def row (f : Family) (j e : ℕ) : ℕ × List Place :=
  (j, (List.range f.rowLength).map fun i : ℕ => f.rowPlace j e i)

lemma Admits.lt {f : Family} {j e : ℤ} (h : f.Admits j e) : 0 ≤ j ∧ j < 6 ∧ 0 ≤ e ∧ e < 6 := by
  cases f <;> simp only [Admits, List.mem_cons, List.not_mem_nil, or_false] at h <;> omega

/-- **The templates of a family are its rows**, no more and no fewer. -/
lemma drawings_eq_rows (f : Family) :
    (∀ t ∈ f.drawings, ∃ j : ℕ, j < 6 ∧ ∃ e : ℕ, e < 6 ∧ f.Admits j e ∧
      (Pattern.anchorOf t, t.map Mark.place) = f.row j e) ∧
    ∀ j : ℕ, j < 6 → ∀ e : ℕ, e < 6 → f.Admits j e →
      ∃ t ∈ f.drawings, (Pattern.anchorOf t, t.map Mark.place) = f.row j e := by
  cases f <;> decide

end Family

namespace Line

variable {line : Line} {b : ℤ} {f : Family} {t : Template}

/-- A template is shown exactly if the row that it is lies on the line. -/
lemma shows_iff_row {j e : ℕ} (hrow : (Pattern.anchorOf t, t.map Mark.place) = f.row j e) :
    line.Shows b t ↔ ∀ i : ℕ, i < f.rowLength → line (b + i - j) = f.rowPlace j e i := by
  obtain ⟨hanchor, hplaces⟩ := Prod.mk.inj hrow
  have hget : ∀ i : ℕ, t[i]?.map Mark.place =
      if i < f.rowLength then some (f.rowPlace j e i) else none := by
    intro i
    rw [← List.getElem?_map, hplaces, List.getElem?_map]
    split_ifs with hi
    · rw [List.getElem?_range hi, Option.map_some]
    · rw [List.getElem?_eq_none (by rw [List.length_range]; omega), Option.map_none]
  rw [Shows, hanchor]
  constructor
  · intro h i hi
    have hmark := hget i
    rw [if_pos hi] at hmark
    obtain ⟨m, hm, hplace⟩ := Option.map_eq_some_iff.mp hmark
    rw [h i m hm, hplace]
  · intro h i m hm
    have hmark := hget i
    rw [hm, Option.map_some] at hmark
    split_ifs at hmark with hi
    rw [h i hi, Option.some.inj hmark]

/-- **A family is drawn around a place exactly if one of its rows lies there**: the row starts at
`lo`, with its anchor on `b` and its other special place on `e`. -/
lemma draws_iff_row : line.Draws b f ↔ ∃ lo e, f.Admits (b - lo) (e - lo) ∧
    ∀ k, lo ≤ k → k < lo + f.rowLength → line k = f.rowPlace (b - lo) (e - lo) (k - lo) := by
  obtain ⟨hdrawn, hdraw⟩ := f.drawings_eq_rows
  constructor
  · rintro ⟨t, ht, hshows⟩
    obtain ⟨j, -, e, -, hadmits, hrow⟩ := hdrawn t (Family.mem_templates_iff.mp ht)
    refine ⟨b - j, b - j + e, ?_, fun k hlo hhi => ?_⟩
    · rwa [sub_sub_cancel, add_sub_cancel_left]
    · obtain ⟨i, rfl⟩ : ∃ i : ℕ, k = b + i - j := ⟨(k - (b - j)).toNat, by omega⟩
      rw [(shows_iff_row hrow).mp hshows i (by omega), sub_sub_cancel, add_sub_cancel_left]
      congr 1
      omega
  · rintro ⟨lo, e, hadmits, hline⟩
    obtain ⟨hj, hj6, he, he6⟩ := hadmits.lt
    obtain ⟨j, hj'⟩ := Int.eq_ofNat_of_zero_le hj
    obtain ⟨e', he'⟩ := Int.eq_ofNat_of_zero_le he
    rw [hj', he'] at hadmits hline
    obtain ⟨t, ht, hrow⟩ := hdraw j (by omega) e' (by omega) hadmits
    refine ⟨t, Family.mem_templates_iff.mpr ht, (shows_iff_row hrow).mpr fun i hi => ?_⟩
    rw [hline _ (by omega) (by omega)]
    congr 1
    omega

end Line

end FiveInRow
