import Mathlib.Tactic
import FiveInRow.Proofs.Board.Caches

/-!
What the compiled patterns say about the cells. A pattern fits a window exactly if every mark of
its template holds on its cell, and the pattern found first is one of the most urgent that fit.

* `Mark.Holds`: what a mark asks of a cell that a walk may or may not reach;
* `Window.Shows`, `Pattern.fits_ofTemplate_iff_shows`: the masks of a template say what its marks
  say, in any window;
* `Pattern.fits_ofTemplate_iff`: and so on the cells;
* `Pattern.mem_patterns_iff`: the patterns and their templates;
* `exists_five_iff`: a five is found exactly on the empty cells that complete five;
* `attackFrom_eq_immediate_iff`, `immediate_of_owed`: the top level of attack and of defence.
-/

namespace FiveInRow

variable {o : Cell → Option Color} {color : Color} {c : Cell} {d : Direction}

/-- What a mark asks of a cell, or of the outside of the board. -/
def Mark.Holds (o : Cell → Option Color) (color : Color) : Mark → Option Cell → Prop
  | .stone, x => ∃ e, x = some e ∧ o e = some color
  | .anchor, x | .gap, x | .cover, x => ∃ e, x = some e ∧ o e = none
  | .wall, x => ∀ e, x = some e → o e = some color.other

/-! ### Masks -/

lemma testBit_foldl_or {α : Type} (f : α → ℕ) (l : List α) (m i : ℕ) :
    (l.foldl (fun mask x => mask ||| 1 <<< f x) m).testBit i = true ↔
      m.testBit i = true ∨ ∃ x ∈ l, f x = i := by
  induction l generalizing m with
  | nil => simp
  | cons x l ih =>
      rw [List.foldl_cons, ih, Nat.testBit_or, Bool.or_eq_true, Nat.one_shiftLeft,
        Nat.testBit_two_pow, decide_eq_true_eq, List.exists_mem_cons_iff, or_assoc]

namespace Pattern

/-- The bits of a mask are the places of the marks that it is made of. -/
lemma testBit_maskOf {t : Template} {p : Mark → Bool} {i : ℕ} :
    (maskOf t p).testBit i = true ↔
      ∃ k m, t[k]? = some m ∧ p m = true ∧ k + 4 - anchorOf t = i := by
  rw [maskOf, testBit_foldl_or, Nat.zero_testBit]
  constructor
  · rintro (h | ⟨⟨m, k⟩, hmem, hi⟩)
    · cases h
    · obtain ⟨hmem, hp⟩ := List.mem_filter.mp hmem
      exact ⟨k, m, List.mk_mem_zipIdx_iff_getElem?.mp hmem, hp, hi⟩
  · rintro ⟨k, m, hk, hp, hi⟩
    exact .inr ⟨(m, k), List.mem_filter.mpr ⟨List.mk_mem_zipIdx_iff_getElem?.mpr hk, hp⟩, hi⟩

end Pattern

namespace Window

variable {i : ℕ}

lemma testBit_own (hi : i < 9) :
    (ofCells o c color d).own.val.testBit i = true ↔
      Mark.Holds o color .stone (c.offset d.step ((i : ℤ) - 4)) := by
  rw [ofCells, Nat.testBit_ofBits_lt _ _ hi, Option.any_eq_true]
  simp only [decide_eq_true_eq, Mark.Holds]

lemma testBit_blocked (hi : i < 9) :
    (ofCells o c color d).blocked.val.testBit i = true ↔
      Mark.Holds o color .wall (c.offset d.step ((i : ℤ) - 4)) := by
  rw [ofCells, Nat.testBit_ofBits_lt _ _ hi, Option.all_eq_true]
  simp only [decide_eq_true_eq, Mark.Holds]

lemma testBit_free (hi : i < 9) :
    (ofCells o c color d).free.testBit i = true ↔
      Mark.Holds o color .gap (c.offset d.step ((i : ℤ) - 4)) := by
  rw [testBit_free_eq _ hi, Bool.not_eq_true', Bool.or_eq_false_iff, ← Bool.not_eq_true,
    ← Bool.not_eq_true, testBit_own hi, testBit_blocked hi]
  simp only [Mark.Holds]
  cases c.offset d.step ((i : ℤ) - 4) with
  | none => simp
  | some e =>
      cases ho : o e with
      | none => simp [ho]
      | some side => cases side <;> cases color <;> simp [ho, Color.other]

end Window

/-- What a mark asks of a position of a window. -/
def Window.Shows (w : Window) : Mark → ℕ → Prop
  | .stone, i => w.own.val.testBit i = true
  | .anchor, i | .gap, i | .cover, i => w.free.testBit i = true
  | .wall, i => w.blocked.val.testBit i = true

/-- **The masks of a template say what its marks say**, with the anchor at the middle of the
window. -/
lemma Pattern.fits_ofTemplate_iff_shows (id : ℕ) (family : Family) (t : Template) (w : Window) :
    (ofTemplate id family t).fits w = true ↔
      ∀ (k : ℕ) (m : Mark), t[k]? = some m → w.Shows m (k + 4 - anchorOf t) := by
  -- one mask: its bits are set in a word exactly if its marks are
  have hmask : ∀ (word : ℕ) (p : Mark → Bool),
      (word &&& maskOf t p == maskOf t p) = true ↔
        ∀ (k : ℕ) (m : Mark), t[k]? = some m → p m = true →
          word.testBit (k + 4 - anchorOf t) = true := by
    intro word p
    rw [and_eq_right_iff_testBit]
    constructor
    · intro h k m hk hp
      exact h _ (testBit_maskOf.mpr ⟨k, m, hk, hp, rfl⟩)
    · intro h i hi
      obtain ⟨k, m, hk, hp, rfl⟩ := testBit_maskOf.mp hi
      exact h k m hk hp
  rw [fits, Bool.and_eq_true, Bool.and_eq_true, ofTemplate, hmask, hmask, hmask]
  constructor
  · rintro ⟨⟨hstone, hfree⟩, hwall⟩ k m hk
    cases m with
    | stone => exact hstone k _ hk (by decide)
    | anchor => exact hfree k _ hk (by decide)
    | gap => exact hfree k _ hk (by decide)
    | cover => exact hfree k _ hk (by decide)
    | wall => exact hwall k _ hk (by decide)
  · intro h
    refine ⟨⟨fun k m hk hp => ?_, fun k m hk hp => ?_⟩, fun k m hk hp => ?_⟩
    · obtain rfl : m = .stone := by simpa using hp
      exact h k _ hk
    · have := h k m hk
      cases m <;> first | exact this | cases hp
    · obtain rfl : m = .wall := by simpa using hp
      exact h k _ hk

/-- A mark of a template that is in sight of its anchor lies in the window. -/
lemma Template.place_lt {t : Template} (hlow : Pattern.anchorOf t ≤ 4)
    (hhigh : t.length ≤ Pattern.anchorOf t + 5) {k : ℕ} {m : Mark} (hk : t[k]? = some m) :
    k + 4 - Pattern.anchorOf t < 9 ∧
      ((k + 4 - Pattern.anchorOf t : ℕ) : ℤ) - 4 = k - Pattern.anchorOf t := by
  obtain ⟨hlt, -⟩ := List.getElem?_eq_some_iff.mp hk
  omega

/-- A pattern fits the window of a cell exactly if the marks of its template hold around the
cell. -/
lemma Pattern.fits_ofTemplate_iff {t : Template} (id : ℕ) (family : Family)
    (hlow : anchorOf t ≤ 4) (hhigh : t.length ≤ anchorOf t + 5) :
    (ofTemplate id family t).fits (Window.ofCells o c color d) = true ↔
      ∀ (k : ℕ) (m : Mark), t[k]? = some m →
        m.Holds o color (c.offset d.step ((k : ℤ) - anchorOf t)) := by
  rw [fits_ofTemplate_iff_shows]
  refine forall_congr' fun k => forall_congr' fun m => forall_congr' fun hk => ?_
  obtain ⟨hlt, hoff⟩ := Template.place_lt hlow hhigh hk
  rw [← hoff]
  cases m with
  | stone => exact Window.testBit_own hlt
  | anchor => exact Window.testBit_free hlt
  | gap => exact Window.testBit_free hlt
  | cover => exact Window.testBit_free hlt
  | wall => exact Window.testBit_blocked hlt

/-! ### The pattern that is found -/

/-- The patterns are those of the templates, with their numbers. -/
lemma Pattern.mem_patterns_iff {p : Pattern} :
    p ∈ patterns ↔ ∃ id f t, templates[id]? = some (f, t) ∧ p = ofTemplate id f t := by
  rw [patterns, List.mem_map]
  constructor
  · rintro ⟨⟨⟨f, t⟩, id⟩, hmem, rfl⟩
    exact ⟨id, f, t, List.mk_mem_zipIdx_iff_getElem?.mp hmem, rfl⟩
  · rintro ⟨id, f, t, hid, rfl⟩
    exact ⟨((f, t), id), List.mk_mem_zipIdx_iff_getElem?.mpr hid, rfl⟩

lemma Family.priority_eq_immediate_iff {f : Family} :
    f.priority = Priority.immediate ↔ f = .five := by
  cases f <;> decide

/-! ### Fives -/

/-- The five whose anchor is cell number `j`. -/
def Template.five (j : ℕ) : Template :=
  (List.range 5).map fun i => if i = j then Mark.anchor else Mark.stone

lemma Template.mem_fives_iff {t : Template} : t ∈ fives ↔ ∃ j < 5, t = five j := by
  have hfives : fives = (List.range 5).reverse.map five := by decide
  rw [hfives, List.mem_map]
  simp only [List.mem_reverse, List.mem_range, eq_comm]

lemma Template.getElem?_five {j k : ℕ} {m : Mark} :
    (five j)[k]? = some m ↔ k < 5 ∧ m = if k = j then Mark.anchor else Mark.stone := by
  rw [five, List.getElem?_map, Option.map_eq_some_iff]
  constructor
  · rintro ⟨i, hi, rfl⟩
    obtain ⟨hk, hki⟩ := List.getElem?_eq_some_iff.mp hi
    rw [List.getElem_range] at hki
    rw [List.length_range] at hk
    subst hki
    exact ⟨hk, rfl⟩
  · rintro ⟨hk, rfl⟩
    exact ⟨k, List.getElem?_range hk, rfl⟩

/-- The five with its anchor at `j` fits exactly on the empty cells that complete five as number
`j` of the row. -/
lemma Pattern.fits_five_iff {j : ℕ} (hj : j < 5) (id : ℕ) (family : Family) :
    (ofTemplate id family (Template.five j)).fits (Window.ofCells o c color d) = true ↔
      o c = none ∧ Completes o color c d j := by
  have hanchor : anchorOf (Template.five j) = j := by
    interval_cases j <;> decide
  have hlength : (Template.five j).length = 5 := by
    rw [Template.five, List.length_map, List.length_range]
  rw [fits_ofTemplate_iff _ _ (by omega) (by omega), hanchor]
  constructor
  · intro h
    constructor
    · obtain ⟨e, he, ho⟩ := h j _ (Template.getElem?_five.mpr ⟨hj, (if_pos rfl).symm⟩)
      rw [sub_self, Cell.offset_zero] at he
      rwa [Option.some.inj he]
    · intro i hi hij
      exact h i _ (Template.getElem?_five.mpr ⟨hi, (if_neg hij).symm⟩)
  · rintro ⟨ho, hrow⟩ k m hk
    obtain ⟨hk5, rfl⟩ := Template.getElem?_five.mp hk
    by_cases hkj : k = j
    · subst hkj
      rw [if_pos rfl, sub_self, Cell.offset_zero]
      exact ⟨c, rfl, ho⟩
    · rw [if_neg hkj]
      exact hrow k hk5 hkj

/-- **A five is found exactly on the empty cells that complete five.** -/
lemma exists_five_iff :
    (∃ p, matchAt o c color d = some p ∧ p.priority = Priority.immediate) ↔
      o c = none ∧ ∃ j < 5, Completes o color c d j := by
  constructor
  · rintro ⟨p, hp, himm⟩
    have hfits : p.fits (Window.ofCells o c color d) = true := Window.fits_of_strongest hp
    obtain ⟨i, family, t, hid, rfl⟩ := Pattern.mem_patterns_iff.mp (Window.mem_patterns hp)
    have hfive : t ∈ Template.fives := by
      have hall : ∀ m ∈ templates, m.1 = Family.five → m.2 ∈ Template.fives := by decide
      exact hall _ (List.mem_of_getElem? hid) (Family.priority_eq_immediate_iff.mp himm)
    obtain ⟨j, hj, rfl⟩ := Template.mem_fives_iff.mp hfive
    obtain ⟨ho, hrow⟩ := (Pattern.fits_five_iff hj i family).mp hfits
    exact ⟨ho, j, hj, hrow⟩
  · rintro ⟨ho, j, hj, hrow⟩
    have hmem : Pattern.ofTemplate (4 - j) .five (Template.five j) ∈ patterns := by
      interval_cases j <;> decide
    obtain ⟨p, hp, hle⟩ :=
      Window.exists_strongest hmem ((Pattern.fits_five_iff hj _ _).mpr ⟨ho, hrow⟩)
    exact ⟨p, hp, le_antisymm (Fin.le_last _) hle⟩

/-! ### The top level of urgency -/

lemma Priority.immediate_le_iff {p : Priority} : Priority.immediate ≤ p ↔ p = Priority.immediate :=
  ⟨fun h => le_antisymm (Fin.le_last p) h, fun h => h.ge⟩

/-- **Attack is immediate exactly on the empty cells that complete five.** -/
lemma attackFrom_eq_immediate_iff :
    attackFrom o c color = Priority.immediate ↔
      o c = none ∧ ∃ d, ∃ j < 5, Completes o color c d j := by
  have hbest : (Priority.immediate ≤ Finset.univ.sup fun d =>
      ((matchAt o c color d).map Pattern.priority).getD Priority.none) ↔
        o c = none ∧ ∃ d, ∃ j < 5, Completes o color c d j := by
    rw [Finset.le_sup_iff (by decide), ← exists_and_left]
    refine exists_congr fun d => ?_
    rw [← exists_five_iff, Priority.immediate_le_iff]
    cases matchAt o c color d with
    | none => simp [Priority.none, Priority.immediate]
    | some p => simp
  rw [← hbest, attackFrom, ← Priority.immediate_le_iff]
  by_cases ho : o c = none
  · rw [if_neg (not_not.mpr ho)]
    split_ifs
    · rw [le_sup_iff, or_iff_left (by decide)]
    · exact Iff.rfl
  · rw [if_pos ho, hbest]
    exact iff_of_false (by decide) fun h => ho h.1

/-- A reference is as urgent as the pattern it names. -/
lemma Pattern.priority_ref {p : Pattern} (hp : p ∈ patterns) (k : Fin 4) (d : Direction) :
    (p.ref k d).priority = p.priority := by
  rw [PatternRef.priority, pattern?_ref hp]

/-- The only place to stop a five is the cell that completes it. -/
lemma Pattern.defence_of_immediate {p : Pattern} (hp : p ∈ patterns)
    (himm : p.priority = Priority.immediate) : p.defence = [0] := by
  have hall : ∀ p ∈ patterns, p.priority = Priority.immediate → p.defence = [0] := by decide
  exact hall p hp himm

/-- An entry of the top level stops a five on the cell that completes it. -/
lemma immediate_of_owed {defender : Color} {e : DefenceEntry} (h : Owed o c defender e)
    (himm : e.pattern.priority = Priority.immediate) :
    attackFrom o c defender.other = Priority.immediate := by
  obtain ⟨a, d, p, k, n, ho, hp, hk, hn, rfl⟩ := h
  have hmem := Window.mem_patterns hp
  rw [Pattern.priority_ref hmem] at himm
  rw [Pattern.defence_of_immediate hmem himm] at hk
  obtain rfl : n = 0 := List.mem_singleton.mp (List.mem_of_getElem? hk)
  rw [Cell.offset_zero] at hn
  obtain rfl := Option.some.inj hn
  obtain ⟨-, hrow⟩ := exists_five_iff.mp ⟨p, hp, himm⟩
  exact attackFrom_eq_immediate_iff.mpr ⟨ho, d, hrow⟩

/-- A record is of the top level if and only if one of its entries is. -/
lemma defenceFrom_eq_immediate_iff {entries : Finset DefenceEntry} :
    defenceFrom entries = Priority.immediate ↔
      ∃ e ∈ entries, e.pattern.priority = Priority.immediate := by
  have hbest : (Priority.immediate ≤ entries.sup fun e => e.pattern.priority) ↔
      ∃ e ∈ entries, e.pattern.priority = Priority.immediate := by
    rw [Finset.le_sup_iff (by decide)]
    simp only [Priority.immediate_le_iff]
  rw [← hbest, defenceFrom, ← Priority.immediate_le_iff]
  split_ifs
  · rw [le_sup_iff, or_iff_left (by decide)]
  · exact Iff.rfl

end FiveInRow
