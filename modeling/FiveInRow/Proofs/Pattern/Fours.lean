import Mathlib.Tactic
import FiveInRow.Proofs.Pattern.Fits

/-!
What a four is good for. Once the anchor of a four is played, one of the template's free marks is
the only cell that a row of five is short of; an open four leaves two such cells.

* `Template.Finishes`: the free marks that complete five beside the anchor;
* `Leaves`: the cells of a line that a stone leaves one stone short of five;
* `exists_leaves_of_four`, `exists_leaves_of_openFour`: one such cell for a four, two for an open
  four;
* `Leaves.cell_ne`: lines of different directions meet on the stone alone;
* `exists_best`, `attackFrom_eq_urgent`: the best pattern of a cell, and what is above all else but
  a win;
* `leavesTwo_of_urgent`, `leavesTwo_of_fours`: an open four, and two fours at once, leave two
  different cells.
-/

namespace FiveInRow

variable {o : Cell → Option Color} {color : Color} {c : Cell} {d d' : Direction}

/-! ### Templates -/

/-- The free mark number `k` and the anchor lie in a row of five whose other marks are stones; the
mark is number `j` of the row. -/
def Template.Finishes (t : Template) (k j : ℕ) : Prop :=
  k ≠ Pattern.anchorOf t ∧ j ≤ k ∧ t[k]?.any Pattern.isFree = true ∧
    ∀ i < 5, i ≠ j → k + i - j = Pattern.anchorOf t ∨ t[k + i - j]? = some .stone

instance (t : Template) (k j : ℕ) : Decidable (t.Finishes k j) :=
  inferInstanceAs (Decidable (_ ∧ _ ∧ _ ∧ _))

/-- A template lies in sight of its anchor. -/
lemma Template.inSight {f : Family} {t : Template} (h : (f, t) ∈ templates) :
    Pattern.anchorOf t ≤ 4 ∧ t.length ≤ Pattern.anchorOf t + 5 := by
  have hall : ∀ m ∈ templates, Pattern.anchorOf m.2 ≤ 4 ∧
      m.2.length ≤ Pattern.anchorOf m.2 + 5 := by decide
  exact hall _ h

/-- **A four is finished on one of its free marks.** -/
lemma Template.exists_finishes_of_four {t : Template} (h : (.four, t) ∈ templates) :
    ∃ k, ∃ j < 5, t.Finishes k j := by
  have hall : ∀ m ∈ templates, m.1 = Family.four → ∃ k < 6, ∃ j < 5, m.2.Finishes k j := by decide
  obtain ⟨k, -, j, hj, hf⟩ := hall _ h rfl
  exact ⟨k, j, hj, hf⟩

/-- **An open four is finished on either of two free marks.** -/
lemma Template.exists_finishes_of_openFour {t : Template} (h : (.openFour, t) ∈ templates) :
    ∃ k k', k ≠ k' ∧ (∃ j < 5, t.Finishes k j) ∧ ∃ j < 5, t.Finishes k' j := by
  have hall : ∀ m ∈ templates, m.1 = Family.openFour →
      ∃ k < 6, ∃ k' < 6, k ≠ k' ∧ (∃ j < 5, m.2.Finishes k j) ∧ ∃ j < 5, m.2.Finishes k' j := by
    decide
  obtain ⟨k, -, k', -, hne, hk, hk'⟩ := hall _ h rfl
  exact ⟨k, k', hne, hk, hk'⟩

/-! ### Cells -/

/-- The empty cell `e`, `n` steps from `c` and not `c` itself, is one stone short of five once the
colour has a stone on `c`. -/
def Leaves (o : Cell → Option Color) (color : Color) (c : Cell) (d : Direction) (n : ℤ)
    (e : Cell) : Prop :=
  n ≠ 0 ∧ c.offset d.step n = some e ∧ o e = none ∧
    ∃ j < 5, Completes (Function.update o c (some color)) color e d j

/-- A mark that finishes a template which fits is a cell that the stone leaves. -/
lemma Pattern.exists_leaves {f : Family} {t : Template} (id : ℕ) (hmem : (f, t) ∈ templates)
    (hfits : (ofTemplate id f t).fits (Window.ofCells o c color d) = true) {k j : ℕ} (hj : j < 5)
    (hk : t.Finishes k j) : ∃ e, Leaves o color c d ((k : ℤ) - anchorOf t) e := by
  obtain ⟨hlow, hhigh⟩ := Template.inSight hmem
  have hmarks := (fits_ofTemplate_iff id f hlow hhigh).mp hfits
  obtain ⟨hne, hjk, hmark, hrow⟩ := hk
  obtain ⟨m, hm, hfree⟩ := (Option.any_eq_true _ _).mp hmark
  obtain ⟨e, he, heo⟩ : Mark.Holds o color .gap (c.offset d.step ((k : ℤ) - anchorOf t)) := by
    have hholds := hmarks k m hm
    cases m <;> first | exact hholds | cases hfree
  refine ⟨e, by omega, he, heo, j, hj, fun i hi hij => ?_⟩
  have hwalk : e.offset d.step ((i : ℤ) - j) =
      c.offset d.step (((k + i - j : ℕ) : ℤ) - anchorOf t) := by
    rw [Cell.offset_offset he]
    congr 1
    omega
  rw [hwalk]
  rcases hrow i hi hij with hanchor | hstone
  · rw [hanchor, sub_self, Cell.offset_zero]
    exact ⟨c, rfl, Function.update_self ..⟩
  · obtain ⟨q, hq, hqo⟩ := hmarks _ _ hstone
    have hqc : q ≠ c := by
      rintro rfl
      have hzero := (Direction.offset_eq_some_iff.mp hq).2
      have hoffset : k + i - j = anchorOf t := by omega
      rw [hoffset] at hstone
      have hanchor : ∀ m ∈ templates, m.2[anchorOf m.2]? ≠ some .stone := by decide
      exact hanchor _ hmem hstone
    exact ⟨q, hq, by rwa [Function.update_of_ne hqc]⟩

/-- The template of a pattern that is found, which fits. -/
lemma exists_template_of_matchAt {p : Pattern} (h : matchAt o c color d = some p) :
    ∃ id t, (p.family, t) ∈ templates ∧
      (Pattern.ofTemplate id p.family t).fits (Window.ofCells o c color d) = true := by
  have hfits : p.fits (Window.ofCells o c color d) = true := Window.fits_of_strongest h
  obtain ⟨id, f, t, hid, rfl⟩ := Pattern.mem_patterns_iff.mp (Window.mem_patterns h)
  exact ⟨id, t, List.mem_of_getElem? hid, hfits⟩

/-- **An open four leaves two cells on its line.** -/
lemma exists_leaves_of_openFour {p : Pattern} (h : matchAt o c color d = some p)
    (hp : p.family = .openFour) :
    ∃ m n e e', m ≠ n ∧ Leaves o color c d m e ∧ Leaves o color c d n e' := by
  obtain ⟨id, t, hmem, hfits⟩ := exists_template_of_matchAt h
  rw [hp] at hmem hfits
  obtain ⟨k, k', hne, ⟨j, hj, hk⟩, j', hj', hk'⟩ := Template.exists_finishes_of_openFour hmem
  obtain ⟨e, he⟩ := Pattern.exists_leaves id hmem hfits hj hk
  obtain ⟨e', he'⟩ := Pattern.exists_leaves id hmem hfits hj' hk'
  exact ⟨_, _, e, e', by omega, he, he'⟩

/-- **A four, open or not, leaves a cell on its line.** -/
lemma exists_leaves_of_four {p : Pattern} (h : matchAt o c color d = some p)
    (hp : p.family = .four ∨ p.family = .openFour) : ∃ n e, Leaves o color c d n e := by
  rcases hp with hp | hp
  · obtain ⟨id, t, hmem, hfits⟩ := exists_template_of_matchAt h
    rw [hp] at hmem hfits
    obtain ⟨k, j, hj, hk⟩ := Template.exists_finishes_of_four hmem
    obtain ⟨e, he⟩ := Pattern.exists_leaves id hmem hfits hj hk
    exact ⟨_, e, he⟩
  · obtain ⟨m, -, e, -, -, he, -⟩ := exists_leaves_of_openFour h hp
    exact ⟨m, e, he⟩

/-- A cell that is left is not the stone's. -/
lemma Leaves.ne {n : ℤ} {e : Cell} (h : Leaves o color c d n e) : e ≠ c := by
  rintro rfl
  have hbit := (Direction.offset_eq_some_iff.mp h.2.1).2
  exact h.1 (by omega)

/-- Walks of different lengths, and walks along different directions, lead to different cells. -/
lemma Leaves.cell_ne {m n : ℤ} {e e' : Cell} (h : Leaves o color c d m e)
    (h' : Leaves o color c d' n e') (hne : d ≠ d' ∨ m ≠ n) : e ≠ e' := by
  rintro rfl
  obtain ⟨hm, hoff, -⟩ := h
  obtain ⟨hn, hoff', -⟩ := h'
  obtain ⟨hx, hy⟩ := Cell.offset_eq_some_iff.mp hoff
  obtain ⟨hx', hy'⟩ := Cell.offset_eq_some_iff.mp hoff'
  cases d <;> cases d' <;> simp only [Direction.step, ne_eq, not_true_eq_false, false_or] at * <;>
    omega

/-! ### Strong moves -/

/-- The best of the patterns of a cell is one of them, if there is any. -/
lemma exists_best (o : Cell → Option Color) (c : Cell) (color : Color) :
    (Finset.univ.sup fun d => ((matchAt o c color d).map Pattern.priority).getD Priority.none) =
        Priority.none ∨
      ∃ d p, matchAt o c color d = some p ∧ (Finset.univ.sup fun d =>
        ((matchAt o c color d).map Pattern.priority).getD Priority.none) = p.priority := by
  obtain ⟨d, -, hd⟩ := Finset.exists_mem_eq_sup Finset.univ ⟨Direction.horizontal,
    Finset.mem_univ _⟩ fun d => ((matchAt o c color d).map Pattern.priority).getD Priority.none
  rw [hd]
  cases hp : matchAt o c color d with
  | none => exact .inl rfl
  | some p => exact .inr ⟨d, p, hp, rfl⟩

/-- Attack is urgent only through an open four. -/
lemma exists_openFour_of_urgent (h : attackFrom o c color = Priority.urgent) :
    ∃ d p, matchAt o c color d = some p ∧ p.family = .openFour := by
  have hbest : (Finset.univ.sup fun d => ((matchAt o c color d).map Pattern.priority).getD
      Priority.none) = Priority.urgent := by
    have hsup : ∀ p : Priority, p ⊔ Priority.vital = Priority.urgent → p = Priority.urgent := by
      decide
    rw [attackFrom] at h
    split_ifs at h
    · cases h
    · exact hsup _ h
    · exact h
  rcases exists_best o c color with hnone | ⟨d, p, hp, hd⟩
  · rw [hbest] at hnone
    cases hnone
  · have hfamily : ∀ f : Family, Priority.urgent = f.priority → f = .openFour := by
      intro f
      cases f <;> decide
    exact ⟨d, p, hp, hfamily _ (hbest.symm.trans hd)⟩

/-- Between urgent and immediate there is no attack. -/
lemma attackFrom_eq_urgent (h : Priority.urgent ≤ attackFrom o c color)
    (hne : attackFrom o c color ≠ Priority.immediate) :
    attackFrom o c color = Priority.urgent := by
  have hbest : (Finset.univ.sup fun d => ((matchAt o c color d).map Pattern.priority).getD
      Priority.none) ≠ 7 := by
    rcases exists_best o c color with hnone | ⟨d, p, -, hd⟩
    · rw [hnone]
      decide
    · have hfamily : ∀ f : Family, f.priority ≠ 7 := by
        intro f
        cases f <;> decide
      rw [hd]
      exact hfamily _
  have hraised : ∀ p : Priority, p ≠ 7 → Priority.urgent ≤ p ⊔ Priority.vital →
      p ⊔ Priority.vital ≠ Priority.immediate → p ⊔ Priority.vital = Priority.urgent := by decide
  have hplain : ∀ p : Priority, p ≠ 7 → Priority.urgent ≤ p → p ≠ Priority.immediate →
      p = Priority.urgent := by decide
  rw [attackFrom] at h hne ⊢
  split_ifs at h hne ⊢
  · exact absurd h (by decide)
  · exact hraised _ hbest h hne
  · exact hplain _ hbest h hne

/-- Two different empty cells, each of which completes five once the colour has a stone on `c`. -/
def LeavesTwo (o : Cell → Option Color) (color : Color) (c : Cell) : Prop :=
  ∃ e e', e ≠ e' ∧ (∃ d n, Leaves o color c d n e) ∧ ∃ d n, Leaves o color c d n e'

/-- **An urgent attack leaves two cells**: those of the open four. -/
lemma leavesTwo_of_urgent (h : attackFrom o c color = Priority.urgent) : LeavesTwo o color c := by
  obtain ⟨d, p, hp, hfamily⟩ := exists_openFour_of_urgent h
  obtain ⟨m, n, e, e', hmn, he, he'⟩ := exists_leaves_of_openFour hp hfamily
  exact ⟨e, e', he.cell_ne he' (.inr hmn), ⟨d, m, he⟩, d, n, he'⟩

/-- **Fours in two directions leave two cells**, one on each line. -/
lemma leavesTwo_of_fours (hd : d ≠ d') {p p' : Pattern} (h : matchAt o c color d = some p)
    (hp : p.family = .four ∨ p.family = .openFour) (h' : matchAt o c color d' = some p')
    (hp' : p'.family = .four ∨ p'.family = .openFour) : LeavesTwo o color c := by
  obtain ⟨m, e, he⟩ := exists_leaves_of_four h hp
  obtain ⟨n, e', he'⟩ := exists_leaves_of_four h' hp'
  exact ⟨e, e', he.cell_ne he' (.inl hd), ⟨d, m, he⟩, d', n, he'⟩

end FiveInRow
