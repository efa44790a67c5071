import Mathlib.Tactic
import FiveInRow.Proofs.Grid.Symmetry
import FiveInRow.Proofs.Pattern.Fours

/-!
The patterns do not depend on how the board is turned. A symmetry of the board runs through some
lines backwards, and every template is still one of its family when it is reversed.

* `Template.Shown`: the marks of a template hold around a cell;
* `Template.reverse_mem_templates`, `Symmetry.Carries.shown_lay`: a line that is run through
  backwards shows the reversed template, which has the same family;
* `exists_matchAt_of_shown`, `exists_shown_of_matchAt`: the pattern that is found is among the most
  urgent that are shown;
* `Symmetry.Carries.matchAt_priority`, `Symmetry.Carries.attackFrom_eq`: so what is found on the
  image of a cell is as urgent, and the attack priority is the same;
* `Symmetry.Carries.hasFive_iff`: rows of five go to rows of five.
-/

namespace FiveInRow

variable {o o' : Cell → Option Color} {color : Color} {c : Cell} {d : Direction} {f : Family}
  {t : Template}

/-! ### Templates -/

namespace Template

/-- Every mark of a template holds when its anchor is laid on a cell. -/
def Shown (t : Template) (o : Cell → Option Color) (color : Color) (c : Cell) (d : Direction) :
    Prop :=
  ∀ (k : ℕ) (m : Mark), t[k]? = some m →
    m.Holds o color (c.offset d.step ((k : ℤ) - Pattern.anchorOf t))

/-- **The templates of a family are closed under reversal.** -/
lemma reverse_mem_templates (h : (f, t) ∈ templates) : (f, t.reverse) ∈ templates := by
  have hall : ∀ m ∈ templates, (m.1, m.2.reverse) ∈ templates := by decide
  exact hall _ h

/-- The anchor of a reversed template is as far from its end as it was from its start. -/
lemma anchorOf_reverse (h : (f, t) ∈ templates) :
    Pattern.anchorOf t.reverse + Pattern.anchorOf t + 1 = t.length := by
  have hall : ∀ m ∈ templates,
      Pattern.anchorOf m.2.reverse + Pattern.anchorOf m.2 + 1 = m.2.length := by decide
  exact hall _ h

end Template

/-- A pattern of a template that is shown is found, or a more urgent one. -/
lemma exists_matchAt_of_shown (hmem : (f, t) ∈ templates) (h : t.Shown o color c d) :
    ∃ p, matchAt o c color d = some p ∧ f.priority ≤ p.priority := by
  obtain ⟨hlow, hhigh⟩ := Template.inSight hmem
  obtain ⟨id, hid⟩ := List.mem_iff_getElem?.mp hmem
  have hpattern : Pattern.ofTemplate id f t ∈ patterns :=
    Pattern.mem_patterns_iff.mpr ⟨id, f, t, hid, rfl⟩
  exact Window.exists_strongest hpattern ((Pattern.fits_ofTemplate_iff id f hlow hhigh).mpr h)

/-- The pattern that is found has a template, which is shown. -/
lemma exists_shown_of_matchAt {p : Pattern} (h : matchAt o c color d = some p) :
    ∃ t, (p.family, t) ∈ templates ∧ t.Shown o color c d := by
  obtain ⟨id, t, hmem, hfits⟩ := exists_template_of_matchAt h
  obtain ⟨hlow, hhigh⟩ := Template.inSight hmem
  exact ⟨t, hmem, (Pattern.fits_ofTemplate_iff id p.family hlow hhigh).mp hfits⟩

/-- The attack priority only depends on how urgent the patterns are that are found, not on which
direction each of them has. -/
lemma attackFrom_congr {c' : Cell} {turn : Direction → Direction}
    (hturn : Function.Bijective turn) (hc : o' c' = o c)
    (h : ∀ d, (matchAt o' c' color (turn d)).map Pattern.priority =
      (matchAt o c color d).map Pattern.priority) :
    attackFrom o' c' color = attackFrom o c color := by
  have himage : (Finset.univ : Finset Direction) = Finset.univ.image turn :=
    (Finset.image_univ_of_surjective hturn.2).symm
  have hbest : (Finset.univ.sup fun d =>
      ((matchAt o' c' color d).map Pattern.priority).getD Priority.none) =
        Finset.univ.sup fun d =>
          ((matchAt o c color d).map Pattern.priority).getD Priority.none := by
    rw [himage, Finset.sup_image]
    simp only [Function.comp_def, h]
    rw [← himage]
  have hstrong : ∀ d, ((matchAt o' c' color (turn d)).any fun p => Priority.high ≤ p.priority) =
      (matchAt o c color d).any fun p => Priority.high ≤ p.priority := by
    intro d
    have hany := congrArg (Option.any fun q => decide (Priority.high ≤ q)) (h d)
    rwa [Option.any_map, Option.any_map] at hany
  have hcard : (Finset.univ.filter fun d =>
      ((matchAt o' c' color d).any fun p => Priority.high ≤ p.priority) = true).card =
        (Finset.univ.filter fun d =>
          ((matchAt o c color d).any fun p => Priority.high ≤ p.priority) = true).card := by
    rw [himage, Finset.filter_image, Finset.card_image_of_injective _ hturn.1]
    simp only [hstrong]
    rw [← himage]
  rw [attackFrom, attackFrom, hc, hbest, hcard]

namespace Symmetry

variable {s : Symmetry}

/-- What a mark asks of a cell, it asks of the image of the cell. -/
lemma Carries.holds_iff (h : s.Carries o o') (m : Mark) (x : Option Cell) :
    m.Holds o' color (x.map s.onCell) ↔ m.Holds o color x := by
  cases x <;> cases m <;> simp [Mark.Holds, h _]

/-- The template that the image of a line shows. -/
def lay (s : Symmetry) (d : Direction) (t : Template) : Template :=
  if s.sense d = 1 then t else t.reverse

lemma lay_mem_templates (s : Symmetry) (d : Direction) (h : (f, t) ∈ templates) :
    (f, s.lay d t) ∈ templates := by
  rw [lay]
  split_ifs
  · exact h
  · exact Template.reverse_mem_templates h

/-- **A symmetry takes a template that is shown to one that is shown**, reversed if the line is
run through backwards. -/
lemma Carries.shown_lay (h : s.Carries o o') (hmem : (f, t) ∈ templates)
    (hshown : t.Shown o color c d) : (s.lay d t).Shown o' color (s.onCell c) (s.turn d) := by
  intro k m hk
  rcases s.sense_eq d with hsense | hsense
  · rw [lay, if_pos hsense] at hk ⊢
    have hwalk := s.offset_onCell c d ((k : ℤ) - Pattern.anchorOf t)
    rw [hsense, one_mul] at hwalk
    rw [hwalk, h.holds_iff]
    exact hshown k m hk
  · have hne : s.sense d ≠ 1 := by omega
    rw [lay, if_neg hne] at hk ⊢
    have hanchor := Template.anchorOf_reverse hmem
    have hlt : k < t.length := by
      obtain ⟨hlt, -⟩ := List.getElem?_eq_some_iff.mp hk
      rwa [List.length_reverse] at hlt
    rw [List.getElem?_reverse hlt] at hk
    have hwalk := s.offset_onCell c d (((t.length - 1 - k : ℕ) : ℤ) - Pattern.anchorOf t)
    have hback : s.sense d * (((t.length - 1 - k : ℕ) : ℤ) - Pattern.anchorOf t) =
        (k : ℤ) - Pattern.anchorOf t.reverse := by
      rw [hsense]
      omega
    rw [hback] at hwalk
    rw [hwalk, h.holds_iff]
    exact hshown _ m hk

/-- What is found on a cell, something as urgent is found on its image. -/
lemma Carries.exists_matchAt (h : s.Carries o o') {p : Pattern}
    (hp : matchAt o c color d = some p) :
    ∃ q, matchAt o' (s.onCell c) color (s.turn d) = some q ∧ p.priority ≤ q.priority := by
  obtain ⟨t, hmem, hshown⟩ := exists_shown_of_matchAt hp
  exact exists_matchAt_of_shown (s.lay_mem_templates d hmem) (h.shown_lay hmem hshown)

/-- **What is found on the image of a cell is as urgent** as what is found on the cell. -/
lemma Carries.matchAt_priority (h : s.Carries o o') (c : Cell) (color : Color) (d : Direction) :
    (matchAt o' (s.onCell c) color (s.turn d)).map Pattern.priority =
      (matchAt o c color d).map Pattern.priority := by
  have hback : ∀ {q}, matchAt o' (s.onCell c) color (s.turn d) = some q →
      ∃ p, matchAt o c color d = some p ∧ q.priority ≤ p.priority := by
    intro q hq
    have hinverse := h.inverse.exists_matchAt hq
    rwa [inverse_onCell, turn_inverse, s.turn_involutive d] at hinverse
  cases hp : matchAt o c color d with
  | none =>
      cases hq : matchAt o' (s.onCell c) color (s.turn d) with
      | none => rfl
      | some q =>
          obtain ⟨p, hp', -⟩ := hback hq
          rw [hp] at hp'
          cases hp'
  | some p =>
      obtain ⟨q, hq, hle⟩ := h.exists_matchAt hp
      obtain ⟨p', hp', hge⟩ := hback hq
      rw [hp] at hp'
      obtain rfl := Option.some.inj hp'
      rw [hq, Option.map_some, Option.map_some, le_antisymm hge hle]

/-- **The attack priority does not depend on the board's orientation.** -/
lemma Carries.attackFrom_eq (h : s.Carries o o') (c : Cell) (color : Color) :
    attackFrom o' (s.onCell c) color = attackFrom o c color :=
  attackFrom_congr s.turn_involutive.bijective (h c) (h.matchAt_priority c color)

/-! ### Rows -/

/-- The image of a row of five is a row of five, which may start at the other end. -/
lemma Carries.hasFive_of_row (h : s.Carries o o') {start : Cell} (hrow : Row o color start d 5) :
    HasFive o' color := by
  rcases s.sense_eq d with hsense | hsense
  · refine ⟨s.onCell start, s.turn d, 5, le_rfl, fun i hi => ?_⟩
    obtain ⟨e, he, ho⟩ := hrow i hi
    have hwalk := s.offset_onCell start d i
    rw [hsense, one_mul, he] at hwalk
    exact ⟨s.onCell e, hwalk, (h e).trans ho⟩
  · obtain ⟨last, hlast, -⟩ := hrow 4 (by omega)
    refine ⟨s.onCell last, s.turn d, 5, le_rfl, fun i hi => ?_⟩
    obtain ⟨e, he, ho⟩ := hrow (4 - i) (by omega)
    have hwalk := s.offset_onCell last d (-i)
    have hfour : ((4 : ℕ) : ℤ) + -i = ((4 - i : ℕ) : ℤ) := by omega
    rw [hsense, neg_one_mul, neg_neg, Cell.offset_offset hlast, hfour, he] at hwalk
    exact ⟨s.onCell e, hwalk, (h e).trans ho⟩

/-- **Rows of five go to rows of five.** -/
lemma Carries.hasFive_iff (h : s.Carries o o') : HasFive o' color ↔ HasFive o color := by
  rw [hasFive_iff_row, hasFive_iff_row (o := o)]
  constructor
  · rintro ⟨start, d, hrow⟩
    exact hasFive_iff_row.mp (h.inverse.hasFive_of_row hrow)
  · rintro ⟨start, d, hrow⟩
    exact hasFive_iff_row.mp (h.hasFive_of_row hrow)

end Symmetry

end FiveInRow
