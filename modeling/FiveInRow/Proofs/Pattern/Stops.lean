import Mathlib.Tactic
import FiveInRow.Proofs.Pattern.Drawn
import FiveInRow.Proofs.Pattern.Reversal

/-!
Where threats are stopped. A record knows of a threat only through the pattern that is found first,
and which of several templates that is depends on the direction in which the line is read. Still no
threat is lost: where a template is shown, the pattern that is found on one of its free cells is as
urgent and is stopped on the same cell.

* `Template.Compatible`, `Template.Contains`: two templates on the same line;
* `Template.Answers`, `Template.exists_answers`: the check of the table; for every defence mark
  there is a free mark where anything as urgent that can be found is stopped on the defence mark;
* `Stoppable`, `Stops`: a template that is shown, and a pattern that is found, is stopped on a cell;
* `Stoppable.exists_stops`: what is shown and stopped there is found and stopped there;
* `Owed.exists_stops`, `Stops.exists_owed`: the entries of a record, and what it stops;
* `Symmetry.Carries.exists_owed`: a symmetry keeps how urgent the threats are that are stopped on a
  cell, on every line.
-/

namespace FiveInRow

variable {o o' : Cell → Option Color} {color : Color} {a c z : Cell} {d : Direction} {f : Family}
  {t u : Template} {j k : ℕ}

/-! ### Marks on the same cell -/

/-- A cell is one kind of place only. -/
lemma Mark.place_eq_of_holds {m m' : Mark} {x : Option Cell} (h : m.Holds o color x)
    (h' : m'.Holds o color x) : m.place = m'.place := by
  cases x with
  | none => cases m <;> cases m' <;> simp_all [Mark.Holds, Mark.place]
  | some e =>
      cases ho : o e with
      | none => cases m <;> cases m' <;> simp_all [Mark.Holds, Mark.place]
      | some side =>
          cases m <;> cases m' <;> cases side <;> cases color <;>
            simp_all [Mark.Holds, Mark.place, Color.other]

/-- What a mark asks of a cell depends on the kind of its place. -/
lemma Mark.Holds.of_place_eq {m m' : Mark} {x : Option Cell} (h : m.Holds o color x)
    (hplace : m.place = m'.place) : m'.Holds o color x := by
  cases m <;> cases m' <;> first | exact h | cases hplace

namespace Template

/-! ### Two templates on a line -/

/-- The marks of two templates that lie on the same cells, where the anchor of the second template
lies on mark number `j` of the first one. -/
def overlap (t : Template) (j : ℕ) (u : Template) : List (Mark × Mark) :=
  (t.drop (j - Pattern.anchorOf u)).zip (u.drop (Pattern.anchorOf u - j))

/-- A line can show both templates. -/
def Compatible (t : Template) (j : ℕ) (u : Template) : Prop :=
  ∀ x ∈ t.overlap j u, x.1.place = x.2.place

/-- A line that shows the first template shows the second one as well. -/
def Contains (t : Template) (j : ℕ) (u : Template) : Prop :=
  Pattern.anchorOf u ≤ j ∧ j + u.length ≤ t.length + Pattern.anchorOf u ∧ t.Compatible j u

/-- The free mark `j` of a template answers for its mark `k`: what is found there is as urgent as
the family, and it is stopped on `k`, as its anchor or because every template that can be found
there has a defence mark on it. -/
def Answers (t : Template) (f : Family) (k j : ℕ) : Prop :=
  t[j]?.any Pattern.isFree = true ∧
  (∃ u ∈ templates, f.priority ≤ u.1.priority ∧ t.Contains j u.2) ∧
  (j = k ∨ ∀ u ∈ templates, f.priority ≤ u.1.priority → t.Compatible j u.2 →
    j ≤ k + Pattern.anchorOf u.2 ∧
      u.2[k + Pattern.anchorOf u.2 - j]?.any Pattern.isDefence = true)

instance (t : Template) (j : ℕ) (u : Template) : Decidable (t.Compatible j u) :=
  inferInstanceAs (Decidable (∀ x ∈ _, _))

instance (t : Template) (j : ℕ) (u : Template) : Decidable (t.Contains j u) :=
  inferInstanceAs (Decidable (_ ∧ _ ∧ _))

instance (t : Template) (f : Family) (k j : ℕ) : Decidable (t.Answers f k j) :=
  inferInstanceAs (Decidable (_ ∧ _ ∧ (_ ∨ _)))

/-- **Every defence mark has a free mark that answers for it**: the mark itself, the anchor, or a
free mark between the stones. -/
lemma exists_answers (h : (f, t) ∈ templates) (hk : t[k]?.any Pattern.isDefence = true) :
    ∃ j, t.Answers f k j := by
  have hall : ∀ m ∈ templates, ∀ k < m.2.length, m.2[k]?.any Pattern.isDefence = true →
      ∃ j ∈ [k, Pattern.anchorOf m.2, 1, 2, 3, 4], m.2.Answers m.1 k j := by decide +kernel
  obtain ⟨m, hm, -⟩ := (Option.any_eq_true _ _).mp hk
  obtain ⟨hlt, -⟩ := List.getElem?_eq_some_iff.mp hm
  obtain ⟨j, -, hj⟩ := hall _ h k hlt hk
  exact ⟨j, hj⟩

lemma mem_overlap {x : Mark × Mark} :
    x ∈ t.overlap j u ↔ ∃ i, t[j - Pattern.anchorOf u + i]? = some x.1 ∧
      u[Pattern.anchorOf u - j + i]? = some x.2 := by
  rw [overlap, List.mem_iff_getElem?]
  refine exists_congr fun i => ?_
  rw [List.getElem?_zip_eq_some, List.getElem?_drop, List.getElem?_drop]

/-- Two templates that are shown are compatible. -/
lemma Shown.compatible (ht : t.Shown o color a d)
    (hz : a.offset d.step ((j : ℤ) - Pattern.anchorOf t) = some z) (hu : u.Shown o color z d) :
    t.Compatible j u := by
  intro x hx
  obtain ⟨i, hi, hi'⟩ := mem_overlap.mp hx
  have hfirst := ht _ _ hi
  have hsecond := hu _ _ hi'
  rw [Cell.offset_offset hz] at hsecond
  have hcell : (j : ℤ) - Pattern.anchorOf t +
      (((Pattern.anchorOf u - j + i : ℕ) : ℤ) - Pattern.anchorOf u) =
        ((j - Pattern.anchorOf u + i : ℕ) : ℤ) - Pattern.anchorOf t := by omega
  rw [hcell] at hsecond
  exact Mark.place_eq_of_holds hfirst hsecond

/-- A template within one that is shown is shown. -/
lemma Shown.of_contains (ht : t.Shown o color a d)
    (hz : a.offset d.step ((j : ℤ) - Pattern.anchorOf t) = some z) (hc : t.Contains j u) :
    u.Shown o color z d := by
  obtain ⟨hlow, hhigh, hcompatible⟩ := hc
  intro i m hm
  obtain ⟨hlt, -⟩ := List.getElem?_eq_some_iff.mp hm
  obtain ⟨m', hm'⟩ : ∃ m', t[j - Pattern.anchorOf u + i]? = some m' :=
    ⟨_, List.getElem?_eq_getElem (by omega)⟩
  have hpair : (m', m) ∈ t.overlap j u := by
    refine mem_overlap.mpr ⟨i, hm', ?_⟩
    rwa [Nat.sub_eq_zero_of_le hlow, Nat.zero_add]
  have hholds := (ht _ _ hm').of_place_eq (hcompatible _ hpair)
  rw [Cell.offset_offset hz]
  have hcell : (j : ℤ) - Pattern.anchorOf t + ((i : ℤ) - Pattern.anchorOf u) =
      ((j - Pattern.anchorOf u + i : ℕ) : ℤ) - Pattern.anchorOf t := by omega
  rwa [hcell]

/-- A free mark of a template that is shown lies on an empty cell. -/
lemma Shown.exists_free (ht : t.Shown o color a d) (hj : t[j]?.any Pattern.isFree = true) :
    ∃ z, a.offset d.step ((j : ℤ) - Pattern.anchorOf t) = some z ∧ o z = none := by
  obtain ⟨m, hm, hfree⟩ := (Option.any_eq_true _ _).mp hj
  have hholds := ht j m hm
  cases m <;> first | exact hholds | cases hfree

end Template

/-! ### Stops -/

/-- The defence cells of a compiled template are those of its defence marks. -/
lemma Pattern.mem_defence_ofTemplate {id : ℕ} {n : ℤ} :
    n ∈ (ofTemplate id f t).defence ↔
      ∃ (k : ℕ) (m : Mark), t[k]? = some m ∧ isDefence m = true ∧ (k : ℤ) - anchorOf t = n := by
  rw [ofTemplate, List.mem_map]
  constructor
  · rintro ⟨⟨m, k⟩, hmem, rfl⟩
    obtain ⟨hmem, hm⟩ := List.mem_filter.mp hmem
    exact ⟨k, m, List.mk_mem_zipIdx_iff_getElem?.mp hmem, hm, rfl⟩
  · rintro ⟨k, m, hk, hm, rfl⟩
    exact ⟨(m, k), List.mem_filter.mpr ⟨List.mk_mem_zipIdx_iff_getElem?.mpr hk, hm⟩, rfl⟩

/-- The pattern that is found is a compiled template, which is shown. -/
lemma exists_template_shown {p : Pattern} (h : matchAt o c color d = some p) :
    ∃ id t, (p.family, t) ∈ templates ∧ t.Shown o color c d ∧
      p = Pattern.ofTemplate id p.family t := by
  obtain ⟨id, f, t, hid, rfl⟩ := Pattern.mem_patterns_iff.mp (Window.mem_patterns h)
  have hmem := List.mem_of_getElem? hid
  obtain ⟨hlow, hhigh⟩ := Template.inSight hmem
  exact ⟨id, t, hmem, (Pattern.fits_ofTemplate_iff id f hlow hhigh).mp
    (Window.fits_of_strongest h), rfl⟩

/-- A line shows a template of the family for `color`, and the cell lies on one of its defence
marks. -/
def Stoppable (o : Cell → Option Color) (color : Color) (c : Cell) (d : Direction) (f : Family) :
    Prop :=
  ∃ (a : Cell) (t : Template) (k : ℕ), (f, t) ∈ templates ∧ t.Shown o color a d ∧
    t[k]?.any Pattern.isDefence = true ∧ a.offset d.step ((k : ℤ) - Pattern.anchorOf t) = some c

/-- The pattern of `color` that is found on an empty cell of a line is of the family, and `c` is one
of its defence cells. -/
def Stops (o : Cell → Option Color) (color : Color) (c : Cell) (d : Direction) (f : Family) :
    Prop :=
  ∃ a p n, o a = none ∧ matchAt o a color d = some p ∧ p.family = f ∧ n ∈ p.defence ∧
    a.offset d.step n = some c

lemma Stops.stoppable (h : Stops o color c d f) : Stoppable o color c d f := by
  obtain ⟨a, p, n, -, hp, rfl, hn, hc⟩ := h
  obtain ⟨id, t, hmem, hshown, hpt⟩ := exists_template_shown hp
  rw [hpt] at hn
  obtain ⟨k, m, hk, hm, rfl⟩ := Pattern.mem_defence_ofTemplate.mp hn
  exact ⟨a, t, k, hmem, hshown, (Option.any_eq_true _ _).mpr ⟨m, hk, hm⟩, hc⟩

/-- The anchor of every template is a defence mark. -/
lemma Template.any_isDefence_anchorOf (h : (f, t) ∈ templates) :
    t[Pattern.anchorOf t]?.any Pattern.isDefence = true := by
  have hall : ∀ m ∈ templates, m.2[Pattern.anchorOf m.2]?.any Pattern.isDefence = true := by decide
  exact hall _ h

/-- **What is shown and stopped on a cell is found and stopped there**, or something more urgent
on the same line. -/
lemma Stoppable.exists_stops (h : Stoppable o color c d f) :
    ∃ f', f.priority ≤ f'.priority ∧ Stops o color c d f' := by
  obtain ⟨a, t, k, hmem, hshown, hk, hc⟩ := h
  obtain ⟨j, hfree, ⟨⟨g, u⟩, hu, hle, hcontains⟩, hanswers⟩ := Template.exists_answers hmem hk
  obtain ⟨z, hz, hzo⟩ := hshown.exists_free hfree
  -- on the answering mark something as urgent is found, whose template is compatible
  obtain ⟨p, hp, hle'⟩ := exists_matchAt_of_shown hu (hshown.of_contains hz hcontains)
  obtain ⟨id, v, hv, hvshown, hpv⟩ := exists_template_shown hp
  have hurgent : f.priority ≤ p.family.priority := hle.trans hle'
  -- one of its defence marks lies on the cell
  obtain ⟨i, hi, hcell⟩ : ∃ i : ℕ, v[i]?.any Pattern.isDefence = true ∧
      (j : ℤ) - Pattern.anchorOf t + ((i : ℤ) - Pattern.anchorOf v) = k - Pattern.anchorOf t := by
    rcases hanswers with rfl | hanswers
    · exact ⟨Pattern.anchorOf v, Template.any_isDefence_anchorOf hv, by omega⟩
    · obtain ⟨hplace, hdefence⟩ := hanswers _ hv hurgent (hshown.compatible hz hvshown)
      exact ⟨_, hdefence, by dsimp only at hplace ⊢; omega⟩
  obtain ⟨m, hm, hdefence⟩ := (Option.any_eq_true _ _).mp hi
  refine ⟨p.family, hurgent, z, p, (i : ℤ) - Pattern.anchorOf v, hzo, hp, rfl, ?_, ?_⟩
  · rw [hpv]
    exact Pattern.mem_defence_ofTemplate.mpr ⟨i, m, hm, hdefence, rfl⟩
  · rw [Cell.offset_offset hz, hcell, hc]

/-- An entry of a record stops a pattern on its line. -/
lemma Owed.exists_stops {side : Color} {e : DefenceEntry} (h : Owed o c side e) :
    ∃ f, Stops o side.other c e.pattern.direction f ∧ e.pattern.priority = f.priority := by
  obtain ⟨a, d, p, k, n, ho, hp, hk, hn, rfl⟩ := h
  exact ⟨p.family, ⟨a, p, n, ho, hp, rfl, List.mem_of_getElem? hk, hn⟩,
    Pattern.priority_ref (Window.mem_patterns hp) k d⟩

/-- A pattern that is stopped has an entry in the record. -/
lemma Stops.exists_owed {side : Color} (h : Stops o side.other c d f) :
    ∃ e, Owed o c side e ∧ e.pattern.priority = f.priority ∧ e.pattern.direction = d := by
  obtain ⟨a, p, n, ho, hp, rfl, hn, hc⟩ := h
  have hmem := Window.mem_patterns hp
  obtain ⟨k, hk⟩ := List.mem_iff_getElem?.mp hn
  have hk4 : k < 4 := by
    obtain ⟨hlt, -⟩ := List.getElem?_eq_some_iff.mp hk
    exact hlt.trans_le (Pattern.defence_nodup hmem).2
  exact ⟨_, ⟨a, d, p, ⟨k, hk4⟩, n, ho, hp, hk, hc, rfl⟩, Pattern.priority_ref hmem _ d, rfl⟩

/-! ### Turned positions -/

namespace Symmetry

variable {s : Symmetry}

/-- A mark of a template is a mark of the template that the image of a line shows, as far from the
anchor in the sense of the image. -/
lemma exists_getElem?_lay (s : Symmetry) (d : Direction) (hmem : (f, t) ∈ templates) {m : Mark}
    (hk : t[k]? = some m) : ∃ i : ℕ, (s.lay d t)[i]? = some m ∧
      (i : ℤ) - Pattern.anchorOf (s.lay d t) = s.sense d * ((k : ℤ) - Pattern.anchorOf t) := by
  rcases s.sense_eq d with hsense | hsense
  · rw [lay, if_pos hsense, hsense]
    exact ⟨k, hk, (one_mul _).symm⟩
  · have hne : s.sense d ≠ 1 := by omega
    have hanchor := Template.anchorOf_reverse hmem
    obtain ⟨hlt, -⟩ := List.getElem?_eq_some_iff.mp hk
    rw [lay, if_neg hne, hsense]
    refine ⟨t.length - 1 - k, ?_, by omega⟩
    rw [List.getElem?_reverse (by omega), ← hk]
    congr 1
    omega

/-- What is shown and stopped on a cell is shown and stopped on its image. -/
lemma Carries.stoppable (h : s.Carries o o') (hstop : Stoppable o color c d f) :
    Stoppable o' color (s.onCell c) (s.turn d) f := by
  obtain ⟨a, t, k, hmem, hshown, hk, hc⟩ := hstop
  obtain ⟨m, hm, hdefence⟩ := (Option.any_eq_true _ _).mp hk
  obtain ⟨i, hi, hcell⟩ := s.exists_getElem?_lay d hmem hm
  refine ⟨s.onCell a, s.lay d t, i, s.lay_mem_templates d hmem, h.shown_lay hmem hshown,
    (Option.any_eq_true _ _).mpr ⟨m, hi, hdefence⟩, ?_⟩
  rw [hcell, s.offset_onCell, hc, Option.map_some]

/-- **A symmetry keeps how urgent the threats are** that are stopped on a cell, on every line. -/
lemma Carries.exists_owed (h : s.Carries o o') {side : Color} {e : DefenceEntry}
    (he : Owed o c side e) :
    ∃ e', Owed o' (s.onCell c) side e' ∧ e.pattern.priority ≤ e'.pattern.priority ∧
      e'.pattern.direction = s.turn e.pattern.direction := by
  obtain ⟨f, hstops, hpriority⟩ := he.exists_stops
  obtain ⟨f', hle, hstops'⟩ := (h.stoppable hstops.stoppable).exists_stops
  obtain ⟨e', he', hpriority', hdirection⟩ := hstops'.exists_owed
  exact ⟨e', he', by rwa [hpriority, hpriority'], hdirection⟩

end Symmetry

end FiveInRow
