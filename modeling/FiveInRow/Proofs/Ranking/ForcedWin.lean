import Mathlib.Tactic
import FiveInRow.Proofs.Ranking.Forced
import FiveInRow.Proofs.Pattern.Fours

/-!
Moves that cannot be answered. When the opponent cannot win at once, a move that makes an open
four, or fours in two directions, leaves two cells that complete five, and a reply takes at most
one of them.

* `Board.MakesFour`: a move makes a four, open or not, along a direction;
* `Board.Harmless`: a colour cannot win with its next move;
* `Board.inProgress_place`: a move that does not win leaves the game running;
* `Board.inProgress_of_leavesTwo`, `Board.wins_after_reply`: a strong move leaves the game running,
  and so does every reply to it, after which the colour can win;
* `Board.strong_attack_wins`: strong attack priorities are forced wins.
-/

namespace FiveInRow

/-- What a stone completes, it still completes after a stone of another colour elsewhere. -/
lemma Completes.update_other {o : Cell → Option Color} {color other : Color} {c q : Cell}
    {d : Direction} {j : ℕ} (h : Completes o color c d j) (hq : o q = none) :
    Completes (Function.update o q (some other)) color c d j := by
  intro i hi hij
  obtain ⟨e, he, heo⟩ := h i hi hij
  refine ⟨e, he, ?_⟩
  rw [Function.update_of_ne, heo]
  rintro rfl
  rw [hq] at heo
  cases heo

/-- What a stone completes beside a stone of another colour, it completed before. -/
lemma Completes.of_update_other {o : Cell → Option Color} {color other : Color} {c q : Cell}
    {d : Direction} {j : ℕ} (hne : other ≠ color)
    (h : Completes (Function.update o c (some other)) color q d j) : Completes o color q d j := by
  intro i hi hij
  obtain ⟨e, he, heo⟩ := h i hi hij
  refine ⟨e, he, ?_⟩
  rw [Function.update_apply] at heo
  split_ifs at heo
  · exact absurd (Option.some.inj heo) hne
  · exact heo

namespace Board

variable {b : Board} {c q : Cell} {color : Color}

/-- A move makes a four, open or not, along a direction. -/
def MakesFour (b : Board) (c : Cell) (color : Color) (d : Direction) : Prop :=
  ∃ p, b.stones.strongest? c color d = some p ∧ (p.family = .four ∨ p.family = .openFour)

/-- The next move of a colour cannot win. -/
def Harmless (b : Board) (color : Color) : Prop :=
  ∀ q, b.attackOf q (some color) ≠ Priority.immediate

/-- A harmless colour completes no five on a free cell. -/
lemma Harmless.not_completes (h : Harmless b color) (hp : Played b) (hs : b.status = .inProgress)
    (hq : b.get q = none) : ¬ ∃ d, ∃ j < 5, Completes b.get color q d j := by
  intro hrow
  refine h q ?_
  rw [hp.attackOf_eq hs]
  exact attackFrom_eq_immediate_iff.mpr ⟨hq, hrow⟩

/-- A colour without a stone is harmless. -/
lemma harmless_of_absent (hp : Played b) (hs : b.status = .inProgress)
    (habsent : ∀ e, b.get e ≠ some color) : b.Harmless color := by
  intro q himm
  rw [hp.attackOf_eq hs] at himm
  obtain ⟨-, d, j, -, hrow⟩ := attackFrom_eq_immediate_iff.mp himm
  obtain ⟨i, hi, hij⟩ : ∃ i < 5, i ≠ j :=
    if h : j = 0 then ⟨1, by omega, by omega⟩ else ⟨0, by omega, Ne.symm h⟩
  obtain ⟨e, -, he⟩ := hrow i hi hij
  exact habsent e he

/-- **A move that does not win leaves the game running**, as long as another cell is free. -/
lemma inProgress_place (hp : Played b) (ha : b.accepts c = true)
    (hnot : b.attackOf c (some color) ≠ Priority.immediate) (hne : q ≠ c) (hq : b.get q = none) :
    (b.place c color).status = .inProgress := by
  obtain ⟨hs, hc⟩ := accepts_iff.mp ha
  have hno := hp.judged.not_hasFive hs
  refine (hp.judged.place ha color).inProgress_iff.mpr ⟨?_, fun side hfive => ?_⟩
  · exact ⟨q, by rw [get_place, Function.update_of_ne hne, hq]⟩
  · rw [get_place] at hfive
    by_cases hside : side = color
    · subst hside
      refine hnot ?_
      rw [hp.attackOf_eq hs]
      exact attackFrom_eq_immediate_iff.mpr ⟨hc, (hasFive_update_iff hc (hno side)).mp hfive⟩
    · exact hno side (hasFive_update_other hc hside hfive)

/-- A move that leaves two cells and does not win leaves the game running. -/
lemma inProgress_of_leavesTwo (hp : Played b) (ha : b.accepts c = true)
    (hnot : b.attackOf c (some color) ≠ Priority.immediate) (htwo : LeavesTwo b.get color c) :
    (b.place c color).status = .inProgress := by
  obtain ⟨e, -, -, ⟨d, n, he⟩, -⟩ := htwo
  exact inProgress_place hp ha hnot he.ne he.2.2.1

/-- Of two cells that are left, a reply takes at most one. -/
lemma exists_left_of_reply (htwo : LeavesTwo b.get color c) (q : Cell) :
    ∃ r, r ≠ q ∧ r ≠ c ∧ b.get r = none ∧
      ∃ d, ∃ j < 5, Completes (b.place c color).get color r d j := by
  obtain ⟨e, e', hne, ⟨d, n, he⟩, d', n', he'⟩ := htwo
  have hrow := he.2.2.2
  have hrow' := he'.2.2.2
  rw [← get_place] at hrow hrow'
  by_cases heq : e = q
  · exact ⟨e', fun h => hne (heq.trans h.symm), he'.ne, he'.2.2.1, d', hrow'⟩
  · exact ⟨e, heq, he.ne, he.2.2.1, d, hrow⟩

/-- A harmless colour does not win with its reply, so the game runs on while a cell is free. -/
lemma Harmless.inProgress_of_reply {r : Cell} (h : b.Harmless color.other) (hp : Played b)
    (ha : b.accepts c = true) (ha' : (b.place c color).accepts q = true)
    (hfree : ((b.place c color).place q color.other).get r = none) :
    ((b.place c color).place q color.other).status = .inProgress := by
  obtain ⟨hs, -⟩ := accepts_iff.mp ha
  obtain ⟨hs', hq⟩ := accepts_iff.mp ha'
  have hp' := hp.place color ha
  have hno := hp'.judged.not_hasFive hs'
  refine (hp'.judged.place ha' color.other).inProgress_iff.mpr ⟨⟨r, hfree⟩, fun side hfive => ?_⟩
  rw [get_place] at hfive
  by_cases hside : side = color.other
  · -- the reply would have completed five before the stone on `c`
    subst hside
    obtain ⟨d, j, hj, hrow⟩ := (hasFive_update_iff hq (hno color.other)).mp hfive
    rw [get_place] at hrow hq
    have hqb : b.get q = none := by
      rw [Function.update_apply] at hq
      split_ifs at hq
      exact hq
    exact h.not_completes hp hs hqb ⟨d, j, hj, hrow.of_update_other (Color.other_ne color).symm⟩
  · exact hno side (hasFive_update_other hq hside hfive)

/-- **After every reply the game runs on and the colour can win.** -/
lemma wins_after_reply (hp : Played b) (ha : b.accepts c = true)
    (hharmless : b.Harmless color.other) (htwo : LeavesTwo b.get color c)
    (ha' : (b.place c color).accepts q = true) :
    ((b.place c color).place q color.other).status = .inProgress ∧
      ∃ r, ((b.place c color).place q color.other).wins color r = true := by
  obtain ⟨-, hq⟩ := accepts_iff.mp ha'
  obtain ⟨r, hrq, hrc, hr, d, j, hj, hrow⟩ := exists_left_of_reply htwo q
  -- the cell that the reply leaves is still free and still completes five
  have hfree : ((b.place c color).place q color.other).get r = none := by
    rw [get_place, Function.update_of_ne hrq, get_place, Function.update_of_ne hrc, hr]
  have hcompletes : Completes ((b.place c color).place q color.other).get color r d j := by
    rw [get_place]
    exact hrow.update_other hq
  have hrun := hharmless.inProgress_of_reply hp ha ha' hfree
  have hp' := (hp.place color ha).place color.other ha'
  exact ⟨hrun, r, (wins_iff hp' hrun).mpr ⟨hfree, d, j, hj, hcompletes⟩⟩

/-- A strong move leaves two cells. -/
lemma leavesTwo_of_strong (hp : Played b) (hs : b.status = .inProgress)
    (hstrong : b.attackOf c (some color) = Priority.urgent ∨
      ∃ d d', d ≠ d' ∧ b.MakesFour c color d ∧ b.MakesFour c color d') :
    LeavesTwo b.get color c := by
  rcases hstrong with hurgent | ⟨d, d', hd, ⟨p, hfound, hfour⟩, p', hfound', hfour'⟩
  · rw [hp.attackOf_eq hs] at hurgent
    exact leavesTwo_of_urgent hurgent
  · rw [hp.judged.mirrored.strongest?_eq] at hfound hfound'
    exact leavesTwo_of_fours hd hfound hfour hfound' hfour'

/-- **Strong attack priorities are forced wins.** The game runs and the opponent cannot win at
once. A free cell is urgent for the colour, or it does not win and makes fours, open or not, in two
directions. Then the move there leaves the game running; so does every reply that the rules accept;
and after the reply there is a cell on which the colour wins. -/
theorem strong_attack_wins (h : Reachable b) (hs : b.status = .inProgress)
    (hc : b.get c = none) (hharmless : b.Harmless color.other)
    (hstrong : b.attackOf c (some color) = Priority.urgent ∨
      b.attackOf c (some color) ≠ Priority.immediate ∧
        ∃ d d', d ≠ d' ∧ b.MakesFour c color d ∧ b.MakesFour c color d') :
    ∃ b₁, b.attempt c (some color) = (true, b₁) ∧ b₁.status = .inProgress ∧
      ∀ q b₂, b₁.attempt q (some color.other) = (true, b₂) →
        b₂.status = .inProgress ∧ ∃ r, b₂.wins color r = true := by
  have hp := h.played
  have ha : b.accepts c = true := accepts_iff.mpr ⟨hs, hc⟩
  have hnot : b.attackOf c (some color) ≠ Priority.immediate := by
    rcases hstrong with hurgent | ⟨hnot, -⟩
    · rw [hurgent]
      decide
    · exact hnot
  have htwo := leavesTwo_of_strong hp hs (hstrong.imp_right And.right)
  refine ⟨b.place c color, by rw [attempt_eq, if_pos ha],
    inProgress_of_leavesTwo hp ha hnot htwo, fun q b₂ hreply => ?_⟩
  rw [attempt_eq] at hreply
  split_ifs at hreply with ha'
  · obtain rfl := (Prod.mk.inj hreply).2
    exact wins_after_reply hp ha hharmless htwo ha'
  · cases (Prod.mk.inj hreply).1

/-- Black alone has played, three stones in the middle row. -/
def openThree : Board :=
  ((empty.place ⟨179⟩ .black).place ⟨180⟩ .black).place ⟨181⟩ .black

/-- Black alone has played, three stones from the edge along a row and three along a column. -/
def corner : Board :=
  (((((empty.place ⟨57⟩ .black).place ⟨58⟩ .black).place ⟨59⟩ .black).place ⟨3⟩ .black).place ⟨22⟩
    .black).place ⟨41⟩ .black

/-- Black wins beside the three, by an open four, and on the cell where row and column meet, by
two fours that the edge closes. -/
theorem strong_attack_wins_openThree :
    (openThree.attackOf ⟨178⟩ (some .black) = Priority.urgent ∧
      ∃ b₁, openThree.attempt ⟨178⟩ (some .black) = (true, b₁) ∧ b₁.status = .inProgress ∧
        ∀ q b₂, b₁.attempt q (some .white) = (true, b₂) →
          b₂.status = .inProgress ∧ ∃ r, b₂.wins .black r = true) ∧
    (corner.attackOf ⟨60⟩ (some .black) = Priority.vital ∧
      ∃ b₁, corner.attempt ⟨60⟩ (some .black) = (true, b₁) ∧ b₁.status = .inProgress ∧
        ∀ q b₂, b₁.attempt q (some .white) = (true, b₂) →
          b₂.status = .inProgress ∧ ∃ r, b₂.wins .black r = true) := by
  have hempty : ∀ e, empty.get e = none := Stones.get_empty
  constructor
  · have hp : Played openThree :=
      ((Played.new.place .black (by decide +kernel)).place .black (by decide +kernel)).place .black
        (by decide +kernel)
    have hs : openThree.status = .inProgress := by decide +kernel
    have habsent : ∀ e, openThree.get e ≠ some .white := by
      intro e
      simp only [openThree, get_place, Function.update_apply, hempty]
      split_ifs <;> nofun
    have hurgent : openThree.attackOf ⟨178⟩ (some .black) = Priority.urgent := by
      rw [hp.attackOf_eq hs]
      decide +kernel
    exact ⟨hurgent, strong_attack_wins hp.reachable hs (by decide +kernel)
      (harmless_of_absent hp hs habsent) (.inl hurgent)⟩
  · have hp : Played corner :=
      (((((Played.new.place .black (by decide +kernel)).place .black (by decide +kernel)).place
        .black (by decide +kernel)).place .black (by decide +kernel)).place .black
        (by decide +kernel)).place .black (by decide +kernel)
    have hs : corner.status = .inProgress := by decide +kernel
    have habsent : ∀ e, corner.get e ≠ some .white := by
      intro e
      simp only [corner, get_place, Function.update_apply, hempty]
      split_ifs <;> nofun
    have hvital : corner.attackOf ⟨60⟩ (some .black) = Priority.vital := by
      rw [hp.attackOf_eq hs]
      decide +kernel
    have hfours : ∀ d ∈ [Direction.horizontal, Direction.vertical],
        corner.MakesFour ⟨60⟩ .black d := by
      have hfound : ∀ d ∈ [Direction.horizontal, Direction.vertical],
          (corner.stones.strongest? ⟨60⟩ .black d).map Pattern.family = some .four := by
        decide +kernel
      intro d hd
      obtain ⟨p, hp, hfour⟩ := Option.map_eq_some_iff.mp (hfound d hd)
      exact ⟨p, hp, .inl hfour⟩
    exact ⟨hvital, strong_attack_wins hp.reachable hs (by decide +kernel)
      (harmless_of_absent hp hs habsent) (.inr ⟨by rw [hvital]; decide, .horizontal, .vertical,
        by decide, hfours _ (by decide), hfours _ (by decide)⟩)⟩

end Board

end FiveInRow
