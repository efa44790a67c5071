import Mathlib.Tactic
import FiveInRow.Proofs.Board.Occupancy
import FiveInRow.Proofs.Playout.Finish
import FiveInRow.Proofs.Ranking.ForcedWin

/-!
Positions whose playout is decided. Whoever can win at once does; of two wins of the opponent a move
blocks at most one; and an open four that the opponent has nothing against leaves two wins. In these
positions the result of a playout does not depend on what is drawn.

* `Board.wins_place_other_iff`: what a move changes for the opponent's wins: it takes its own cell;
* `Board.Played.winning_eq_nil`, `Board.defenceOf_of_absent`: with fewer than four stones nobody
  can win, and without any nobody threatens;
* `Board.Played.status_playOut_of_winning`: the side to move takes its win;
* `Board.Played.status_playOut_of_two`: a side with two wins gets one of them;
* `Board.Played.outlook_of_urgent`: where nothing strong threatens, an urgent attack is played;
* `Board.decided_playouts`: the three kinds of position, and what their playouts are worth.
-/

namespace FiveInRow

namespace Board

variable {b : Board} {c q : Cell} {color : Color} {last : Option Color} {γ : Type} [WordSource γ]

/-! ### Wins, before and after a move -/

lemma mem_winning_iff_attackOf (hp : Played b) (hs : b.status = .inProgress) :
    c ∈ b.winning color ↔ b.attackOf c (some color) = Priority.immediate := by
  rw [mem_winning, attackOf_eq_immediate_iff hp hs]

/-- A winning cell can be played, and the game is won then. -/
lemma place_of_mem_winning (hs : b.status = .inProgress) (hc : c ∈ b.winning color) :
    b.accepts c = true ∧ (b.place c color).status = .win color := by
  have hw := mem_winning.mp hc
  rw [wins, Bool.and_eq_true, decide_eq_true_eq] at hw
  have ha : b.accepts c = true := accepts_iff.mpr ⟨hs, Stones.isEmpty_iff.mp hw.1⟩
  rw [attempt_eq, if_pos ha] at hw
  exact ⟨ha, hw.2⟩

/-- **A move takes its own cell from the wins of the opponent, and no other.** -/
lemma wins_place_other_iff (hp : Played b) (ha : b.accepts c = true)
    (hrun : (b.place c color).status = .inProgress) :
    (b.place c color).wins color.other q = true ↔ q ≠ c ∧ b.wins color.other q = true := by
  obtain ⟨hs, hc⟩ := accepts_iff.mp ha
  rw [wins_iff (hp.place color ha) hrun, wins_iff hp hs, get_place]
  constructor
  · rintro ⟨hq, d, j, hj, hrow⟩
    have hne : q ≠ c := by
      rintro rfl
      rw [Function.update_self] at hq
      cases hq
    rw [Function.update_of_ne hne] at hq
    exact ⟨hne, hq, d, j, hj, hrow.of_update_other (Color.other_ne color).symm⟩
  · rintro ⟨hne, hq, d, j, hj, hrow⟩
    exact ⟨by rw [Function.update_of_ne hne, hq], d, j, hj, hrow.update_other hc⟩

/-- The two cells that a strong move leaves are wins. -/
lemma exists_winning_of_leavesTwo (hp : Played b) (ha : b.accepts c = true)
    (hrun : (b.place c color).status = .inProgress) (htwo : LeavesTwo b.get color c) :
    ∃ e ∈ (b.place c color).winning color, ∃ e' ∈ (b.place c color).winning color, e ≠ e' := by
  have hwin : ∀ e, (∃ d n, Leaves b.get color c d n e) → e ∈ (b.place c color).winning color := by
    rintro e ⟨d, n, he⟩
    obtain ⟨-, -, hfree, hrow⟩ := id he
    rw [mem_winning, wins_iff (hp.place color ha) hrun, get_place]
    exact ⟨by rw [Function.update_of_ne he.ne, hfree], d, hrow⟩
  obtain ⟨e, e', hne, he, he'⟩ := htwo
  exact ⟨e, hwin e he, e', hwin e' he', hne⟩

/-! ### A side with few stones -/

/-- Without a stone there is no pattern. -/
lemma matchAt_of_absent {o : Cell → Option Color} (habsent : ∀ e, o e ≠ some color) (c : Cell)
    (d : Direction) : matchAt o c color d = none := by
  rw [Option.eq_none_iff_forall_ne_some]
  intro p hp
  have hown := Pattern.own_ne_zero_of_fits (Window.mem_patterns hp) (Window.fits_of_strongest hp)
  obtain ⟨i, hi⟩ := Nat.exists_testBit_of_ne_zero (fun h => hown (Fin.ext h))
  have hlt : i < 9 := by
    by_contra hle
    have hbound := (Window.ofCells o c color d).own.isLt
    have hpow : 512 ≤ 2 ^ i := le_trans (by norm_num) (Nat.pow_le_pow_right two_pos (not_lt.mp hle))
    rw [Nat.testBit_lt_two_pow (hbound.trans_le hpow)] at hi
    cases hi
  obtain ⟨e, -, he⟩ := (Window.testBit_own hlt).mp hi
  exact habsent e he

/-- A side that has not moved has no stones. -/
lemma Played.absent (h : Played b) (hmoves : ∀ m ∈ b.moves, m.color ≠ color) (e : Cell) :
    b.get e ≠ some color :=
  fun he => hmoves _ ((h.recorded.mem_iff e color).mpr he) rfl

/-- **A win needs four stones.** -/
lemma Played.winning_eq_nil (h : Played b) (hs : b.status = .inProgress)
    (hfew : (b.moves.filter (·.color = color)).length < 4) : b.winning color = [] := by
  rw [List.eq_nil_iff_forall_not_mem]
  intro c hc
  obtain ⟨-, d, j, hj, hrow⟩ := (wins_iff h hs).mp (mem_winning.mp hc)
  -- the cell completes a stone on every place of a row but one
  have hplace : ∀ i ∈ (Finset.range 5).erase j,
      ∃ e ∈ ((b.moves.filter (·.color = color)).map Move.cell).toFinset,
        c.offset d.step ((i : ℤ) - j) = some e := by
    intro i hi
    obtain ⟨hij, hi⟩ := Finset.mem_erase.mp hi
    obtain ⟨e, he, heo⟩ := hrow i (Finset.mem_range.mp hi) hij
    have hmove := (h.recorded.mem_iff e color).mpr heo
    refine ⟨e, ?_, he⟩
    rw [List.mem_toFinset, List.mem_map]
    exact ⟨_, List.mem_filter.mpr ⟨hmove, decide_eq_true rfl⟩, rfl⟩
  have hcell : Nonempty Cell := ⟨c⟩
  choose! stone hmem hoff using hplace
  have hle := Finset.card_le_card_of_injOn stone hmem fun i hi k hk heq => by
    have hi := Direction.offset_eq_some_iff.mp (hoff i hi)
    have hk := Direction.offset_eq_some_iff.mp (hoff k hk)
    rw [heq] at hi
    omega
  have hcard := hle.trans (List.toFinset_card_le _)
  rw [Finset.card_erase_of_mem (Finset.mem_range.mpr hj), Finset.card_range, List.length_map]
    at hcard
  omega

/-- Against a side without stones there is nothing to defend. -/
lemma defenceOf_of_absent (hp : Played b) (hs : b.status = .inProgress)
    (habsent : ∀ e, b.get e ≠ some color.other) (c : Cell) :
    b.defenceOf c (some color) = Priority.none := by
  have hattack : b.attackOf c (some color.other) = Priority.none := by
    rw [hp.attackOf_eq hs, attackFrom]
    simp only [matchAt_of_absent habsent, Option.map_none, Option.getD_none, Option.any_none,
      Bool.false_eq_true, Finset.filter_false, Finset.card_empty]
    rw [if_neg (by omega : ¬ 2 ≤ 0)]
    split_ifs
    · rfl
    · exact Finset.sup_bot _
  have hentries : (b.threats.recordOf c color).entries = [] := by
    rw [List.eq_nil_iff_forall_not_mem]
    intro e he
    obtain ⟨a, d, p, k, n, -, hfound, -⟩ := (hp.mem_recordOf_iff hs).mp he
    rw [matchAt_of_absent habsent] at hfound
    cases hfound
  show ((b.threats.recordOf c color).priority).max (b.attackOf c (some color.other)) = _
  rw [hattack, hp.recordOf_priority hs, hentries]
  decide

/-! ### Playouts -/

/-- **The side to move takes its win.** -/
lemma Played.status_playOut_of_winning (h : Played b) (hs : b.status = .inProgress)
    (hw : b.winning (Color.after last) ≠ []) (g : γ) :
    (b.playOut last g).1.status = .win (Color.after last) := by
  obtain ⟨-, hdraws⟩ := forced_of_verdict h hs hw (.inl (outlook_of_winning h hs hw))
  obtain ⟨c, hc, hdraw⟩ := hdraws g
  obtain ⟨ha, hwin⟩ := place_of_mem_winning hs hc
  rw [playOut_of_sample ha hdraw, playOut_of_over (by rw [hwin]; nofun), hwin]

/-- **A side with two wins gets one of them**: the side to move, which cannot win itself, blocks
only one. -/
lemma Played.status_playOut_of_two (h : Played b) (hs : b.status = .inProgress)
    (hno : b.winning (Color.after last) = []) {e e' : Cell}
    (he : e ∈ b.winning (Color.after last).other) (he' : e' ∈ b.winning (Color.after last).other)
    (hne : e ≠ e') (g : γ) :
    (b.playOut last g).1.status = .win (Color.after last).other := by
  have hw := List.ne_nil_of_mem he
  obtain ⟨-, hdraws⟩ := forced_of_verdict h hs hw (.inr (outlook_of_blocking h hs hno hw))
  obtain ⟨c, hc, hdraw⟩ := hdraws g
  obtain ⟨ha, -⟩ := place_of_mem_winning hs hc
  -- one of the two cells is left
  obtain ⟨r, hr, hrc⟩ : ∃ r ∈ b.winning (Color.after last).other, r ≠ c := by
    by_cases hec : e = c
    · exact ⟨e', he', fun h => hne (hec.trans h.symm)⟩
    · exact ⟨e, he, hec⟩
  have hrun : (b.place c (Color.after last)).status = .inProgress := by
    obtain ⟨-, hrfree⟩ := accepts_iff.mp (place_of_mem_winning hs hr).1
    refine inProgress_place h ha (fun himm => ?_) hrc hrfree
    rw [← mem_winning_iff_attackOf h hs, hno] at himm
    cases himm
  have hleft : r ∈ (b.place c (Color.after last)).winning (Color.after last).other := by
    rw [mem_winning, wins_place_other_iff h ha hrun]
    exact ⟨hrc, mem_winning.mp hr⟩
  rw [playOut_of_sample ha hdraw]
  rw [← Color.after_some] at hleft ⊢
  exact (h.place _ ha).status_playOut_of_winning hrun (List.ne_nil_of_mem hleft) _

/-- **Where nothing strong threatens, an urgent attack is played**: the most urgent attacks are the
open fours, and the ranking asks for them. -/
lemma Played.outlook_of_urgent (h : Played b) (hs : b.status = .inProgress)
    (hno : b.winning color = [])
    (hurgent : ∃ c, b.frontier.contains c = true ∧ b.attackOf c (some color) = Priority.urgent)
    (hweak : ∀ c, b.frontier.contains c = true → b.defenceOf c (some color) < Priority.high) :
    (Outlook.of b (some color)).verdict = .attack ∧
      ∀ c ∈ (Outlook.of b (some color)).topAttack,
        b.attackOf c (some color) = Priority.urgent := by
  obtain ⟨u, hu, hlevel⟩ := hurgent
  have havailable : u ∈ b.available := CellSet.mem_toList.mpr hu
  have hne := List.ne_nil_of_mem havailable
  -- a level holds the cells of the frontier that belong to it
  have hmem : ∀ (priority : Cell → Priority) (p : Priority) (c : Cell),
      c ∈ (Levels.ofCells priority b.available).get p ↔ c ∈ b.available ∧ priority c = p := by
    intro priority p c
    rw [show (Levels.ofCells priority b.available).get p =
      (Levels.ofCells priority b.available)[p] from rfl, Levels.getElem_ofCells, List.mem_filter,
      decide_eq_true_eq]
  have hattack : Priority.urgent ≤ (Outlook.of b (some color)).attack.top :=
    Levels.le_top (List.ne_nil_of_mem ((hmem (b.attackOf · (some color)) _ u).mpr
      ⟨havailable, hlevel⟩))
  have htop : ∀ c ∈ (Outlook.of b (some color)).topAttack,
      b.attackOf c (some color) = (Outlook.of b (some color)).attack.top ∧
        b.attackOf c (some color) = Priority.urgent := by
    intro c hc
    have heq : b.attackOf c (some color) = (Outlook.of b (some color)).attack.top :=
      ((hmem (b.attackOf · (some color)) (Outlook.of b (some color)).attack.top c).mp hc).2
    refine ⟨heq, ?_⟩
    have hnot : b.attackOf c (some color) ≠ Priority.immediate := by
      rw [Ne, ← mem_winning_iff_attackOf h hs, hno]
      exact List.not_mem_nil
    rw [← heq] at hattack
    rw [h.attackOf_eq hs] at hattack hnot ⊢
    exact attackFrom_eq_urgent hattack hnot
  have hattackTop : (Outlook.of b (some color)).attack.top = Priority.urgent := by
    obtain ⟨c, hc⟩ := List.exists_mem_of_ne_nil _
      (Levels.get_top_ofCells_ne_nil (b.attackOf · (some color)) hne)
    obtain ⟨heq, hurgent⟩ := htop c hc
    exact heq.symm.trans hurgent
  have hdefence : (Outlook.of b (some color)).defence.top < Priority.high := by
    obtain ⟨c, hc⟩ := List.exists_mem_of_ne_nil _
      (Levels.get_top_ofCells_ne_nil (b.defenceOf · (some color)) hne)
    obtain ⟨hc, heq⟩ := (hmem (b.defenceOf · (some color)) _ c).mp hc
    have hlow := hweak c (CellSet.mem_toList.mp hc)
    rwa [heq] at hlow
  have hverdict : ∀ p : Priority, p < Priority.high → Verdict.of Priority.urgent p = .attack := by
    decide
  refine ⟨?_, fun c hc => (htop c hc).2⟩
  rw [Outlook.verdict, hattackTop]
  exact hverdict _ hdefence

/-- An open four that the opponent has nothing against wins. -/
lemma Played.status_playOut_of_urgent (h : Played b) (hs : b.status = .inProgress)
    (hno : b.winning (Color.after last) = []) (hother : b.winning (Color.after last).other = [])
    (hurgent : ∃ c, b.frontier.contains c = true ∧
      b.attackOf c (some (Color.after last)) = Priority.urgent)
    (hweak : ∀ c, b.frontier.contains c = true →
      b.defenceOf c (some (Color.after last)) < Priority.high) (g : γ) :
    (b.playOut last g).1.status = .win (Color.after last) := by
  obtain ⟨hverdict, htop⟩ := h.outlook_of_urgent hs hno hurgent hweak
  obtain ⟨c, hc, hdraw⟩ := h.exists_sample hs (some (Color.after last)) g
  have ha := h.accepts_of_mem_shortlist hc
  have hlevel : b.attackOf c (some (Color.after last)) = Priority.urgent := by
    rw [shortlist, isOver_eq_false_iff.mpr hs, if_neg Bool.false_ne_true] at hc
    simp only [hverdict] at hc
    exact htop c hc
  have htwo : LeavesTwo b.get (Color.after last) c := by
    rw [h.attackOf_eq hs] at hlevel
    exact leavesTwo_of_urgent hlevel
  have hrun := inProgress_of_leavesTwo h ha (by rw [hlevel]; decide) htwo
  obtain ⟨e, he, e', he', hne⟩ := exists_winning_of_leavesTwo h ha hrun htwo
  have hnone : (b.place c (Color.after last)).winning (Color.after last).other = [] := by
    rw [List.eq_nil_iff_forall_not_mem]
    intro q hq
    rw [mem_winning, wins_place_other_iff h ha hrun, ← mem_winning, hother] at hq
    exact List.not_mem_nil hq.2
  have hturn : Color.after (some (Color.after last)) = (Color.after last).other :=
    Color.after_some _
  have hback : (Color.after (some (Color.after last))).other = Color.after last := by
    rw [hturn, Color.other_other]
  rw [playOut_of_sample ha hdraw, (h.place _ ha).status_playOut_of_two hrun
    (by rw [hturn, hnone]) (by rwa [hback]) (by rwa [hback]) hne, hback]

/-- **Tactically decided positions have one result**, whatever the playout draws. Let `mover` be the
colour to move. If it has a cell that wins, the playout is worth a win of `mover`. If it has none,
and the opponent has two of them, the playout is worth a win of the opponent. If neither has one,
some cell of the frontier is an urgent attack for `mover` and none is worth a strong defence, it is
worth a win of `mover`. -/
theorem decided_playouts {γ : Type} [WordSource γ] {b : Board} (h : Reachable b)
    (hs : b.status = .inProgress) (last side : Option Color) (g : γ) :
    let mover := Color.after last
    let value := (b.playOutValue last side g).1
    (b.winning mover ≠ [] → value = (Status.win (some mover)).value side) ∧
    (b.winning mover = [] →
      (∃ e ∈ b.winning mover.other, ∃ e' ∈ b.winning mover.other, e ≠ e') →
      value = (Status.win (some mover.other)).value side) ∧
    (b.winning mover = [] → b.winning mover.other = [] →
      (∃ c, b.frontier.contains c = true ∧ b.attackOf c (some mover) = Priority.urgent) →
      (∀ c, b.frontier.contains c = true → b.defenceOf c (some mover) < Priority.high) →
      value = (Status.win (some mover)).value side) := by
  have hp := h.played
  have hvalue : ∀ winner, (b.playOut last g).1.status = .win winner →
      (b.playOutValue last side g).1 = (Status.win (some winner)).value side := by
    intro winner hwin
    show ((b.playOut last g).1.status.map some).value side = _
    rw [hwin]
    rfl
  dsimp only
  refine ⟨fun hw => hvalue _ (hp.status_playOut_of_winning hs hw g), ?_, ?_⟩
  · rintro hno ⟨e, he, e', he', hne⟩
    exact hvalue _ (hp.status_playOut_of_two hs hno he he' hne g)
  · intro hno hother hurgent hweak
    exact hvalue _ (hp.status_playOut_of_urgent hs hno hother hurgent hweak g)

/-- Black alone has played, four stones in the middle row. -/
def openFour : Board :=
  (((empty.place ⟨179⟩ .black).place ⟨180⟩ .black).place ⟨181⟩ .black).place ⟨182⟩ .black

/-- Black, to move, takes the fifth cell of a row; black, with an open four, wins against any reply
of white; and black, with an open three and to move, makes the open four. -/
theorem decided_playouts_openThree :
    rowOfFour.status = .inProgress ∧ openFour.status = .inProgress ∧
    openThree.status = .inProgress ∧ ∀ {γ : Type} [WordSource γ] (g : γ),
      (rowOfFour.playOutValue (some .white) (some .black) g).1 = 1 ∧
      (openFour.playOutValue (some .black) (some .white) g).1 = -1 ∧
      (openThree.playOutValue (some .white) (some .black) g).1 = 1 := by
  have hrow : Played rowOfFour :=
    (((Played.new.place .black (by decide +kernel)).place .black (by decide +kernel)).place .black
      (by decide +kernel)).place .black (by decide +kernel)
  have hfour : Played openFour :=
    (((Played.new.place .black (by decide +kernel)).place .black (by decide +kernel)).place .black
      (by decide +kernel)).place .black (by decide +kernel)
  have hthree : Played openThree :=
    ((Played.new.place .black (by decide +kernel)).place .black (by decide +kernel)).place .black
      (by decide +kernel)
  have hrunRow : rowOfFour.status = .inProgress := by decide +kernel
  have hrunFour : openFour.status = .inProgress := by decide +kernel
  have hrunThree : openThree.status = .inProgress := by decide +kernel
  refine ⟨hrunRow, hrunFour, hrunThree, fun g => ⟨?_, ?_, ?_⟩⟩
  · have hfifth : (⟨4⟩ : Cell) ∈ rowOfFour.winning .black := mem_winning.mpr (by decide +kernel)
    obtain ⟨htakes, -⟩ :=
      decided_playouts hrow.reachable hrunRow (some .white) (some .black) g
    exact htakes (List.ne_nil_of_mem hfifth)
  · have hlow : (⟨178⟩ : Cell) ∈ openFour.winning .black := mem_winning.mpr (by decide +kernel)
    have hhigh : (⟨183⟩ : Cell) ∈ openFour.winning .black := mem_winning.mpr (by decide +kernel)
    have hno : openFour.winning .white = [] := hfour.winning_eq_nil hrunFour (by decide +kernel)
    obtain ⟨-, hloses, -⟩ :=
      decided_playouts hfour.reachable hrunFour (some .black) (some .white) g
    exact hloses hno ⟨_, hlow, _, hhigh, by decide⟩
  · have hno : ∀ color, openThree.winning color = [] := fun color =>
      hthree.winning_eq_nil hrunThree (by cases color <;> decide +kernel)
    have hurgent : openThree.attackOf ⟨178⟩ (some .black) = Priority.urgent := by
      rw [hthree.attackOf_eq hrunThree]
      decide +kernel
    have hnothing : ∀ c, openThree.defenceOf c (some .black) = Priority.none :=
      defenceOf_of_absent hthree hrunThree (hthree.absent (by decide +kernel))
    obtain ⟨-, -, hmakes⟩ :=
      decided_playouts hthree.reachable hrunThree (some .white) (some .black) g
    refine hmakes (hno _) (hno _) ⟨⟨178⟩, by decide +kernel, hurgent⟩ fun c _ => ?_
    exact (hnothing c).trans_lt (by decide)

end Board

end FiveInRow
