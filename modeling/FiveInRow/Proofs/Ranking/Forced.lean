import Mathlib.Tactic
import FiveInRow.Proofs.Ranking.Shortlist
import FiveInRow.Proofs.Pattern.Fits

/-!
Wins and forced blocks. What a winning cell is, the rules say: a free cell on which a move decides
the game. The ranking never looks past the priorities that the board keeps, and still finds them.

* `Board.wins`, `Board.winning`: the cells on which a colour wins at once, in index order;
* `Board.wins_iff`: they are the free cells that complete five;
* `Board.attackOf_eq_immediate_iff`, `Board.defenceOf_eq_immediate_iff`: the top level of attack is
  a win, the top level of defence is a win of the opponent on that very cell;
* `Levels.immediate_le_top_iff`: the top level is immediate if some cell is;
* `Board.forced_exact`: a win is taken, and else the opponent's win is blocked.
-/

namespace FiveInRow

/-! ### Levels -/

/-- The top level is immediate as soon as one cell is. -/
lemma Levels.immediate_le_top_iff (levels : Levels) :
    Priority.immediate ≤ levels.top ↔ levels[Priority.immediate] ≠ [] := by
  have hlevels : (List.finRange 9).reverse =
      Priority.immediate :: (List.finRange 8).reverse.map Fin.castSucc := by
    decide
  rw [top, hlevels, List.find?_cons]
  cases hempty : levels[Priority.immediate].isEmpty with
  | false =>
      rw [← List.isEmpty_eq_false_iff, hempty]
      exact iff_of_true le_rfl rfl
  | true =>
      rw [List.isEmpty_iff] at hempty
      refine iff_of_false (fun hle => ?_) (fun hne => hne hempty)
      have himm := Priority.immediate_le_iff.mp hle
      cases hfind :
          ((List.finRange 8).reverse.map Fin.castSucc).find? fun p => !levels[p].isEmpty with
      | none =>
          rw [hfind] at himm
          exact absurd himm (by decide)
      | some p =>
          rw [hfind] at himm
          obtain rfl : p = Priority.immediate := himm
          have hmem := List.find?_some hfind
          rw [hempty] at hmem
          cases hmem

/-- An immediate top level is the level of all that is immediate. -/
lemma Levels.getElem_top {levels : Levels} (h : Priority.immediate ≤ levels.top) :
    levels[levels.top] = levels[Priority.immediate] := by
  have hlevel : ∀ p : Priority, p = Priority.immediate →
      levels[p] = levels[Priority.immediate] := by
    rintro p rfl
    rfl
  exact hlevel _ (Priority.immediate_le_iff.mp h)

namespace Board

variable {b : Board} {c : Cell} {color side : Color}

/-! ### Winning cells -/

/-- Whether a cell is free and a move there wins. -/
def wins (b : Board) (color : Color) (c : Cell) : Bool :=
  b.isEmptyAt c && (b.attempt c (some color)).2.status = .win color

/-- The cells on which a colour wins at once, in index order. -/
def winning (b : Board) (color : Color) : List Cell := Cell.all.filter (b.wins color)

lemma mem_winning : c ∈ b.winning color ↔ b.wins color c = true := by
  rw [winning, List.mem_filter]
  exact and_iff_right (Cell.mem_all c)

lemma length_winning (b : Board) (color : Color) : (b.winning color).length ≤ 2 ^ 32 :=
  Cell.length_le_of_sublist List.filter_sublist

/-- **A move wins exactly on the free cells that complete five.** -/
lemma wins_iff (h : Played b) (hs : b.status = .inProgress) :
    b.wins color c = true ↔ b.get c = none ∧ ∃ d, ∃ j < 5, Completes b.get color c d j := by
  rw [wins, Bool.and_eq_true, decide_eq_true_eq, attempt_eq]
  have hfree : b.isEmptyAt c = true ↔ b.get c = none := Stones.isEmpty_iff
  rw [hfree]
  refine and_congr_right fun hc => ?_
  have ha : b.accepts c = true := accepts_iff.mpr ⟨hs, hc⟩
  rw [if_pos ha, (h.judged.place ha color).win_iff, get_place]
  exact hasFive_update_iff hc (h.judged.not_hasFive hs color)

/-- A winning cell lies next to a stone, so it is worth considering. -/
lemma contains_of_wins (h : Played b) (hs : b.status = .inProgress) (hw : b.wins color c = true) :
    b.frontier.contains c = true := by
  obtain ⟨hc, d, j, hj, hrow⟩ := (wins_iff h hs).mp hw
  have hstone : ∀ q, b.get q = some color → b.get q ≠ none := by
    intro q hq
    rw [hq]
    exact Option.some_ne_none color
  rcases Nat.eq_zero_or_pos j with rfl | hpos
  · obtain ⟨q, hq, hqo⟩ := hrow 1 (by omega) (by omega)
    have hback : q.offset d.step (-1) = some c := by simpa using Cell.offset_symm hq
    exact h.mem_frontier hs hc (hstone q hqo) ⟨d, .inr hback⟩
  · obtain ⟨q, hq, hqo⟩ := hrow (j - 1) (by omega) (by omega)
    have hback : q.offset d.step 1 = some c := by
      rw [← Cell.offset_symm hq]
      congr 1
      omega
    exact h.mem_frontier hs hc (hstone q hqo) ⟨d, .inl hback⟩

/-! ### The top levels -/

/-- **A cell's attack is immediate exactly if a move there wins.** -/
lemma attackOf_eq_immediate_iff (h : Played b) (hs : b.status = .inProgress) :
    b.attackOf c (some color) = Priority.immediate ↔ b.wins color c = true := by
  rw [h.attackOf_eq hs, attackFrom_eq_immediate_iff, wins_iff h hs]

/-- **A cell's defence is immediate exactly if the opponent would win there.** No record gets that
far but through the opponent's own five on that cell. -/
lemma defenceOf_eq_immediate_iff (h : Played b) (hs : b.status = .inProgress) :
    b.defenceOf c (some color) = Priority.immediate ↔ b.wins color.other c = true := by
  rw [← attackOf_eq_immediate_iff h hs]
  show (b.threats.recordOf c color).priority.max (b.attackOf c (some color.other)) = _ ↔ _
  rw [Priority.max_eq_sup, ← Priority.immediate_le_iff, le_sup_iff, Priority.immediate_le_iff,
    Priority.immediate_le_iff]
  refine or_iff_right_of_imp fun hrecord => ?_
  rw [h.recordOf_priority hs, defenceFrom_eq_immediate_iff] at hrecord
  obtain ⟨e, he, himm⟩ := hrecord
  rw [List.mem_toFinset, h.mem_recordOf_iff hs] at he
  rw [h.attackOf_eq hs]
  exact immediate_of_owed he himm

/-- Of the cells worth considering, those whose level is immediate are the winning ones. -/
lemma level_immediate (h : Played b) (hs : b.status = .inProgress) (priority : Cell → Priority)
    (hp : ∀ c, priority c = Priority.immediate ↔ b.wins color c = true) :
    (Levels.ofCells priority b.available)[Priority.immediate] = b.winning color := by
  rw [Levels.getElem_ofCells, available, CellSet.toList_eq, List.filter_filter, winning]
  refine List.filter_congr fun c _ => ?_
  rw [Bool.eq_iff_iff, Bool.and_eq_true, decide_eq_true_eq, hp]
  exact and_iff_left_of_imp (contains_of_wins h hs)

lemma attack_immediate (h : Played b) (hs : b.status = .inProgress) (color : Color) :
    (Outlook.of b (some color)).attack[Priority.immediate] = b.winning color :=
  level_immediate h hs _ fun _ => attackOf_eq_immediate_iff h hs

lemma defence_immediate (h : Played b) (hs : b.status = .inProgress) (color : Color) :
    (Outlook.of b (some color)).defence[Priority.immediate] = b.winning color.other :=
  level_immediate h hs _ fun _ => defenceOf_eq_immediate_iff h hs

/-! ### The moves that the ranking leaves -/

/-- Where a colour can win, the ranking asks for the wins. -/
lemma outlook_of_winning (h : Played b) (hs : b.status = .inProgress)
    (hw : b.winning color ≠ []) :
    (Outlook.of b (some color)).verdict = .attack ∧
      (Outlook.of b (some color)).topAttack = b.winning color := by
  have htop : Priority.immediate ≤ (Outlook.of b (some color)).attack.top := by
    rw [Levels.immediate_le_top_iff, attack_immediate h hs]
    exact hw
  constructor
  · rw [Outlook.verdict, Verdict.of, if_pos htop]
  · rw [Outlook.topAttack, Levels.getElem_top htop, attack_immediate h hs]

/-- Where only the opponent can win, it asks for the blocks. -/
lemma outlook_of_blocking (h : Played b) (hs : b.status = .inProgress)
    (hno : b.winning color = []) (hw : b.winning color.other ≠ []) :
    (Outlook.of b (some color)).verdict = .defence ∧
      (Outlook.of b (some color)).topDefence = b.winning color.other := by
  have hattack : ¬ Priority.immediate ≤ (Outlook.of b (some color)).attack.top := by
    rw [Levels.immediate_le_top_iff, attack_immediate h hs]
    exact not_not.mpr hno
  have htop : Priority.immediate ≤ (Outlook.of b (some color)).defence.top := by
    rw [Levels.immediate_le_top_iff, defence_immediate h hs]
    exact hw
  constructor
  · rw [Outlook.verdict, Verdict.of, if_neg hattack, if_pos htop]
  · rw [Outlook.topDefence, Levels.getElem_top htop, defence_immediate h hs]

/-- The frontier is not empty where somebody can win. -/
lemma not_quiet_of_winning (h : Played b) (hs : b.status = .inProgress)
    (hw : b.winning color ≠ []) : (b.isOver || b.frontier.isEmpty) = false := by
  obtain ⟨c, hc⟩ := List.exists_mem_of_ne_nil _ hw
  rw [isOver_eq_false_iff.mpr hs, Bool.false_or]
  exact CellSet.isEmpty_eq_false (contains_of_wins h hs (mem_winning.mp hc))

/-- Where the verdict asks for the wins of one side, these are the moves worth expanding, and every
draw is one of them. -/
lemma forced_of_verdict (h : Played b) (hs : b.status = .inProgress) (hw : b.winning side ≠ [])
    (hverdict :
      ((Outlook.of b (some color)).verdict = .attack ∧
        (Outlook.of b (some color)).topAttack = b.winning side) ∨
      ((Outlook.of b (some color)).verdict = .defence ∧
        (Outlook.of b (some color)).topDefence = b.winning side)) :
    b.shortlist (some color) = b.winning side ∧
      ∀ {γ : Type} [WordSource γ] (g : γ),
        ∃ c ∈ b.winning side, (b.sample (some color) g).1 = some c := by
  have hrun := isOver_eq_false_iff.mpr hs
  have hquiet := not_quiet_of_winning h hs hw
  constructor
  · rw [shortlist, hrun, if_neg Bool.false_ne_true]
    rcases hverdict with ⟨hv, htop⟩ | ⟨hv, htop⟩
    · simp only [hv, htop]
    · simp only [hv, htop]
  · intro γ _ g
    rw [sample, hquiet, if_neg Bool.false_ne_true]
    rcases hverdict with ⟨hv, htop⟩ | ⟨hv, htop⟩
    · simp only [hv, htop]
      exact Draw.exists_pick? hw (b.length_winning side) g
    · simp only [hv, htop]
      exact Draw.exists_pick? hw (b.length_winning side) g

/-- **A win is taken, and else the opponent's win is blocked.** While the game runs, a cell's
attack is immediate exactly if a move there wins. If the colour can win, the moves worth expanding
are its wins, in index order, and every draw is one of them; if only the opponent can win, they
are the opponent's wins, and every draw is one of those. -/
theorem forced_exact (h : Reachable b) (hs : b.status = .inProgress) (color : Color) :
    (∀ c side, b.attackOf c (some side) = Priority.immediate ↔ c ∈ b.winning side) ∧
    (b.winning color ≠ [] →
      b.shortlist (some color) = b.winning color ∧
        ∀ {γ : Type} [WordSource γ] (g : γ),
          ∃ c ∈ b.winning color, (b.sample (some color) g).1 = some c) ∧
    (b.winning color = [] → b.winning color.other ≠ [] →
      b.shortlist (some color) = b.winning color.other ∧
        ∀ {γ : Type} [WordSource γ] (g : γ),
          ∃ c ∈ b.winning color.other, (b.sample (some color) g).1 = some c) := by
  have hp := h.played
  refine ⟨fun c side => ?_, fun hw => ?_, fun hno hw => ?_⟩
  · rw [mem_winning, attackOf_eq_immediate_iff hp hs]
  · exact forced_of_verdict hp hs hw (.inl (outlook_of_winning hp hs hw))
  · exact forced_of_verdict hp hs hw (.inr (outlook_of_blocking hp hs hno hw))

/-- Black alone has played, on the first four cells of the first row. -/
def rowOfFour : Board :=
  (((empty.place ⟨0⟩ .black).place ⟨1⟩ .black).place ⟨2⟩ .black).place ⟨3⟩ .black

/-- White, who cannot win without a stone, has to stop black on the fifth cell. -/
theorem forced_exact_rowOfFour :
    Reachable rowOfFour ∧ rowOfFour.status = .inProgress ∧
      rowOfFour.winning .white = [] ∧ ⟨4⟩ ∈ rowOfFour.winning .black ∧
      rowOfFour.shortlist (some .white) = rowOfFour.winning .black ∧
      ∀ {γ : Type} [WordSource γ] (g : γ),
        ∃ c ∈ rowOfFour.winning .black, (rowOfFour.sample (some .white) g).1 = some c := by
  have hp : Played rowOfFour :=
    (((Played.new.place .black (by decide +kernel)).place .black (by decide +kernel)).place .black
      (by decide +kernel)).place .black (by decide +kernel)
  have hs : rowOfFour.status = .inProgress := by decide +kernel
  have hblack : (⟨4⟩ : Cell) ∈ rowOfFour.winning .black := mem_winning.mpr (by decide +kernel)
  have hnone : ∀ c, rowOfFour.get c ≠ some .white := by
    intro c
    have hempty : empty.get c = none := Stones.get_empty c
    simp only [rowOfFour, get_place, Function.update_apply, hempty]
    split_ifs <;> nofun
  have hwhite : rowOfFour.winning .white = [] := by
    rw [List.eq_nil_iff_forall_not_mem]
    intro c hc
    obtain ⟨-, d, j, hj, hrow⟩ := (wins_iff hp hs).mp (mem_winning.mp hc)
    obtain ⟨i, hi, hij⟩ : ∃ i < 5, i ≠ j := ⟨if j = 0 then 1 else 0, by split_ifs <;> omega, by
      split_ifs <;> omega⟩
    obtain ⟨e, -, he⟩ := hrow i hi hij
    exact hnone e he
  obtain ⟨-, -, hblock⟩ := forced_exact hp.reachable hs .white
  exact ⟨hp.reachable, hs, hwhite, hblack, hblock hwhite (List.ne_nil_of_mem hblack)⟩

end Board

end FiveInRow
