import Mathlib.Tactic
import FiveInRow.Proofs.Board.Orientation
import FiveInRow.Proofs.Pattern.Stops
import FiveInRow.Proofs.Ranking.Draws

/-!
What the ranking makes of a board that is turned. Attack has no orientation, but defence has: two
threats on one line count as two if patterns of different families are found for them, and which
patterns are found may change when the line is read from its other end. That is all that changes. So
a defence priority stays the same or moves between high and vital, and the shortlist stays the same
unless that is what it depends on.

* `mostUrgent`, `Outweighed`, `defenceFrom_turned`: records that weigh the same on every line;
* `LoneLine`, `Board.Played.defenceOf_turned`: a defence priority of the turned board;
* `Levels.top_spec`, `Symmetry.top_ofCells`: the top level is the highest priority, there as here;
* `Priority.rough`, `Verdict.of_rough`: the verdict does not tell high from vital;
* `Board.mem_shortlist_iff`, `Board.RoughImage`: the shortlist, cell by cell, there as here;
* `Board.shortlist_turned`: the defence priorities and the shortlist of the turned board;
* `Board.lopsided`: a board on which both change.
-/

namespace FiveInRow

/-! ### Records -/

/-- The most urgent priority of some entries. -/
def mostUrgent (E : Finset DefenceEntry) : Priority := E.sup fun e => e.pattern.priority

/-- Every entry has one in the other record that is as urgent and lies on the image of its line. -/
def Outweighed (turn : Direction → Direction) (E E' : Finset DefenceEntry) : Prop :=
  ∀ e ∈ E, ∃ e' ∈ E', e.pattern.priority ≤ e'.pattern.priority ∧
    e'.pattern.direction = turn e.pattern.direction

/-- All strong threats among some entries are high, and they lie on one line. -/
def LoneLine (E : Finset DefenceEntry) : Prop :=
  ∃ d, ∀ e ∈ E, Priority.high ≤ e.pattern.priority →
    e.pattern.priority = Priority.high ∧ e.pattern.direction = d

/-- One priority is high and the other one vital. -/
def Priority.Swapped (p q : Priority) : Prop :=
  p = Priority.high ∧ q = Priority.vital ∨ p = Priority.vital ∧ q = Priority.high

instance (p q : Priority) : Decidable (p.Swapped q) := inferInstanceAs (Decidable (_ ∨ _))

/-- Against something else high and vital are still swapped, or they do not matter. -/
lemma Priority.Swapped.max {p q : Priority} (h : p.Swapped q) (r : Priority) :
    p.max r = q.max r ∨ (p.max r).Swapped (q.max r) := by
  obtain ⟨rfl, rfl⟩ | ⟨rfl, rfl⟩ := h
  · revert r
    decide
  · revert r
    decide

variable {turn : Direction → Direction} {E E' : Finset DefenceEntry} {e f : DefenceEntry}

lemma le_mostUrgent (he : e ∈ E) : e.pattern.priority ≤ mostUrgent E :=
  Finset.le_sup (f := fun e => e.pattern.priority) he

lemma Outweighed.mostUrgent_le (h : Outweighed turn E E') : mostUrgent E ≤ mostUrgent E' := by
  refine Finset.sup_le fun e he => ?_
  obtain ⟨e', he', hle, -⟩ := h e he
  exact hle.trans (le_mostUrgent he')

/-- A record is worth its most urgent entry, or that is high and a fork makes it vital. -/
lemma defenceFrom_cases (E : Finset DefenceEntry) :
    defenceFrom E = mostUrgent E ∨
      mostUrgent E = Priority.high ∧ defenceFrom E = Priority.vital := by
  have hraise : ∀ p : Priority, Priority.high ≤ p →
      p ⊔ Priority.vital = p ∨ p = Priority.high ∧ p ⊔ Priority.vital = Priority.vital := by decide
  rw [defenceFrom, ← mostUrgent]
  split_ifs with hfork
  · obtain ⟨e, he, -, -, hehigh, -⟩ := hfork
    exact hraise _ (hehigh.trans (le_mostUrgent he))
  · exact .inl rfl

/-- Strong threats in two directions are a fork, whatever their families. -/
lemma defenceFrom_of_directions (he : e ∈ E) (hf : f ∈ E)
    (hehigh : Priority.high ≤ e.pattern.priority) (hfhigh : Priority.high ≤ f.pattern.priority)
    (hne : e.pattern.direction ≠ f.pattern.direction) :
    defenceFrom E = mostUrgent E ⊔ Priority.vital := by
  rw [defenceFrom, if_pos ⟨e, he, f, hf, hehigh, hfhigh,
    fun hgroup => hne (congrArg Prod.fst hgroup)⟩, mostUrgent]

/-- Without strong threats in two directions, those of a record that gets no further than high lie
on one line. -/
lemma loneLine_of_high (hbest : mostUrgent E = Priority.high)
    (hlines : ∀ e ∈ E, ∀ f ∈ E, Priority.high ≤ e.pattern.priority →
      Priority.high ≤ f.pattern.priority → e.pattern.direction = f.pattern.direction) :
    LoneLine E := by
  by_cases hstrong : ∃ e ∈ E, Priority.high ≤ e.pattern.priority
  · obtain ⟨e, he, hehigh⟩ := hstrong
    refine ⟨e.pattern.direction, fun f hf hfhigh => ⟨le_antisymm ?_ hfhigh, ?_⟩⟩
    · rw [← hbest]
      exact le_mostUrgent hf
    · exact hlines f hf e he hfhigh hehigh
  · exact ⟨.horizontal, fun f hf hfhigh => absurd ⟨f, hf, hfhigh⟩ hstrong⟩

/-- **Records that weigh the same on every line** are worth the same, or their strong threats lie on
one line, where they are a fork in one record only. -/
lemma defenceFrom_turned (hinjective : Function.Injective turn) (h : Outweighed turn E E')
    (h' : Outweighed turn E' E) :
    defenceFrom E' = defenceFrom E ∨
      Priority.Swapped (defenceFrom E') (defenceFrom E) ∧ LoneLine E := by
  have hbest : mostUrgent E' = mostUrgent E := le_antisymm h'.mostUrgent_le h.mostUrgent_le
  by_cases heq : defenceFrom E' = defenceFrom E
  · exact .inl heq
  right
  have hswapped : Priority.Swapped (defenceFrom E') (defenceFrom E) ∧
      mostUrgent E = Priority.high := by
    obtain hE | ⟨hhigh, hE⟩ := defenceFrom_cases E
    · obtain hE' | ⟨hhigh', hE'⟩ := defenceFrom_cases E'
      · exact absurd (by rw [hE', hE, hbest]) heq
      · rw [hbest] at hhigh'
        exact ⟨.inr ⟨hE', hE.trans hhigh'⟩, hhigh'⟩
    · obtain hE' | ⟨-, hE'⟩ := defenceFrom_cases E'
      · exact ⟨.inl ⟨hE'.trans (hbest.trans hhigh), hE⟩, hhigh⟩
      · exact absurd (hE'.trans hE.symm) heq
  refine ⟨hswapped.1, loneLine_of_high hswapped.2 fun e he f hf hehigh hfhigh => ?_⟩
  -- threats in two directions are threats in two directions of the other record as well
  by_contra hne
  obtain ⟨e', he', hele, hedirection⟩ := h e he
  obtain ⟨f', hf', hfle, hfdirection⟩ := h f hf
  have hne' : e'.pattern.direction ≠ f'.pattern.direction := by
    rw [hedirection, hfdirection]
    exact hinjective.ne hne
  exact heq (by rw [defenceFrom_of_directions he hf hehigh hfhigh hne,
    defenceFrom_of_directions he' hf' (hehigh.trans hele) (hfhigh.trans hfle) hne', hbest])

/-! ### Defence -/

namespace Board

variable {b b' : Board} {s : Symmetry} {c : Cell} {color : Option Color}

/-- All strong threats that a colour stops on a cell are high, and they lie on one line. -/
def LoneLine (b : Board) (c : Cell) (color : Option Color) : Prop :=
  ∃ side, color = some side ∧
    FiveInRow.LoneLine (b.threats.recordOf c side).entries.toFinset

/-- A record stops nothing that the record of the image of its cell does not stop on the image of
the line. -/
lemma Played.outweighed (hb : Played b) (hb' : Played b') (hs : b.status = .inProgress)
    (hs' : b'.status = .inProgress) (h : s.Carries b.get b'.get) (c : Cell) (side : Color) :
    Outweighed s.turn (b.threats.recordOf c side).entries.toFinset
      (b'.threats.recordOf (s.onCell c) side).entries.toFinset := by
  intro e he
  rw [List.mem_toFinset, hb.mem_recordOf_iff hs] at he
  obtain ⟨e', he', hle, hdirection⟩ := h.exists_owed he
  exact ⟨e', List.mem_toFinset.mpr ((hb'.mem_recordOf_iff hs').mpr he'), hle, hdirection⟩

/-- The attack of the turned board. -/
lemma Played.attackOf_turned (hb : Played b) (hb' : Played b') (hs : b.status = .inProgress)
    (h : s.Carries b.get b'.get) (c : Cell) (color : Option Color) :
    b'.attackOf (s.onCell c) color = b.attackOf c color := by
  cases color with
  | none => rfl
  | some side =>
      have hs' : b'.status = .inProgress := by rw [hb.judged.status_eq hb'.judged h, hs]
      rw [hb'.attackOf_eq hs', hb.attackOf_eq hs, h.attackFrom_eq]

/-- **A defence priority of the turned board** is the one of the board, or one of them is high and
the other vital. -/
lemma Played.defenceOf_turned (hb : Played b) (hb' : Played b') (hs : b.status = .inProgress)
    (h : s.Carries b.get b'.get) (c : Cell) (color : Option Color) :
    b'.defenceOf (s.onCell c) color = b.defenceOf c color ∨
      Priority.Swapped (b'.defenceOf (s.onCell c) color) (b.defenceOf c color) ∧
        b.LoneLine c color := by
  cases color with
  | none => exact .inl rfl
  | some side =>
      have hs' : b'.status = .inProgress := by rw [hb.judged.status_eq hb'.judged h, hs]
      have hattack := hb.attackOf_turned hb' hs h c (some side.other)
      have hback := hb'.outweighed hb hs' hs h.inverse (s.onCell c) side
      rw [s.inverse_onCell, s.turn_inverse] at hback
      have hrecord := defenceFrom_turned s.turn_involutive.injective
        (hb.outweighed hb' hs hs' h c side) hback
      rw [← hb.recordOf_priority hs, ← hb'.recordOf_priority hs'] at hrecord
      have hdefence : b.defenceOf c (some side) =
          (b.threats.recordOf c side).priority.max (b.attackOf c (some side.other)) := rfl
      have hdefence' : b'.defenceOf (s.onCell c) (some side) =
          (b'.threats.recordOf (s.onCell c) side).priority.max
            (b'.attackOf (s.onCell c) (some side.other)) := rfl
      rw [hdefence, hdefence', hattack]
      obtain heq | ⟨hswapped, hlone⟩ := hrecord
      · exact .inl (by rw [heq])
      · exact (hswapped.max _).imp_right fun hmax => ⟨hmax, side, rfl, hlone⟩

end Board

/-- What holds of the images of some cells and of no others. -/
lemma Symmetry.iff_exists_onCell (s : Symmetry) {P P' : Cell → Prop}
    (h : ∀ c, P' (s.onCell c) ↔ P c) (e : Cell) : P' e ↔ ∃ c, P c ∧ s.onCell c = e := by
  constructor
  · intro he
    refine ⟨s.inverse.onCell e, ?_, s.onCell_inverse e⟩
    rwa [← h, s.onCell_inverse]
  · rintro ⟨c, hc, rfl⟩
    exact (h c).mpr hc

/-! ### Top levels -/

/-- The top level is the highest priority of the cells. -/
lemma Levels.top_spec {cells : List Cell} (priority : Cell → Priority) (h : cells ≠ []) :
    (∃ c ∈ cells, priority c = (ofCells priority cells).top) ∧
      ∀ c ∈ cells, priority c ≤ (ofCells priority cells).top := by
  have hlevel : ∀ p, (ofCells priority cells).get p = cells.filter fun c => priority c = p :=
    getElem_ofCells priority cells
  constructor
  · obtain ⟨c, hc⟩ := List.exists_mem_of_ne_nil _ (get_top_ofCells_ne_nil priority h)
    rw [hlevel, List.mem_filter, decide_eq_true_eq] at hc
    exact ⟨c, hc⟩
  · intro c hc
    refine le_top (List.ne_nil_of_mem (a := c) ?_)
    rw [hlevel, List.mem_filter, decide_eq_true_eq]
    exact ⟨hc, rfl⟩

/-- Where the priorities of the images are the same to a scale, so are the top levels. -/
lemma Symmetry.top_ofCells {s : Symmetry} {cells cells' : List Cell}
    {priority priority' : Cell → Priority} {scale : Priority → Priority} (hne : cells ≠ [])
    (hcells : ∀ c, s.onCell c ∈ cells' ↔ c ∈ cells) (hscale : Monotone scale)
    (hpriority : ∀ c ∈ cells, scale (priority' (s.onCell c)) = scale (priority c)) :
    scale (Levels.ofCells priority' cells').top = scale (Levels.ofCells priority cells).top := by
  have hne' : cells' ≠ [] := by
    obtain ⟨c, hc⟩ := List.exists_mem_of_ne_nil _ hne
    exact List.ne_nil_of_mem ((hcells c).mpr hc)
  obtain ⟨⟨c, hc, htop⟩, hle⟩ := Levels.top_spec priority hne
  obtain ⟨⟨e, he, htop'⟩, hle'⟩ := Levels.top_spec priority' hne'
  refine le_antisymm ?_ ?_
  · rw [← s.onCell_inverse e, hcells] at he
    rw [← htop', ← s.onCell_inverse e, hpriority _ he]
    exact hscale (hle _ he)
  · rw [← htop, ← hpriority c hc]
    exact hscale (hle' _ ((hcells c).mpr hc))

/-- High and vital as one level. -/
def Priority.rough (p : Priority) : Priority := if p = Priority.vital then Priority.high else p

lemma Priority.rough_mono : Monotone Priority.rough := by
  have hall : ∀ p q : Priority, p ≤ q → p.rough ≤ q.rough := by decide
  exact fun p q => hall p q

/-- Elsewhere levels that are the same to this scale are the same. -/
lemma Priority.rough_eq_iff {p top : Priority} (h : top.rough ≠ Priority.high) :
    p.rough = top.rough ↔ p = top := by
  revert p top
  decide

lemma Priority.Swapped.rough_eq {p q : Priority} (h : p.Swapped q) : p.rough = q.rough := by
  obtain ⟨rfl, rfl⟩ | ⟨rfl, rfl⟩ := h <;> rfl

/-- **The verdict does not tell high from vital.** -/
lemma Verdict.of_rough (attack defence : Priority) :
    Verdict.of attack defence.rough = Verdict.of attack defence := by
  revert attack defence
  decide

namespace Outlook

variable {o : Outlook}

/-- Either attack or defence will do, and the best defence is high or vital. -/
def Contested (o : Outlook) : Prop :=
  o.verdict = .either ∧ o.defence.top.rough = Priority.high

/-- A verdict for defence alone needs more than high or vital. -/
lemma rough_ne_of_not_contested (h : ¬o.Contested) (hattack : o.verdict ≠ .attack)
    (hspread : o.verdict ≠ .spread) : o.defence.top.rough ≠ Priority.high := by
  have hall : ∀ attack defence : Priority, Verdict.of attack defence = .defence →
      defence.rough ≠ Priority.high := by decide
  cases hverdict : o.verdict with
  | attack => exact absurd hverdict hattack
  | defence => exact hall _ _ hverdict
  | either => exact fun hrough => h ⟨hverdict, hrough⟩
  | spread => exact absurd hverdict hspread

end Outlook

namespace Board

variable {b b' : Board} {s : Symmetry} {c : Cell} {color : Option Color}

/-- A cell of the most urgent attack. -/
lemma mem_topAttack_iff : c ∈ (Outlook.of b color).topAttack ↔
    c ∈ b.available ∧ b.attackOf c color = (Outlook.of b color).attack.top := by
  rw [Outlook.topAttack, Outlook.of, Levels.getElem_ofCells, List.mem_filter, decide_eq_true_eq]

/-- A cell of the most urgent defence. -/
lemma mem_topDefence_iff : c ∈ (Outlook.of b color).topDefence ↔
    c ∈ b.available ∧ b.defenceOf c color = (Outlook.of b color).defence.top := by
  rw [Outlook.topDefence, Outlook.of, Levels.getElem_ofCells, List.mem_filter, decide_eq_true_eq]

/-- The shortlist, cell by cell. -/
lemma mem_shortlist_iff (hs : b.status = .inProgress) :
    c ∈ b.shortlist color ↔ match (Outlook.of b color).verdict with
      | .attack => c ∈ (Outlook.of b color).topAttack
      | .defence => c ∈ (Outlook.of b color).topDefence
      | .either => c ∈ (Outlook.of b color).topAttack ∨ c ∈ (Outlook.of b color).topDefence
      | .spread => c ∈ b.available := by
  rw [shortlist, isOver_eq_false_iff.mpr hs, if_neg Bool.false_ne_true]
  cases hverdict : (Outlook.of b color).verdict with
  | attack => simp only [hverdict]
  | defence => simp only [hverdict]
  | either =>
      simp only [hverdict]
      rw [CellSet.mem_toList, CellSet.contains_ofList, List.mem_append]
  | spread => simp only [hverdict]

/-! ### Shortlists -/

/-- For a colour the cells of the frontier of one board are images of those of the other; their
attack is the same, and so is their defence, up to high and vital. -/
structure RoughImage (s : Symmetry) (color : Option Color) (b b' : Board) : Prop where
  ne_nil : b.available ≠ []
  available : ∀ c, s.onCell c ∈ b'.available ↔ c ∈ b.available
  attack : ∀ c, b'.attackOf (s.onCell c) color = b.attackOf c color
  defence : ∀ c, b'.defenceOf (s.onCell c) color = b.defenceOf c color ∨
    Priority.Swapped (b'.defenceOf (s.onCell c) color) (b.defenceOf c color)

lemma Played.roughImage (hb : Played b) (hb' : Played b') (hs : b.status = .inProgress)
    (h : s.Carries b.get b'.get) (color : Option Color) : RoughImage s color b b' where
  ne_nil := by
    obtain ⟨e, he⟩ := hb.exists_mem_frontier hs
    exact List.ne_nil_of_mem (CellSet.mem_toList.mpr he)
  available c := by
    rw [Board.available, Board.available, CellSet.mem_toList, CellSet.mem_toList]
    exact hb.frontier_onCell hb' h hs c
  attack c := hb.attackOf_turned hb' hs h c color
  defence c := (hb.defenceOf_turned hb' hs h c color).imp_right And.left

namespace RoughImage

variable (h : RoughImage s color b b')
include h

lemma defence_rough (c : Cell) :
    (b'.defenceOf (s.onCell c) color).rough = (b.defenceOf c color).rough :=
  (h.defence c).elim (congrArg Priority.rough) Priority.Swapped.rough_eq

lemma top_attack : (Outlook.of b' color).attack.top = (Outlook.of b color).attack.top :=
  Symmetry.top_ofCells h.ne_nil h.available monotone_id fun c _ => h.attack c

lemma top_defence_rough :
    (Outlook.of b' color).defence.top.rough = (Outlook.of b color).defence.top.rough :=
  Symmetry.top_ofCells h.ne_nil h.available Priority.rough_mono fun c _ => h.defence_rough c

/-- The same rule applies on both boards. -/
lemma verdict : (Outlook.of b' color).verdict = (Outlook.of b color).verdict := by
  rw [Outlook.verdict, Outlook.verdict, ← Verdict.of_rough, h.top_attack, h.top_defence_rough,
    Verdict.of_rough]

lemma mem_topAttack (c : Cell) :
    s.onCell c ∈ (Outlook.of b' color).topAttack ↔ c ∈ (Outlook.of b color).topAttack := by
  rw [mem_topAttack_iff, mem_topAttack_iff, h.available, h.attack, h.top_attack]

/-- The most urgent defence is on images of cells where it is neither high nor vital. -/
lemma mem_topDefence (hne : (Outlook.of b color).defence.top.rough ≠ Priority.high) (c : Cell) :
    s.onCell c ∈ (Outlook.of b' color).topDefence ↔ c ∈ (Outlook.of b color).topDefence := by
  have hne' : (Outlook.of b' color).defence.top.rough ≠ Priority.high := by
    rwa [h.top_defence_rough]
  rw [mem_topDefence_iff, mem_topDefence_iff, h.available, ← Priority.rough_eq_iff hne,
    ← Priority.rough_eq_iff hne', h.defence_rough, h.top_defence_rough]

/-- It is on images of cells where no priority is swapped. -/
lemma mem_topDefence_of_eq
    (heq : ∀ c ∈ b.available, b'.defenceOf (s.onCell c) color = b.defenceOf c color) (c : Cell) :
    s.onCell c ∈ (Outlook.of b' color).topDefence ↔ c ∈ (Outlook.of b color).topDefence := by
  have htop : (Outlook.of b' color).defence.top = (Outlook.of b color).defence.top :=
    Symmetry.top_ofCells h.ne_nil h.available monotone_id heq
  rw [mem_topDefence_iff, mem_topDefence_iff, h.available, htop]
  exact and_congr_right fun hc => by rw [heq c hc]

/-- Where the most urgent defence is on images of cells, so is the shortlist. -/
lemma mem_shortlist (hs : b.status = .inProgress) (hs' : b'.status = .inProgress)
    (hdefence : (Outlook.of b color).verdict ≠ .attack → (Outlook.of b color).verdict ≠ .spread →
      ∀ c, s.onCell c ∈ (Outlook.of b' color).topDefence ↔ c ∈ (Outlook.of b color).topDefence)
    (c : Cell) : s.onCell c ∈ b'.shortlist color ↔ c ∈ b.shortlist color := by
  rw [mem_shortlist_iff hs, mem_shortlist_iff hs', h.verdict]
  cases hverdict : (Outlook.of b color).verdict with
  | attack => exact h.mem_topAttack c
  | defence => exact hdefence (by rw [hverdict]; decide) (by rw [hverdict]; decide) c
  | either =>
      exact or_congr (h.mem_topAttack c)
        (hdefence (by rw [hverdict]; decide) (by rw [hverdict]; decide) c)
  | spread => exact h.available c

lemma contested (hcontested : (Outlook.of b color).Contested) :
    (Outlook.of b' color).Contested :=
  ⟨h.verdict.trans hcontested.1, h.top_defence_rough.trans hcontested.2⟩

/-- What a contested shortlist holds beside the most urgent attack is high or vital. -/
lemma rough_of_mem_shortlist (hs : b.status = .inProgress) (hs' : b'.status = .inProgress)
    (hcontested : (Outlook.of b color).Contested)
    (hmem : c ∈ b.shortlist color ∨ s.onCell c ∈ b'.shortlist color) :
    c ∈ (Outlook.of b color).topAttack ∨ (b.defenceOf c color).rough = Priority.high ∧
      (b'.defenceOf (s.onCell c) color).rough = Priority.high := by
  rw [mem_shortlist_iff hs, mem_shortlist_iff hs', h.verdict, hcontested.1] at hmem
  obtain (hattack | hdefence) | (hattack | hdefence) := hmem
  · exact .inl hattack
  · have hrough : (b.defenceOf c color).rough = Priority.high := by
      rw [(mem_topDefence_iff.mp hdefence).2, hcontested.2]
    exact .inr ⟨hrough, (h.defence_rough c).trans hrough⟩
  · exact .inl ((h.mem_topAttack c).mp hattack)
  · have hrough : (b'.defenceOf (s.onCell c) color).rough = Priority.high := by
      rw [(mem_topDefence_iff.mp hdefence).2, h.top_defence_rough, hcontested.2]
    exact .inr ⟨(h.defence_rough c).symm.trans hrough, hrough⟩

end RoughImage

/-- **Shortlists do not depend on the board's orientation**, up to the lone lines on which a fork is
seen from one end only. Of every running game that calls lead to, for every rotation and reflection
of the square and for every colour: on the image of a cell the defence priority is the one on the
cell, or one of them is high and the other vital, which needs a cell where all strong threats that
the colour stops are high and on one line. The shortlist is the image of the shortlist, unless the
priority of a cell of the frontier is swapped, either attack or defence will do, and the best
defence is high or vital. Then so it is on both boards, the halves of the shortlists that attack are
images of each other, and whatever else one of them holds has a high or vital defence on both. -/
theorem shortlist_turned (h : Reachable b) (hs : b.status = .inProgress) (s : Symmetry)
    (color : Option Color) :
    (∀ c, (b.turned s).defenceOf (s.onCell c) color = b.defenceOf c color ∨
      Priority.Swapped ((b.turned s).defenceOf (s.onCell c) color) (b.defenceOf c color) ∧
        b.LoneLine c color) ∧
    ((∀ e, e ∈ (b.turned s).shortlist color ↔ ∃ c ∈ b.shortlist color, s.onCell c = e) ∨
      (∃ c ∈ b.available,
        Priority.Swapped ((b.turned s).defenceOf (s.onCell c) color) (b.defenceOf c color)) ∧
      (Outlook.of b color).Contested ∧ (Outlook.of (b.turned s) color).Contested ∧
      (∀ c, s.onCell c ∈ (Outlook.of (b.turned s) color).topAttack ↔
        c ∈ (Outlook.of b color).topAttack) ∧
      ∀ c, c ∈ b.shortlist color ∨ s.onCell c ∈ (b.turned s).shortlist color →
        c ∈ (Outlook.of b color).topAttack ∨
          (b.defenceOf c color).rough = Priority.high ∧
            ((b.turned s).defenceOf (s.onCell c) color).rough = Priority.high) := by
  have hb := h.played
  have hb' : Played (b.turned s) := Played.new.playAll _
  obtain ⟨-, hcarries⟩ := hb.carries_turned s
  have hs' : (b.turned s).status = .inProgress := by
    rw [hb.judged.status_eq hb'.judged hcarries, hs]
  have himage := hb.roughImage hb' hs hcarries color
  refine ⟨fun c => hb.defenceOf_turned hb' hs hcarries c color, ?_⟩
  by_cases hswapped : ∃ c ∈ b.available,
      Priority.Swapped ((b.turned s).defenceOf (s.onCell c) color) (b.defenceOf c color)
  · by_cases hcontested : (Outlook.of b color).Contested
    · right
      refine ⟨hswapped, hcontested, himage.contested hcontested, himage.mem_topAttack, ?_⟩
      exact fun c => himage.rough_of_mem_shortlist hs hs' hcontested
    · left
      refine s.iff_exists_onCell (himage.mem_shortlist hs hs' fun hattack hspread => ?_)
      exact himage.mem_topDefence (Outlook.rough_ne_of_not_contested hcontested hattack hspread)
  · left
    refine s.iff_exists_onCell (himage.mem_shortlist hs hs' fun _ _ => ?_)
    refine himage.mem_topDefence_of_eq fun c hc => ?_
    exact (himage.defence c).resolve_right fun hc' => hswapped ⟨c, hc, hc'⟩

/-- On the first row white has three stones side by side, and black two and one in the corner. -/
def lopsided : Board :=
  replay [⟨⟨14⟩, .black⟩, ⟨⟨4⟩, .white⟩, ⟨⟨15⟩, .black⟩, ⟨⟨5⟩, .white⟩, ⟨⟨18⟩, .black⟩,
    ⟨⟨6⟩, .white⟩]

/-- The columns in reverse order. -/
def mirror : Symmetry := ⟨false, true, false⟩

lemma white_on_lopsided :
    lopsided.status = .inProgress ∧ lopsided.defenceOf ⟨17⟩ (some .white) = Priority.vital ∧
      lopsided.shortlist (some .white) = [⟨3⟩, ⟨7⟩, ⟨16⟩, ⟨17⟩] := by
  decide +kernel

lemma white_on_mirrored :
    (lopsided.turned mirror).defenceOf ⟨1⟩ (some .white) = Priority.high ∧
      (lopsided.turned mirror).shortlist (some .white) = [⟨2⟩, ⟨11⟩, ⟨15⟩] := by
  decide +kernel

/-- Black can make a four of all three stones or an open three of two. The pattern that is found for
the open three ends next to the corner, so a stone of white there stops both. In the mirror the one
that is found ends a cell short of that, the stone stops the four only, and it is not on the
shortlist. -/
theorem lopsided_turned :
    Reachable lopsided ∧ lopsided.status = .inProgress ∧ mirror.onCell ⟨17⟩ = ⟨1⟩ ∧
      lopsided.defenceOf ⟨17⟩ (some .white) = Priority.vital ∧
      (lopsided.turned mirror).defenceOf ⟨1⟩ (some .white) = Priority.high ∧
      ⟨17⟩ ∈ lopsided.shortlist (some .white) ∧
      ⟨1⟩ ∉ (lopsided.turned mirror).shortlist (some .white) := by
  obtain ⟨hs, hvital, hlist⟩ := white_on_lopsided
  obtain ⟨hhigh, hlist'⟩ := white_on_mirrored
  refine ⟨(Played.new.playAll _).reachable, hs, by decide, hvital, hhigh, ?_, ?_⟩
  · rw [hlist]
    decide
  · rw [hlist']
    decide

/-- So the threats that it stops lie on one line, and white is free to attack or to defend on both
boards. -/
theorem shortlist_turned_lopsided :
    lopsided.status = .inProgress ∧ lopsided.LoneLine ⟨17⟩ (some .white) ∧
      (Outlook.of lopsided (some .white)).Contested ∧
      (Outlook.of (lopsided.turned mirror) (some .white)).Contested := by
  obtain ⟨hs, hvital, hlist⟩ := white_on_lopsided
  obtain ⟨hhigh, hlist'⟩ := white_on_mirrored
  have hr : Reachable lopsided := (Played.new.playAll _).reachable
  have himage : mirror.onCell ⟨17⟩ = ⟨1⟩ := by decide
  obtain ⟨hdefence, hshortlist⟩ := shortlist_turned hr hs mirror (some .white)
  have hlone := (hdefence ⟨17⟩).resolve_left (by rw [himage, hhigh, hvital]; decide)
  have hmoved : ¬∀ e, e ∈ (lopsided.turned mirror).shortlist (some .white) ↔
      ∃ c ∈ lopsided.shortlist (some .white), mirror.onCell c = e := by
    intro hall
    have hmem := (hall ⟨1⟩).mpr ⟨⟨17⟩, by rw [hlist]; decide, himage⟩
    rw [hlist'] at hmem
    exact absurd hmem (by decide)
  obtain ⟨-, hcontested, hcontested', -⟩ := hshortlist.resolve_left hmoved
  exact ⟨hs, hlone.2, hcontested, hcontested'⟩

end Board

end FiveInRow
