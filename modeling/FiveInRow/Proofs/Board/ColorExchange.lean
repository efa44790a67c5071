import Mathlib.Tactic
import FiveInRow.Board.WinningLine
import FiveInRow.Proofs.Board.Caches
import FiveInRow.Proofs.Board.Canonical
import FiveInRow.Proofs.Playout.Resemblance

/-!
Neither colour is favoured. A game with the colours exchanged in every move runs through the same
boards, with the colours exchanged in the stones, in both caches and in the result.

* `Move.swap`, `Stones.swap`, `AnchorLink.swap`: the colours exchanged;
* `Stones.strongest?_swap`, `Threats.paid_swap`: what one colour makes and stops on the exchanged
  stones, the other one makes and stops on the stones;
* `Threats.Swaps`: two tables of threats with the colours exchanged, and what keeps them so;
* `Threats.reevaluate_eq`: a move of a running game leaves no anchor to be found by its entries;
* `Board.Swaps`: two boards with the colours exchanged; `Board.Swaps.place` is the step,
  `Board.simulation_swaps` the simulation that playouts run along;
* `Board.colors_exchange`: the exchanged game of every board that calls lead to.
-/

namespace FiveInRow

/-- The same move of the opponent. -/
def Move.swap (m : Move) : Move := ⟨m.cell, m.color.other⟩

lemma Color.other_injective : Function.Injective other :=
  Function.LeftInverse.injective other_other

/-! ### Stones -/

namespace Stones

/-- The stones with the colours exchanged. -/
def swap (s : Stones) : Stones := ⟨s.cells.map (Option.map Color.other), s.lines.swap⟩

lemma swap_empty : empty.swap = empty := by
  rw [swap, empty, Vector.map_replicate]
  rfl

lemma get_swap (s : Stones) (c : Cell) : s.swap.get c = (s.get c).map Color.other := by
  simp [get, swap, CellTable.entry]

lemma get_swap_eq_some_iff {s : Stones} {c : Cell} {color : Color} :
    s.swap.get c = some color.other ↔ s.get c = some color := by
  rw [get_swap]
  exact (Option.map_injective Color.other_injective).eq_iff (b := some color)

lemma isEmpty_swap (s : Stones) : s.swap.isEmpty = s.isEmpty := by
  funext c
  rw [isEmpty, isEmpty, get_swap, Option.isNone_map]

lemma line_swap (s : Stones) (color : Color) (d : Direction) (l : Fin 37) :
    s.swap.line color.other d l = s.line color d l := by
  rw [line, line, swap, ByColor.get_swap, Color.other_other]

lemma put_swap (s : Stones) (c : Cell) (color : Color) :
    (s.put c color).swap = s.swap.put c color.other := by
  have hcells : (s.put c color).swap.cells = (s.swap.put c color.other).cells := by
    apply CellTable.ext
    intro e
    show (s.put c color).swap.get e = (s.swap.put c color.other).get e
    rw [get_swap, get_put, get_put, get_swap]
    split_ifs <;> rfl
  have hlines : (s.put c color).swap.lines = (s.swap.put c color.other).lines := by
    cases color <;> rfl
  exact congrArg₂ Stones.mk hcells hlines

lemma hasFive_swap (s : Stones) (c : Cell) (color : Color) :
    s.swap.hasFive c color.other = s.hasFive c color := by
  simp only [hasFive, line_swap]

/-- **What one colour makes, the other makes on the exchanged stones.** -/
lemma strongest?_swap (s : Stones) (c : Cell) (color : Color) (d : Direction) :
    s.swap.strongest? c color.other d = s.strongest? c color d := by
  simp only [strongest?, view, line_swap]

end Stones

/-! ### Threats -/

/-- The record of the other colour at the same cell. -/
def AnchorLink.swap (k : AnchorLink) : AnchorLink := ⟨k.cell, k.side.other⟩

namespace Threats

variable {s : Stones} {t t' : Threats} {a c : Cell}

lemma patternsAt_swap (s : Stones) (a : Cell) (color : Color) :
    patternsAt s.swap a color.other = patternsAt s a color := by
  simp only [patternsAt, Stones.strongest?_swap]

lemma worthAt_swap (s : Stones) (a : Cell) (color : Color) :
    worthAt s.swap a color.other = worthAt s a color := by
  rw [worthAt, worthAt, patternsAt_swap, Stones.isEmpty_swap]

/-- What a cell owes to one record: only the patterns of one colour matter. -/
lemma paid_eq (s : Stones) (a : Cell) (k : AnchorLink) :
    ((due s a).filter (·.1 = k)).map (·.2) =
      if s.isEmpty a then
        (patternsAt s a k.side.other).flatMap fun f =>
          ((entriesOf a f.1 f.2).filter (·.1 = k.cell)).map (·.2)
      else [] := by
  have hfor : ∀ color, ((dueFor s a color).filter (·.1 = k)).map (·.2) =
      if k.side = color.other then
        (patternsAt s a color).flatMap fun f =>
          ((entriesOf a f.1 f.2).filter (·.1 = k.cell)).map (·.2)
      else [] := by
    intro color
    rcases k with ⟨e, side⟩
    by_cases hside : side = color.other
    · subst hside
      simp [dueFor, List.filter_flatMap, List.map_flatMap, List.filter_map, Function.comp_def]
    · have hside' : color.other ≠ side := fun h => hside h.symm
      simp [dueFor, List.filter_flatMap, List.filter_map, Function.comp_def, hside, hside']
  rw [due]
  split_ifs
  · rw [List.filter_append, List.map_append, hfor, hfor]
    cases k.side <;> simp [Color.other]
  · rfl

/-- **What a cell owes to a record, it owes to the record of the other colour on the exchanged
stones.** -/
lemma paid_swap (s : Stones) (a : Cell) (k : AnchorLink) :
    ((due s.swap a).filter (·.1 = k.swap)).map (·.2) =
      ((due s a).filter (·.1 = k)).map (·.2) := by
  rw [paid_eq, paid_eq, Stones.isEmpty_swap, AnchorLink.swap, patternsAt_swap]

/-- Two tables of threats with the colours exchanged. The links of an anchor are left out: the
records of black come first in either table. -/
structure Swaps (t t' : Threats) : Prop where
  attack : ∀ c color, t'.attackOf c color.other = t.attackOf c color
  entries : ∀ k, t'.entriesOn k.swap = t.entriesOn k

lemma swaps_empty : Swaps empty empty where
  attack c color := by simp [attackOf, empty]
  entries k := by simp [entriesOn, recordOf, empty]

lemma Swaps.occupy (h : Swaps t t') (ht : WellKept t) (ht' : WellKept t') (c : Cell) :
    Swaps (t.occupy c) (t'.occupy c) where
  attack e color := by rw [attackOf_occupy, attackOf_occupy, h.attack]
  entries k := by
    rw [ht.entriesOn_occupy, ht'.entriesOn_occupy, h.entries]
    rfl

lemma Swaps.refresh (h : Swaps t t') (ht : WellKept t) (ht' : WellKept t') (s : Stones)
    (a : Cell) : Swaps (refresh s t a) (Threats.refresh s.swap t' a) where
  attack e color := by rw [attackOf_refresh, attackOf_refresh, worthAt_swap, h.attack]
  entries k := by rw [ht.entriesOn_refresh, ht'.entriesOn_refresh, paid_swap, h.entries]

lemma Swaps.foldl_refresh (h : Swaps t t') (ht : WellKept t) (ht' : WellKept t') (s : Stones)
    (cells : List Cell) :
    Swaps (cells.foldl (Threats.refresh s) t) (cells.foldl (Threats.refresh s.swap) t') := by
  induction cells generalizing t t' with
  | nil => exact h
  | cons a cells ih => exact ih (h.refresh ht ht' s a) (ht.refresh s a) (ht'.refresh s.swap a)

/-- Records of the same entries are the same records. -/
lemma Swaps.recordOf_eq (h : Swaps t t') (ht : WellKept t) (ht' : WellKept t') (c : Cell)
    (color : Color) : t'.recordOf c color.other = t.recordOf c color := by
  have hentries : (t'.recordOf c color.other).entries = (t.recordOf c color).entries :=
    h.entries ⟨c, color⟩
  have hpriority : (t'.recordOf c color.other).priority = (t.recordOf c color).priority := by
    rw [ht.weighed, ht'.weighed, hentries]
  exact DefenceRecord.mk.injEq .. ▸ ⟨hentries, hpriority⟩

/-- **A move finds every anchor on its rays**: in a settled table the records of an empty cell only
have entries of cells that the rays see, so none is left to be found by its entries. -/
lemma reevaluate_eq (hs : ∀ a, Settled s t a) (color : Color) :
    Board.reevaluate (s.put c color) t c =
      ((Board.rays c).flatMap (Board.awakened (s.put c color))).foldl
        (Threats.refresh (s.put c color)) (t.occupy c) := by
  have hseen : ∀ a ∈ t.anchorsAt c,
      a ∈ c :: (Board.rays c).flatMap (Board.awakened (s.put c color)) := by
    intro a ha
    obtain ⟨e, he, rfl⟩ := List.mem_map.mp ha
    have hdue : ∃ side, (⟨⟨c, side⟩, e⟩ : AnchorLink × DefenceEntry) ∈ due s e.anchor := by
      rcases List.mem_append.mp he with he | he
      · exact ⟨.black, (mem_entriesOn hs).mp he⟩
      · exact ⟨.white, (mem_entriesOn hs).mp he⟩
    obtain ⟨side, hdue⟩ := hdue
    by_cases hac : e.anchor = c
    · rw [hac]
      exact List.mem_cons_self ..
    · have hempty : (s.put c color).isEmpty e.anchor = true := by
        rw [isEmpty_put hac]
        exact (mem_due.mp hdue).1
      rcases target_inReach hdue with htarget | hreach
      · exact absurd htarget.symm hac
      · exact List.mem_cons_of_mem _ (Board.mem_seen hreach.symm hempty)
  have hstale : (t.anchorsAt c).filter (fun a =>
      a ∉ c :: (Board.rays c).flatMap (Board.awakened (s.put c color))) = [] := by
    rw [List.filter_eq_nil_iff]
    intro a ha
    rw [decide_eq_true_eq, not_not]
    exact hseen a ha
  rw [Board.reevaluate, hstale, List.eraseDups_nil, List.append_nil]

end Threats

/-! ### Boards -/

namespace Board

variable {s : Stones} {b b' : Board} {c : Cell}

lemma behind?_swap (s : Stones) (ray : List Cell) : behind? s.swap ray = behind? s ray := by
  rcases ray with _ | ⟨x, _ | ⟨y, far⟩⟩
  · rfl
  · rfl
  · rw [behind?, behind?, Stones.isEmpty_swap]

lemma awakened_swap (s : Stones) : awakened s.swap = awakened s := by
  funext ray
  simp only [awakened, behind?_swap, Stones.isEmpty_swap]

lemma joining_swap (s : Stones) : joining s.swap = joining s := by
  funext ray
  simp only [joining, behind?_swap, Stones.isEmpty_swap]

/-- Board `b'` is board `b` with the colours exchanged. -/
structure Swaps (b b' : Board) : Prop where
  stones : b'.stones = b.stones.swap
  threats : Threats.Swaps b.threats b'.threats
  frontier : b'.frontier = b.frontier
  status : b'.status = b.status.map Color.other
  moves : b'.moves = b.moves.map Move.swap

lemma swaps_empty : Swaps empty empty where
  stones := Stones.swap_empty.symm
  threats := Threats.swaps_empty
  frontier := rfl
  status := rfl
  moves := rfl

namespace Swaps

lemma accepts_eq (h : Swaps b b') (c : Cell) : b'.accepts c = b.accepts c := by
  rw [accepts, accepts, isOver, isOver, h.status, Status.isOver_map, isEmptyAt, isEmptyAt,
    h.stones, Stones.isEmpty_swap]

/-- **A move keeps the colours exchanged** when the opponent makes it on the other board. -/
lemma place (h : Swaps b b') (hb : Played b) (hb' : Played b') (ha : b.accepts c = true)
    (color : Color) : Swaps (b.place c color) (b'.place c color.other) := by
  have hrun := (accepts_iff.mp ha).1
  have hrun' := (accepts_iff.mp ((h.accepts_eq c).trans ha)).1
  have hstones : b'.stones.put c color.other = (b.stones.put c color).swap := by
    rw [h.stones, Stones.put_swap]
  have hthreats : Threats.Swaps (reevaluate (b.stones.put c color) b.threats c)
      (reevaluate (b'.stones.put c color.other) b'.threats c) := by
    rw [Threats.reevaluate_eq (hb.evaluated hrun).2, Threats.reevaluate_eq (hb'.evaluated hrun').2,
      hstones, awakened_swap]
    exact (h.threats.occupy hb.wellKept hb'.wellKept c).foldl_refresh (hb.wellKept.occupy c)
      (hb'.wellKept.occupy c) _ _
  have hfrontier : (if b'.moves.isEmpty then CellSet.empty else b'.frontier.put c false) =
      if b.moves.isEmpty then CellSet.empty else b.frontier.put c false := by
    rw [h.moves, h.frontier, List.isEmpty_map]
  have hmoves : (⟨c, color.other⟩ : Move) :: b'.moves =
      List.map Move.swap (⟨c, color⟩ :: b.moves) := by
    rw [h.moves, List.map_cons]
    rfl
  have hwiden : widen (b'.stones.put c color.other) = widen (b.stones.put c color) := by
    funext f e
    rw [widen, widen, hstones, joining_swap]
  have hfive : (b'.stones.put c color.other).hasFive c color.other =
      (b.stones.put c color).hasFive c color := by
    rw [hstones, Stones.hasFive_swap]
  simp only [Board.place, hfive, hfrontier, hwiden, hmoves, List.length_map]
  generalize (if b.moves.isEmpty then CellSet.empty else b.frontier.put c false) = frontier
  split_ifs
  · exact ⟨hstones, h.threats, rfl, rfl, rfl⟩
  · exact ⟨hstones, h.threats, rfl, rfl, rfl⟩
  · exact ⟨hstones, hthreats, rfl, h.status, rfl⟩

lemma attackOf_eq (h : Swaps b b') (c : Cell) (color : Color) :
    b'.attackOf c (some color.other) = b.attackOf c (some color) :=
  h.threats.attack c color

/-- The defence priority of a cell is that of the opponent. -/
lemma defenceOf_eq (h : Swaps b b') (hb : Played b) (hb' : Played b') (c : Cell) (color : Color) :
    b'.defenceOf c (some color.other) = b.defenceOf c (some color) := by
  show b'.threats.defenceOf c color.other = b.threats.defenceOf c color
  rw [Threats.defenceOf, Threats.defenceOf, h.threats.recordOf_eq hb.wellKept hb'.wellKept,
    h.threats.attack]

lemma resembles (h : Swaps b b') (hb : Played b) (hb' : Played b') :
    Resembles Color.other b b' where
  status := h.status
  frontier := h.frontier
  attack := h.attackOf_eq
  defence := h.defenceOf_eq hb hb'

lemma runThrough_eq (h : Swaps b b') (color : Color) (c : Cell) (d : Direction) :
    b'.runThrough color.other c d = b.runThrough color c d := by
  have hfrom : ∀ step, b'.runFrom color.other c step = b.runFrom color c step := by
    intro step
    rw [runFrom, runFrom]
    congr 1
    funext e
    rw [get, get, h.stones, decide_eq_decide]
    exact Stones.get_swap_eq_some_iff
  simp only [runThrough, hfrom]

/-- The decisive run is the same one. -/
lemma winningLine?_eq (h : Swaps b b') : b'.winningLine? = b.winningLine? := by
  rw [winningLine?, winningLine?, h.status]
  cases b.status with
  | inProgress => rfl
  | draw => rfl
  | win winner =>
      have hlast : b'.moves.find? (·.color = winner.other) =
          (b.moves.find? (·.color = winner)).map Move.swap := by
        rw [h.moves, List.find?_map]
        congr 2
        funext m
        simp [Move.swap, Color.other_injective.eq_iff]
      show (b'.moves.find? (·.color = winner.other)).bind _ =
        (b.moves.find? (·.color = winner)).bind _
      rw [hlast]
      cases b.moves.find? (·.color = winner) with
      | none => rfl
      | some last =>
          simp only [Option.map_some, Option.bind_some, Move.swap, h.runThrough_eq]

end Swaps

/-- Playouts run along on the two boards, each with its own colours. -/
lemma simulation_swaps :
    Simulation Color.other fun b b' => Played b ∧ Played b' ∧ Swaps b b' where
  injective := Color.other_injective
  resembles := fun ⟨hb, hb', h⟩ => h.resembles hb hb'
  accepts := fun ⟨_, _, h⟩ c => h.accepts_eq c
  place := fun ⟨hb, hb', h⟩ ha color =>
    ⟨hb.place color ha, hb'.place color.other ((h.accepts_eq _).trans ha), h.place hb hb' ha color⟩

/-- The board of the game with the colours exchanged in every move. -/
def exchanged (b : Board) : Board := replay (b.history.map Move.swap)

/-- The exchanged game refuses no move, and leads to the board with the colours exchanged. -/
lemma Played.swaps_exchanged (h : Played b) :
    empty.acceptsAll (b.history.map Move.swap) = true ∧ Swaps b b.exchanged :=
  h.replay_map swaps_empty fun m hb hb' hR ha =>
    ⟨(hR.accepts_eq m.cell).trans ha, hR.place hb hb' ha m.color⟩

/-- **Neither colour is favoured**, on every board that calls lead to. When the colours of its
history are exchanged, every move is accepted; the stones, the status, the priorities and the
defence records of the board are those of the other colour, and the frontier and the winning line
are the same. So the same moves are worth expanding for the opponent, and the same words draw the
same moves and make playouts that are worth the same. -/
theorem colors_exchange (h : Reachable b) :
    empty.acceptsAll (b.history.map Move.swap) = true ∧
    b.exchanged.status = b.status.map Color.other ∧
    b.exchanged.stones = b.stones.swap ∧
    (∀ c color, b.exchanged.attackOf c (Option.map Color.other color) = b.attackOf c color ∧
      b.exchanged.defenceOf c (Option.map Color.other color) = b.defenceOf c color) ∧
    (∀ c color, b.exchanged.threats.recordOf c color.other = b.threats.recordOf c color) ∧
    b.exchanged.frontier = b.frontier ∧
    b.exchanged.winningLine? = b.winningLine? ∧
    (∀ color, b.exchanged.shortlist (Option.map Color.other color) = b.shortlist color) ∧
    ∀ {γ : Type} [WordSource γ] (g : γ),
      (∀ color, b.exchanged.sample (Option.map Color.other color) g = b.sample color g) ∧
      ∀ (last : Color) side, b.exchanged.playOutValue (some last.other)
        (Option.map Color.other side) g = b.playOutValue (some last) side g := by
  have hb := h.played
  have hb' : Played b.exchanged := Played.new.playAll _
  obtain ⟨hall, hswaps⟩ := hb.swaps_exchanged
  have halike := hswaps.resembles hb hb'
  refine ⟨hall, hswaps.status, hswaps.stones,
    fun c color => ⟨halike.attackOf_eq c color, halike.defenceOf_eq c color⟩,
    hswaps.threats.recordOf_eq hb.wellKept hb'.wellKept, hswaps.frontier, hswaps.winningLine?_eq,
    halike.shortlist_eq, fun g => ⟨fun color => ?_, fun last side => ?_⟩⟩
  · rw [halike.sample_eq]
  · exact simulation_swaps.playOutValue_eq ⟨hb, hb', hswaps⟩
      (by rw [Color.after_some, Color.after_some]) side g

/-- The game along two rows with the colours exchanged: white has won, on the line on which black
did, and a playout is worth to white what it was worth to black. -/
theorem colors_exchange_rowGame :
    ∃ b, b = rowGame.foldl after empty ∧ b.status = .win .black ∧
      b.exchanged.status = .win .white ∧
      b.exchanged.winningLine? = some [⟨0⟩, ⟨1⟩, ⟨2⟩, ⟨3⟩, ⟨4⟩] ∧
      (∀ c, b.exchanged.threats.recordOf c .black = b.threats.recordOf c .white) ∧
      ∀ g : WordCycle, b.exchanged.playOutValue (some .white) (some .white) g =
        b.playOutValue (some .black) (some .black) g := by
  have hr : Reachable (rowGame.foldl after empty) := Reachable.new.calls rowGame
  have hs : (rowGame.foldl after empty).status = .win .black := by decide +kernel
  have hline : (rowGame.foldl after empty).winningLine? =
      some [⟨0⟩, ⟨1⟩, ⟨2⟩, ⟨3⟩, ⟨4⟩] := by decide +kernel
  obtain ⟨-, hstatus, -, -, hrecords, -, hwinning, -, hdraws⟩ := colors_exchange hr
  rw [hs] at hstatus
  rw [hline] at hwinning
  exact ⟨_, rfl, hs, hstatus, hwinning, fun c => hrecords c .white,
    fun g => (hdraws g).2 .black (some .black)⟩

end Board

end FiveInRow
