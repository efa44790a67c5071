import Mathlib.Tactic
import FiveInRow.Proofs.Board.Canonical
import FiveInRow.Proofs.Board.Frontier
import FiveInRow.Proofs.Board.Occupancy
import FiveInRow.Proofs.Playout.Resemblance

/-!
The evaluation of a position does not depend on the order of the moves that led to it. The caches
of a running game are functions of its cells, but for the order in which a record lists its
entries, which its priority does not depend on.

* `LineTable.ext`, `Stones.Mirrored.eq_of_get`: the cells determine the words;
* `Board.SamePosition`: two boards that agree on everything but the order of entries, links and
  moves;
* `Board.Played.samePosition`: running games with the same stones are in the same position;
* `Board.SamePosition.place`: moves keep it so, also those that end the game;
* `Board.order_irrelevant`: two orders of the same moves.
-/

namespace FiveInRow

namespace LineTable

/-- Every word is the word of a line. -/
lemma exists_slot (i : Fin 148) : ∃ d l, i = slot d l := by
  have hi := i.isLt
  refine ⟨Direction.ofNumber ⟨i.val / 37, by omega⟩, ⟨i.val % 37, by omega⟩, Fin.ext ?_⟩
  simp only [slot, Direction.number_ofNumber]
  omega

/-- A table is determined by its words. -/
lemma ext {t u : LineTable} (h : ∀ d l, t.word d l = u.word d l) : t = u := by
  have hslot : ∀ i : Fin 148, t.words[i] = u.words[i] := by
    intro i
    obtain ⟨d, l, rfl⟩ := exists_slot i
    exact h d l
  have hwords : t.words = u.words := Vector.ext fun i hi => hslot ⟨i, hi⟩
  exact congrArg mk hwords

end LineTable

/-- **The cells determine the words.** -/
lemma Stones.Mirrored.eq_of_get {s s' : Stones} (h : s.Mirrored) (h' : s'.Mirrored)
    (hget : ∀ c, s'.get c = s.get c) : s' = s := by
  have hcells : s'.cells = s.cells := CellTable.ext hget
  have hlines : ∀ color, s'.lines.get color = s.lines.get color := by
    intro color
    refine LineTable.ext fun d l => Nat.eq_of_testBit_eq fun k => ?_
    have hbits := h color d l k
    simp only [← hget] at hbits
    exact Bool.eq_iff_iff.mpr ((h' color d l k).trans hbits.symm)
  exact congrArg₂ Stones.mk hcells
    (congrArg₂ ByColor.mk (hlines .black) (hlines .white))

namespace Board

variable {b b' : Board} {c : Cell}

/-- Two boards in the same position. The order in which records list their entries and anchors
their links may differ, and so may the order of the moves. -/
structure SamePosition (b b' : Board) : Prop where
  stones : b'.stones = b.stones
  status : b'.status = b.status
  frontier : b'.frontier = b.frontier
  attack : ∀ c color, b'.threats.attackOf c color = b.threats.attackOf c color
  entries : ∀ c color,
    (b'.threats.recordOf c color).entries.Perm (b.threats.recordOf c color).entries
  moves : b'.moves.Perm b.moves

/-- The history of a board is determined by its cells, up to its order. -/
lemma Recorded.perm_moves (h : Recorded b) (h' : Recorded b') (hget : b'.get = b.get) :
    b'.moves.Perm b.moves := by
  rw [List.perm_ext_iff_of_nodup h'.distinct.of_map h.distinct.of_map]
  rintro ⟨p, color⟩
  rw [h'.mem_iff, h.mem_iff, hget]

/-- **Running games with the same stones are in the same position.** -/
lemma Played.samePosition (h : Played b) (h' : Played b') (hget : b'.get = b.get)
    (hs : b.status = .inProgress) : SamePosition b b' := by
  have hstatus : b'.status = b.status :=
    h.judged.status_congr h'.judged (by simp [hget]) (by rw [hget])
  have hs' := hstatus.trans hs
  have hmoves := h.recorded.perm_moves h'.recorded hget
  have hnil : b'.moves = [] ↔ b.moves = [] := by
    rw [h'.moves_eq_nil_iff, h.moves_eq_nil_iff, hget]
  refine ⟨h.judged.mirrored.eq_of_get h'.judged.mirrored (congrFun hget), hstatus, ?_, ?_, ?_,
    hmoves⟩
  · refine CellSet.ext fun e => Bool.eq_iff_iff.mpr ?_
    simp only [h'.frontier_iff hs', h.frontier_iff hs, hnil, hget]
  · intro c color
    have hattack := h'.attackOf_eq hs' c color
    rw [hget, ← h.attackOf_eq hs c color] at hattack
    exact hattack
  · intro c color
    have hnodup := Threats.nodup_entriesOn (h.evaluated hs).2 ⟨c, color⟩
    have hnodup' := Threats.nodup_entriesOn (h'.evaluated hs').2 ⟨c, color⟩
    refine (List.perm_ext_iff_of_nodup hnodup' hnodup).mpr fun e => ?_
    exact (h'.mem_recordOf_iff hs').trans (by rw [hget]; exact (h.mem_recordOf_iff hs).symm)

namespace SamePosition

lemma accepts_eq (h : SamePosition b b') (c : Cell) : b'.accepts c = b.accepts c := by
  rw [accepts, accepts, isOver, isOver, h.status, isEmptyAt, isEmptyAt, h.stones]

lemma get_eq (h : SamePosition b b') : b'.get = b.get := by
  funext c
  rw [get, get, h.stones]

/-- **A move keeps boards in the same position.** If the game goes on, both are evaluated again;
if it ends, both keep what they had. -/
lemma place (h : SamePosition b b') (hb : Played b) (hb' : Played b') (ha : b.accepts c = true)
    (color : Color) : SamePosition (b.place c color) (b'.place c color) := by
  have ha' := (h.accepts_eq c).trans ha
  have hget : (b'.place c color).get = (b.place c color).get := by
    rw [get_place, get_place, h.get_eq]
  by_cases hs : (b.place c color).status = .inProgress
  · exact (hb.place color ha).samePosition (hb'.place color ha') hget hs
  · have hstatus : (b'.place c color).status = (b.place c color).status := by
      rw [status_place, status_place, h.stones, h.status, h.moves.length_eq]
    have hover : (b.place c color).status ≠ b.status := by
      rwa [(accepts_iff.mp ha).1]
    have hover' : (b'.place c color).status ≠ b'.status := by
      rwa [hstatus, h.status]
    have hmoves : b.moves ≠ [] := fun hm => hs (hb.status_first hm ha color)
    have hmoves' : b'.moves ≠ [] := fun hm => hmoves (List.perm_nil.mp (hm ▸ h.moves.symm))
    refine ⟨?_, hstatus, ?_, ?_, ?_, ?_⟩
    · rw [stones_place, stones_place, h.stones]
    · rw [frontier_place_of_over hmoves hover, frontier_place_of_over hmoves' hover', h.frontier]
    · rw [threats_place_of_over hover, threats_place_of_over hover']
      exact h.attack
    · rw [threats_place_of_over hover, threats_place_of_over hover']
      exact h.entries
    · rw [moves_place, moves_place]
      exact h.moves.cons _

/-- The priority of a record does not depend on the order of its entries. -/
lemma recordOf_priority (h : SamePosition b b') (hb : Played b) (hb' : Played b') (c : Cell)
    (color : Color) :
    (b'.threats.recordOf c color).priority = (b.threats.recordOf c color).priority := by
  rw [hb'.wellKept.weighed, hb.wellKept.weighed, worth_eq_defenceFrom, worth_eq_defenceFrom,
    List.toFinset_eq_of_perm _ _ (h.entries c color)]

lemma resembles (h : SamePosition b b') (hb : Played b) (hb' : Played b') :
    Resembles id b b' where
  status := by
    rw [h.status]
    cases b.status <;> rfl
  frontier := h.frontier
  attack := h.attack
  defence c color := by
    show (b'.threats.recordOf c color).priority.max (b'.threats.attackOf c color.other) =
      (b.threats.recordOf c color).priority.max (b.threats.attackOf c color.other)
    rw [h.recordOf_priority hb hb', h.attack]

end SamePosition

/-- Playouts run along on two boards in the same position. -/
lemma simulation_samePosition :
    Simulation id fun b b' => Played b ∧ Played b' ∧ SamePosition b b' where
  injective := Function.injective_id
  resembles := fun ⟨hb, hb', h⟩ => h.resembles hb hb'
  accepts := fun ⟨_, _, h⟩ c => h.accepts_eq c
  place := fun ⟨hb, hb', h⟩ ha color =>
    ⟨hb.place color ha, hb'.place color ((h.accepts_eq _).trans ha), h.place hb hb' ha color⟩

/-- **Further moves keep boards in the same position**, whether they are accepted or not. -/
lemma SamePosition.playAll (h : SamePosition b b') (hb : Played b) (hb' : Played b')
    (further : List Move) : SamePosition (b.playAll further) (b'.playAll further) := by
  induction further generalizing b b' with
  | nil => exact h
  | cons m further ih =>
      rw [Board.playAll, Board.playAll, List.foldl_cons, List.foldl_cons, h.accepts_eq m.cell]
      split_ifs with ha
      · exact ih (h.place hb hb' ha m.color) (hb.place m.color ha)
          (hb'.place m.color ((h.accepts_eq _).trans ha))
      · exact ih h hb hb'

/-- Two orders of the same moves put the same stones on the board. -/
lemma get_replay_of_perm {moves moves' : List Move} (h : empty.acceptsAll moves = true)
    (h' : empty.acceptsAll moves' = true) (hperm : moves.Perm moves') :
    (replay moves').get = (replay moves).get := by
  have hmem : ∀ {moves : List Move}, empty.acceptsAll moves = true → ∀ p color,
      (replay moves).get p = some color ↔ ⟨p, color⟩ ∈ moves := by
    intro moves hall p color
    have hplayed : Played (replay moves) := Played.new.playAll moves
    have hhistory : (replay moves).history = moves := history_playAll hall
    rw [← hplayed.recorded.mem_iff, ← List.mem_reverse, ← history, hhistory]
  funext p
  refine Option.ext fun color => ?_
  rw [hmem h', hmem h, hperm.mem_iff]

/-- **The evaluation depends on the position, not on the order of the moves.** Two orders of the
same moves, each accepted, that leave the game running lead to boards with the same stones, words,
frontier and priorities, whose records have the same entries, up to their order. The same moves are
worth expanding on both, and equal words draw equal moves and make playouts and batches of playouts
that are worth the same. All of this is still so after any further moves, the same on both. -/
theorem order_irrelevant {moves moves' : List Move} (h : empty.acceptsAll moves = true)
    (h' : empty.acceptsAll moves' = true) (hperm : moves.Perm moves')
    (hs : (replay moves).status = .inProgress) (further : List Move) :
    ∃ b b', b = (replay moves).playAll further ∧ b' = (replay moves').playAll further ∧
      b'.stones = b.stones ∧ b'.status = b.status ∧ b'.frontier = b.frontier ∧
      (∀ c color, b'.attackOf c color = b.attackOf c color ∧
        b'.defenceOf c color = b.defenceOf c color) ∧
      (∀ c color, (b'.threats.recordOf c color).entries.Perm
        (b.threats.recordOf c color).entries) ∧
      (∀ c, b'.accepts c = b.accepts c) ∧
      (∀ color, b'.shortlist color = b.shortlist color) ∧
      (∀ last side workers base,
        b'.batchValue last side workers base = b.batchValue last side workers base) ∧
      ∀ {γ : Type} [WordSource γ] (g : γ),
        (∀ color, b'.sample color g = b.sample color g) ∧
        b'.sampleUniform g = b.sampleUniform g ∧
        ∀ last side, b'.playOutValue last side g = b.playOutValue last side g := by
  have hp : Played (replay moves) := Played.new.playAll moves
  have hp' : Played (replay moves') := Played.new.playAll moves'
  have hsame := (hp.samePosition hp' (get_replay_of_perm h h' hperm) hs).playAll hp hp' further
  have hb := hp.playAll further
  have hb' := hp'.playAll further
  have halike := hsame.resembles hb hb'
  have hid : ∀ color : Option Color, color.map id = color := congrFun Option.map_id
  refine ⟨_, _, rfl, rfl, hsame.stones, hsame.status, hsame.frontier, fun c color => ⟨?_, ?_⟩,
    hsame.entries, hsame.accepts_eq, fun color => ?_, fun last side workers base => ?_,
    fun g => ⟨fun color => ?_, ?_, fun last side => ?_⟩⟩
  · rw [← halike.attackOf_eq c color, hid]
  · rw [← halike.defenceOf_eq c color, hid]
  · rw [← halike.shortlist_eq color, hid]
  · have hbatch := simulation_samePosition.batchValue_eq ⟨hb, hb', hsame⟩
      (show Color.after last = id (Color.after last) from rfl) side workers base
    rwa [hid] at hbatch
  · rw [← halike.sample_eq color, hid]
  · rw [halike.sampleUniform_eq]
  · have hvalue := simulation_samePosition.playOutValue_eq ⟨hb, hb', hsame⟩
      (show Color.after last = id (Color.after last) from rfl) side g
    rwa [hid] at hvalue

/-- Three stones in two orders, and the same answer of white: the histories differ, and nothing
that the ranking or a playout could tell does. -/
theorem order_irrelevant_threeStones :
    ∃ b b', b = (replay [⟨⟨180⟩, .black⟩, ⟨⟨0⟩, .white⟩, ⟨⟨181⟩, .black⟩]).playAll
        [⟨⟨182⟩, .white⟩] ∧
      b' = (replay [⟨⟨181⟩, .black⟩, ⟨⟨0⟩, .white⟩, ⟨⟨180⟩, .black⟩]).playAll
        [⟨⟨182⟩, .white⟩] ∧
      b'.moves ≠ b.moves ∧ b'.stones = b.stones ∧ b'.frontier = b.frontier ∧
      (∀ color, b'.shortlist color = b.shortlist color) ∧
      ∀ (g : Xoshiro) last side, b'.playOutValue last side g = b.playOutValue last side g := by
  obtain ⟨b, b', rfl, rfl, hstones, -, hfrontier, -, -, -, hlist, -, hdraws⟩ :=
    @order_irrelevant [⟨⟨180⟩, .black⟩, ⟨⟨0⟩, .white⟩, ⟨⟨181⟩, .black⟩]
      [⟨⟨181⟩, .black⟩, ⟨⟨0⟩, .white⟩, ⟨⟨180⟩, .black⟩]
      (by decide +kernel) (by decide +kernel) (by decide) (by decide +kernel) [⟨⟨182⟩, .white⟩]
  refine ⟨_, _, rfl, rfl, ?_, hstones, hfrontier, hlist, fun g => (hdraws g).2.2⟩
  decide +kernel

end Board

end FiveInRow
