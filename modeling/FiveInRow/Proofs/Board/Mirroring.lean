import Mathlib.Tactic
import FiveInRow.Proofs.Board.Frontier

/-!
Defence records and their links mirror each other, also when the game has ended. A cell pays what
it owes, an entry for a link, so as many links lead from an anchor to a record as the record has
entries of that anchor; and an entry says how its pattern leads from the anchor to the record.

* `Threats.Settled.count_linksOf`: links and entries of a settled cell are counted alike;
* `Board.Played.exists_settled`: the cells of a played board are settled, for the stones that were
  there when the threats were last evaluated;
* `PatternRef.ofRaw_raw`: a packed reference is unpacked to itself;
* `Threats.leads_of_mem_due`: what a cell owes leads from it to the record;
* `Board.records_mirrored`: links, entries and priorities agree on every board.
-/

namespace FiveInRow

/-! ### Packed references -/

/-- **A packed reference is unpacked to itself.** -/
lemma PatternRef.ofRaw_raw (r : PatternRef) : ofRaw r.raw = r := by
  have hid := r.id.isLt
  have hslot := r.slot.isLt
  have hdirection := r.direction.number.isLt
  have hfamily := r.family.isLt
  have hraw : r.raw = r.id.val + r.slot.val <<< 7 + r.direction.number.val <<< 9 +
      r.family.val <<< 16 := rfl
  rw [Nat.shiftLeft_eq, Nat.shiftLeft_eq, Nat.shiftLeft_eq] at hraw
  have hid' : Fin.ofNat 128 r.raw = r.id := Fin.ext (by
    show r.raw % 128 = r.id.val
    omega)
  have hslot' : Fin.ofNat 4 (r.raw >>> 7) = r.slot := Fin.ext (by
    show r.raw >>> 7 % 4 = r.slot.val
    rw [Nat.shiftRight_eq_div_pow]
    omega)
  have hdirection' : Fin.ofNat 4 (r.raw >>> 9) = r.direction.number := Fin.ext (by
    show r.raw >>> 9 % 4 = r.direction.number.val
    rw [Nat.shiftRight_eq_div_pow]
    omega)
  have hfamily' : Fin.ofNat 64 (r.raw >>> 16) = r.family := Fin.ext (by
    show r.raw >>> 16 % 64 = r.family.val
    rw [Nat.shiftRight_eq_div_pow]
    omega)
  rw [ofRaw, Direction.ofIndex, hid', hslot', hdirection', hfamily', Direction.ofNumber_number]

namespace Threats

variable {s : Stones} {t : Threats} {a : Cell}

/-- **As many links lead from a settled cell to a record as the record has entries of the cell.** -/
lemma Settled.count_linksOf (h : Settled s t a) (k : AnchorLink) :
    (t.linksOf a).count k = (t.entriesOn k).countP (·.anchor = a) := by
  calc (t.linksOf a).count k
      = ((due s a).map (·.1)).count k := by rw [h.links, List.count_reverse]
    _ = (due s a).countP (·.1 = k) := by
        rw [List.count, List.countP_map]
        exact List.countP_congr fun x _ => by simp
    _ = (((due s a).filter (·.1 = k)).map (·.2)).length := by
        rw [List.length_map, List.countP_eq_length_filter]
    _ = (t.entriesOn k).countP (·.anchor = a) := by
        rw [← h.entries, List.countP_eq_length_filter]

/-- What a cell owes leads from the cell to the record, along the pattern that is referred to. -/
lemma leads_of_mem_due {k : AnchorLink} {e : DefenceEntry} (h : (k, e) ∈ due s a) :
    ∃ p ∈ patterns, ∃ n, e.pattern.pattern? = some p ∧
      p.defence[e.pattern.slot.val]? = some n ∧
      a.offset e.pattern.direction.step n = some k.cell := by
  obtain ⟨-, d, p, hp, he⟩ := mem_due.mp h
  obtain ⟨i, n, hi, hn, rfl⟩ := mem_entriesOf.mp he
  have hmem := Stones.mem_patterns hp
  have hi4 : i < 4 := by
    have hlen := (Pattern.defence_nodup hmem).2
    obtain ⟨hlt, -⟩ := List.getElem?_eq_some_iff.mp hi
    omega
  refine ⟨p, hmem, n, Pattern.pattern?_ref hmem _ _, ?_, hn⟩
  show p.defence[i % 4]? = some n
  rwa [Nat.mod_eq_of_lt hi4]

end Threats

namespace Board

variable {b : Board}

/-- The cells of a played board are settled, for the stones that were there when the threats were
last evaluated: the move that ends a game evaluates nothing. -/
lemma Played.exists_settled (h : Played b) : ∃ s, ∀ a, Threats.Settled s b.threats a := by
  by_cases hs : b.status = .inProgress
  · exact ⟨b.stones, (h.evaluated hs).2⟩
  · cases h with
    | new => exact absurd rfl hs
    | @place before c color hb ha =>
        obtain ⟨hrun, -⟩ := accepts_iff.mp ha
        rw [threats_place_of_over (by rwa [hrun])]
        exact ⟨before.stones, (hb.evaluated hrun).2⟩

/-- **Records and links mirror each other** on every board that calls lead to, finished or not. As
many links lead from an anchor to a record as the record has entries of that anchor; the priority of
a record is the worth of its entries; and the packed reference of an entry is unpacked to a pattern
of the table, a defence cell of it and a direction, which lead from the anchor to the cell of the
record. -/
theorem records_mirrored (h : Reachable b) (cell : Cell) (side : Color) :
    (∀ a, (b.threats.linksOf a).count ⟨cell, side⟩ =
      (b.threats.recordOf cell side).entries.countP (·.anchor = a)) ∧
    (b.threats.recordOf cell side).priority =
      DefenceRecord.worth (b.threats.recordOf cell side).entries ∧
    ∀ e ∈ (b.threats.recordOf cell side).entries,
      let r := PatternRef.ofRaw e.pattern.raw
      ∃ p ∈ patterns, ∃ n, r.pattern? = some p ∧ p.defence[r.slot.val]? = some n ∧
        e.anchor.offset r.direction.step n = some cell := by
  have hp := h.played
  obtain ⟨s, hsettled⟩ := hp.exists_settled
  refine ⟨fun a => (hsettled a).count_linksOf _, hp.wellKept.weighed cell side, fun e he => ?_⟩
  dsimp only
  rw [PatternRef.ofRaw_raw]
  exact Threats.leads_of_mem_due ((Threats.mem_entriesOn hsettled (k := ⟨cell, side⟩)).mp he)

/-- Black has completed the first five cells of the first row: what white could have stopped on the
fifth still mirrors the links of its anchors. -/
theorem records_mirrored_rowGame :
    ∃ b, b = rowGame.foldl after empty ∧ b.status = .win .black ∧
      (∀ a, (b.threats.linksOf a).count ⟨⟨4⟩, .white⟩ =
        (b.threats.recordOf ⟨4⟩ .white).entries.countP (·.anchor = a)) ∧
      (b.threats.recordOf ⟨4⟩ .white).priority =
        DefenceRecord.worth (b.threats.recordOf ⟨4⟩ .white).entries := by
  have hr : Reachable (rowGame.foldl after empty) := Reachable.new.calls rowGame
  obtain ⟨hcount, hpriority, -⟩ := records_mirrored hr ⟨4⟩ .white
  exact ⟨_, rfl, by decide +kernel, hcount, hpriority⟩

end Board

end FiveInRow
