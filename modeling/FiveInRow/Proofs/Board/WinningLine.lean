import Mathlib.Tactic
import FiveInRow.Board.WinningLine
import FiveInRow.Proofs.Board.Outcome

/-!
The line that a won game shows is the run that decided it. The game is decided by the words of the
lines, the line is found by walking over cells; both agree because the winner's last stone is part
of every row of five.

* `WholeRun`: cells in a row with stones of one colour, which neither end continues;
* `WholeRun.le_length`: no row through one of its cells is longer;
* `Cell.takeWhile_ray`, `Board.runFrom_spec`: a walk from a cell as long as there are stones;
* `Board.exists_wholeRun`: both walks together are the whole run through the cell;
* `Board.Played.exists_row_of_win`: the last stone of a won game is in a row of five;
* `Board.Played.winningLine?_of_win`: so the search over the directions finds one;
* `Board.winningLine_exact`: what the line of a won game is.
-/

namespace FiveInRow

/-- The cells of a list follow one another along a direction from `start` on and hold stones of a
colour, and the cells next to both ends do not. -/
structure WholeRun (o : Cell → Option Color) (color : Color) (start : Cell) (d : Direction)
    (run : List Cell) : Prop where
  cells : ∀ i < run.length, start.offset d.step i = run[i]?
  stones : ∀ e ∈ run, o e = some color
  before : ∀ e, start.offset d.step (-1) = some e → o e ≠ some color
  after : ∀ e, start.offset d.step run.length = some e → o e ≠ some color

namespace WholeRun

variable {o : Cell → Option Color} {color : Color} {start c : Cell} {d : Direction}
  {run : List Cell}

/-- The bits of the cells grow by one along the run. -/
lemma map_bit (h : WholeRun o color start d run) :
    run.map d.bit = List.range' (d.bit start) run.length := by
  refine List.ext_getElem (by simp) fun i hi _ => ?_
  rw [List.length_map] at hi
  have hcell := h.cells i hi
  rw [List.getElem?_eq_getElem hi] at hcell
  have hbit := (Direction.offset_eq_some_iff.mp hcell).2
  rw [List.getElem_map, List.getElem_range']
  omega

/-- A whole run is a row of stones. -/
lemma row (h : WholeRun o color start d run) : Row o color start d run.length := by
  intro i hi
  rw [h.cells i hi, List.getElem?_eq_getElem hi]
  exact ⟨_, rfl, h.stones _ (List.getElem_mem hi)⟩

/-- **A whole run is the longest row** along its direction through any of its cells. -/
lemma le_length {first : Cell} {i j n : ℕ} (h : WholeRun o color start d run)
    (hi : start.offset d.step i = some c) (hilt : i < run.length) (hrow : Row o color first d n)
    (hj : first.offset d.step j = some c) (hjlt : j < n) : n ≤ run.length := by
  have hshift : ∀ m : ℤ, start.offset d.step m = first.offset d.step (m + (j - i)) := by
    intro m
    have hstart := Cell.offset_offset hi (m - i)
    rw [Cell.offset_offset hj, add_sub_cancel] at hstart
    rw [← hstart]
    congr 1
    ring
  by_contra! hlong
  -- the row would go on beyond one of the ends
  rcases Nat.lt_or_ge i j with hij | hij
  · obtain ⟨e, he, hstone⟩ := hrow (j - i - 1) (by omega)
    refine h.before e ?_ hstone
    rw [hshift, ← he]
    congr 1
    omega
  · obtain ⟨e, he, hstone⟩ := hrow (run.length + j - i) (by omega)
    refine h.after e ?_ hstone
    rw [hshift, ← he]
    congr 1
    omega

end WholeRun

/-! ### Walking over stones -/

/-- No walk along a line is longer than the board is wide. -/
lemma Direction.natAbs_lt_of_offset {c e : Cell} {d : Direction} {n : ℤ}
    (h : c.offset d.step n = some e) : n.natAbs < 19 := by
  have hbit := (offset_eq_some_iff.mp h).2
  have hc := d.bit_lt c
  have he := d.bit_lt e
  omega

/-- The beginning of a ray with a property: it is made of the walks of length `1, 2, …`, all of
which end on cells with the property, and the next one does not. -/
lemma Cell.takeWhile_ray (p : Cell → Bool) (c : Cell) (step : ℤ × ℤ) (n : ℕ) :
    ((c.ray step n).takeWhile p).length ≤ n ∧
      (∀ k < ((c.ray step n).takeWhile p).length, ∃ e, c.offset step (k + 1) = some e ∧
        ((c.ray step n).takeWhile p)[k]? = some e ∧ p e = true) ∧
      (((c.ray step n).takeWhile p).length < n →
        ∀ e, c.offset step (((c.ray step n).takeWhile p).length + 1) = some e → p e = false) := by
  induction n generalizing c with
  | zero =>
      exact ⟨le_rfl, fun k hk => absurd hk k.not_lt_zero, fun hlt => absurd hlt (Nat.lt_irrefl 0)⟩
  | succ n ih =>
      rw [Cell.ray]
      cases hc : c.offset step 1 with
      | none =>
          refine ⟨Nat.zero_le _, fun k hk => absurd hk k.not_lt_zero, fun _ e he => ?_⟩
          rw [List.takeWhile_nil, List.length_nil, Nat.cast_zero, zero_add, hc] at he
          cases he
      | some a =>
          dsimp only
          rw [List.takeWhile_cons]
          cases hp : p a with
          | false =>
              refine ⟨Nat.zero_le _, fun k hk => absurd hk k.not_lt_zero, fun _ e he => ?_⟩
              rw [if_neg Bool.false_ne_true, List.length_nil, Nat.cast_zero, zero_add, hc] at he
              rwa [← Option.some.inj he]
          | true =>
              obtain ⟨hle, hcells, hend⟩ := ih a
              rw [if_pos rfl]
              refine ⟨Nat.succ_le_succ hle, fun k hk => ?_, fun hlt e he => ?_⟩
              · cases k with
                | zero => exact ⟨a, by rwa [Nat.cast_zero, zero_add], rfl, hp⟩
                | succ k =>
                    obtain ⟨e, he, hget, hpe⟩ := hcells k (Nat.lt_of_succ_lt_succ hk)
                    refine ⟨e, ?_, hget, hpe⟩
                    rw [Cell.offset_offset hc] at he
                    rw [← he]
                    congr 1
                    push_cast
                    ring
              · refine hend (Nat.lt_of_succ_lt_succ hlt) e ?_
                rw [Cell.offset_offset hc, ← he]
                congr 1
                rw [List.length_cons]
                push_cast
                ring

namespace Board

variable {b : Board} {c : Cell} {color : Color} {d : Direction}

/-- **The stones that follow a cell** along a step are the walks of length `1, 2, …` that end on
stones of the colour; the next walk does not end on one. -/
lemma runFrom_spec (b : Board) (color : Color) {step : ℤ × ℤ}
    (hshort : ∀ n : ℕ, ∀ e, c.offset step n = some e → n < 19) :
    (∀ k < (b.runFrom color c step).length, ∃ e, c.offset step (k + 1) = some e ∧
        (b.runFrom color c step)[k]? = some e) ∧
      ∀ e, c.offset step ((b.runFrom color c step).length + 1) = some e →
        b.get e ≠ some color := by
  obtain ⟨hle, hcells, hend⟩ :=
    Cell.takeWhile_ray (fun e => decide (b.get e = some color)) c step 18
  refine ⟨fun k hk => ?_, fun e he => ?_⟩
  · obtain ⟨e, he, hget, -⟩ := hcells k hk
    exact ⟨e, he, hget⟩
  · have hlt := hshort ((b.runFrom color c step).length + 1) e (by exact_mod_cast he)
    exact of_decide_eq_false (hend (by exact Nat.lt_of_succ_lt_succ hlt) e he)

lemma get_of_mem_runFrom {step : ℤ × ℤ} {e : Cell} (h : e ∈ b.runFrom color c step) :
    b.get e = some color :=
  of_decide_eq_true (List.all_eq_true.mp List.all_takeWhile e h)

lemma length_joined (behind ahead : List Cell) :
    (behind.reverse ++ c :: ahead).length = behind.length + 1 + ahead.length := by
  rw [List.length_append, List.length_reverse, List.length_cons]
  omega

/-- The cells of two walks from a cell, the one against the direction read backwards, follow one
another along the direction. -/
lemma offset_joined {behind ahead : List Cell}
    (hbehind : ∀ k < behind.length, ∃ e, c.offset d.step (-(k + 1)) = some e ∧
      behind[k]? = some e)
    (hahead : ∀ k < ahead.length, ∃ e, c.offset d.step (k + 1) = some e ∧ ahead[k]? = some e) :
    ∀ i < (behind.reverse ++ c :: ahead).length,
      c.offset d.step (i - behind.length) = (behind.reverse ++ c :: ahead)[i]? := by
  intro i hi
  rw [length_joined] at hi
  rcases lt_trichotomy i behind.length with hlt | rfl | hgt
  · obtain ⟨e, he, hget⟩ := hbehind (behind.length - 1 - i) (by omega)
    rw [List.getElem?_append_left (by rwa [List.length_reverse]), List.getElem?_reverse hlt, hget,
      ← he]
    congr 1
    omega
  · rw [sub_self, Cell.offset_zero, List.getElem?_append_right (by rw [List.length_reverse]),
      List.length_reverse, Nat.sub_self]
    rfl
  · obtain ⟨e, he, hget⟩ := hahead (i - behind.length - 1) (by omega)
    rw [List.getElem?_append_right (by rw [List.length_reverse]; omega), List.length_reverse,
      show i - behind.length = i - behind.length - 1 + 1 by omega, List.getElem?_cons_succ, hget,
      ← he]
    congr 1
    omega

/-- **Both walks together are the whole run** through a cell. -/
lemma exists_wholeRun (d : Direction) (hc : b.get c = some color) :
    ∃ start, WholeRun b.get color start d (b.runThrough color c d) ∧
      ∃ i < (b.runThrough color c d).length, start.offset d.step i = some c := by
  have hshort : ∀ n : ℕ, ∀ e, c.offset d.step n = some e → n < 19 := fun n e he =>
    Direction.natAbs_lt_of_offset he
  have hneg : ∀ n : ℤ, c.offset (-d.step.1, -d.step.2) n = c.offset d.step (-n) := fun n =>
    Cell.offset_neg c d.step.1 d.step.2 n
  have hshort' : ∀ n : ℕ, ∀ e, c.offset (-d.step.1, -d.step.2) n = some e → n < 19 := by
    intro n e he
    rw [hneg] at he
    have := Direction.natAbs_lt_of_offset he
    omega
  obtain ⟨hahead, hafter⟩ := b.runFrom_spec color hshort
  obtain ⟨hbehind, hbefore⟩ := b.runFrom_spec color hshort'
  have hrun : b.runThrough color c d =
      (b.runFrom color c (-d.step.1, -d.step.2)).reverse ++ c :: b.runFrom color c d.step := rfl
  have hahead' : ∀ e ∈ b.runFrom color c d.step, b.get e = some color := fun e =>
    get_of_mem_runFrom
  have hbehind' : ∀ e ∈ b.runFrom color c (-d.step.1, -d.step.2), b.get e = some color := fun e =>
    get_of_mem_runFrom
  rw [hrun]
  generalize b.runFrom color c (-d.step.1, -d.step.2) = behind at *
  generalize b.runFrom color c d.step = ahead at *
  simp only [hneg] at hbehind
  have hcells := offset_joined hbehind hahead
  have hlength := length_joined (c := c) behind ahead
  obtain ⟨start, hstart⟩ : ∃ start, c.offset d.step (-behind.length) = some start := by
    have hfirst := hcells 0 (by omega)
    rw [List.getElem?_eq_getElem (by omega), Nat.cast_zero, zero_sub] at hfirst
    exact ⟨_, hfirst⟩
  have hwalk : ∀ n : ℤ, start.offset d.step n = c.offset d.step (n - behind.length) := by
    intro n
    rw [Cell.offset_offset hstart]
    congr 1
    ring
  refine ⟨start, ⟨fun i hi => ?_, fun e he => ?_, fun e he => ?_, fun e he => ?_⟩,
    behind.length, by omega, ?_⟩
  · rw [hwalk, hcells i hi]
  · rcases List.mem_append.mp he with he | he
    · exact hbehind' e (List.mem_reverse.mp he)
    · rcases List.mem_cons.mp he with rfl | he
      · exact hc
      · exact hahead' e he
  · refine hbefore e ?_
    rw [hwalk] at he
    rw [hneg, ← he]
    congr 1
    ring
  · refine hafter e ?_
    rw [hwalk, hlength] at he
    rw [← he]
    congr 1
    push_cast
    ring
  · rw [hwalk, sub_self, Cell.offset_zero]

/-! ### The decisive run -/

/-- **The last stone of a won game is in a row of five**, and it is the winner's. -/
lemma Played.exists_row_of_win (h : Played b) (hs : b.status = .win color) :
    ∃ c earlier, b.moves = ⟨c, color⟩ :: earlier ∧ b.get c = some color ∧
      ∃ start d, Row b.get color start d 5 ∧ ∃ j < 5, start.offset d.step (j : ℕ) = some c := by
  have hwin := h.judged.win_iff color
  cases h with
  | new => cases hs
  | @place before c other hb ha =>
      obtain ⟨hrun, hc⟩ := accepts_iff.mp ha
      have hno := hb.judged.not_hasFive hrun
      have hfive := hwin.mp hs
      rw [get_place] at hfive
      have hother : color = other := by
        by_contra hne
        exact hno color (hasFive_update_other hc hne hfive)
      subst hother
      obtain ⟨d, hd⟩ := (hasFive_update_iff hc (hno color)).mp hfive
      obtain ⟨start, hrow, j, hj, hjc⟩ := (row_update_iff hc).mpr hd
      rw [← get_place] at hrow
      exact ⟨c, before.moves, moves_place before c color, by rw [get_place, Function.update_self],
        start, d, hrow, j, hj, hjc⟩

end Board

/-- The first direction for which there is something to find. -/
lemma Direction.findSome?_all {α : Type} {f : Direction → Option α} {x : α}
    (h : all.findSome? f = some x) :
    ∃ d, f d = some x ∧ ∀ d', d'.number < d.number → f d' = none := by
  have hsorted : all.Pairwise fun d e => d.number < e.number := by decide
  obtain ⟨before, d, behind, hall, hd, hnone⟩ := List.findSome?_eq_some_iff.mp h
  refine ⟨d, hd, fun d' hlt => hnone d' ?_⟩
  have hmem := mem_all d'
  rw [hall] at hmem hsorted
  rcases List.mem_append.mp hmem with hmem | hmem
  · exact hmem
  · have hle : d.number ≤ d'.number := by
      rcases List.mem_cons.mp hmem with rfl | hmem
      · exact le_rfl
      · exact ((List.pairwise_cons.mp (List.pairwise_append.mp hsorted).2.1).1 d' hmem).le
    exact absurd hlt (not_lt.mpr hle)

namespace Board

variable {b : Board} {color : Color}

/-- The line of a won game is the first run of five or more through the last move. -/
lemma Played.winningLine?_of_win (h : Played b) (hs : b.status = .win color) :
    ∃ last d, b.winningLine? = some (b.runThrough color last d) ∧ b.last? = some ⟨last, color⟩ ∧
      b.get last = some color ∧ 5 ≤ (b.runThrough color last d).length ∧
      ∀ d', d'.number < d.number → (b.runThrough color last d').length < 5 := by
  obtain ⟨c, earlier, hmoves, hc, start, d₀, hrow, j, hj, hjc⟩ := h.exists_row_of_win hs
  have hlong : 5 ≤ (b.runThrough color c d₀).length := by
    obtain ⟨start', hwhole, i, hi, hic⟩ := exists_wholeRun d₀ hc
    exact hwhole.le_length hic hi hrow hjc hj
  have hline : b.winningLine? = Direction.all.findSome? fun d =>
      if 5 ≤ (b.runThrough color c d).length then some (b.runThrough color c d) else none := by
    have hfind : b.moves.find? (·.color = color) = some ⟨c, color⟩ := by
      rw [hmoves]
      exact List.find?_cons_of_pos (decide_eq_true rfl)
    rw [winningLine?, hs]
    show ((b.moves.find? (·.color = color)).bind fun last => _) = _
    rw [hfind]
    rfl
  have hsome : b.winningLine? ≠ none := by
    rw [hline, Ne, List.findSome?_eq_none_iff]
    intro hnone
    have hd := hnone d₀ (Direction.mem_all d₀)
    rw [if_pos hlong] at hd
    cases hd
  obtain ⟨line, hfound⟩ := Option.ne_none_iff_exists'.mp hsome
  obtain ⟨d, hd, hnone⟩ := Direction.findSome?_all (hline.symm.trans hfound)
  split_ifs at hd with hfive
  rw [← Option.some.inj hd] at hfound
  refine ⟨c, d, hfound, by rw [last?, hmoves]; rfl, hc, hfive, fun d' hlt => ?_⟩
  have hshort := hnone d' hlt
  split_ifs at hshort with hd'
  exact Nat.lt_of_not_le hd'

/-- **The line of a won game is the run that decided it.** A line is shown exactly if the game is
won. Its cells, five or more, follow one another along a direction with growing bits; they hold
stones of the winner, the last move among them, and neither end goes on. In no direction before this
one is the last move part of five in a row. -/
theorem winningLine_exact (h : Reachable b) :
    (b.winningLine?.isSome = true ↔ ∃ color, b.status = .win color) ∧
    ∀ color, b.status = .win color → ∃ line last d start,
      b.winningLine? = some line ∧ b.last? = some ⟨last, color⟩ ∧
      5 ≤ line.length ∧ last ∈ line ∧ WholeRun b.get color start d line ∧
      line.map d.bit = List.range' (d.bit start) line.length ∧
      ∀ d', d'.number < d.number → ¬ ∃ first n, 5 ≤ n ∧ Row b.get color first d' n ∧
        ∃ j < n, first.offset d'.step (j : ℕ) = some last := by
  have hp := h.played
  refine ⟨⟨fun hline => ?_, ?_⟩, fun color hs => ?_⟩
  · cases hs : b.status with
    | win color => exact ⟨color, rfl⟩
    | inProgress =>
        rw [winningLine?, hs] at hline
        cases hline
    | draw =>
        rw [winningLine?, hs] at hline
        cases hline
  · rintro ⟨color, hs⟩
    obtain ⟨last, d, hline, -⟩ := hp.winningLine?_of_win hs
    rw [hline]
    rfl
  · obtain ⟨last, d, hline, hlast, hc, hfive, hfirst⟩ := hp.winningLine?_of_win hs
    obtain ⟨start, hwhole, i, hi, hic⟩ := exists_wholeRun d hc
    refine ⟨_, last, d, start, hline, hlast, hfive, ?_, hwhole, hwhole.map_bit, fun d' hlt => ?_⟩
    · rw [hwhole.cells i hi] at hic
      exact List.mem_of_getElem? hic
    · rintro ⟨first, n, hn, hrow, j, hj, hjc⟩
      obtain ⟨start', hwhole', i', hi', hic'⟩ := exists_wholeRun d' hc
      have hle := hwhole'.le_length hic' hi' hrow hjc hj
      exact absurd (hfirst d' hlt) (by omega)

/-- Black alone plays on a diagonal; the last move joins three stones to three others. -/
def overline : List Call :=
  ([60, 80, 100, 140, 160, 180, 120] : List (Fin 361)).map fun i => .play ⟨i⟩ (some .black)

/-- The line of that game is all seven stones, with the last move in the middle. -/
theorem winningLine_exact_overline :
    ∃ b, b = overline.foldl after empty ∧ b.last? = some ⟨⟨120⟩, .black⟩ ∧
      b.winningLine? = some [⟨60⟩, ⟨80⟩, ⟨100⟩, ⟨120⟩, ⟨140⟩, ⟨160⟩, ⟨180⟩] ∧
      ∃ d start, WholeRun b.get .black start d
        [⟨60⟩, ⟨80⟩, ⟨100⟩, ⟨120⟩, ⟨140⟩, ⟨160⟩, ⟨180⟩] := by
  have hr : Reachable (overline.foldl after empty) := Reachable.new.calls overline
  have hs : (overline.foldl after empty).status = .win .black := by decide +kernel
  have hlast : (overline.foldl after empty).last? = some ⟨⟨120⟩, .black⟩ := by decide +kernel
  have hline : (overline.foldl after empty).winningLine? =
      some [⟨60⟩, ⟨80⟩, ⟨100⟩, ⟨120⟩, ⟨140⟩, ⟨160⟩, ⟨180⟩] := by decide +kernel
  obtain ⟨-, hwon⟩ := winningLine_exact hr
  obtain ⟨line, last, d, start, hshown, -, -, -, hwhole, -⟩ := hwon .black hs
  obtain rfl := Option.some.inj (hline.symm.trans hshown)
  exact ⟨_, rfl, hlast, hline, d, start, hwhole⟩

end Board

end FiveInRow
