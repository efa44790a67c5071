import Mathlib.Tactic
import FiveInRow.Proofs.Board.Caches
import FiveInRow.Proofs.Grid.CellSets

/-!
The frontier of a running game: the empty cells next to a stone, or the middle of the board when
there is none. A finished game keeps the frontier of the position before the last move, but for the
cell of that move.

* `Cell.Adjacent`, `Cell.adjacent_iff_distance`: neighbouring cells, by steps and by distance;
* `Board.mem_joining`: a cell that joins the frontier is empty and next to a stone;
* `Board.Played.frontier_iff`: the frontier of a played board that is not decided;
* `Board.Played.status_first`: the first move of a game never ends it;
* `Board.frontier_exact`: the frontier of every board that calls lead to.
-/

namespace FiveInRow

/-- Neighbouring cells: one step apart on a line. -/
def Cell.Adjacent (a c : Cell) : Prop :=
  ∃ d : Direction, a.offset d.step 1 = some c ∨ a.offset d.step (-1) = some c

/-- The steps of the eight rays. -/
def Direction.IsRayStep (step : ℤ × ℤ) : Prop :=
  ∃ d : Direction, step = d.step ∨ step = (-d.step.1, -d.step.2)

lemma Cell.adjacent_of_offset {a c : Cell} {step : ℤ × ℤ} (hstep : Direction.IsRayStep step)
    (h : a.offset step 1 = some c) : a.Adjacent c := by
  obtain ⟨d, rfl | rfl⟩ := hstep
  · exact ⟨d, .inl h⟩
  · rw [Cell.offset_neg] at h
    exact ⟨d, .inr h⟩

/-- Neighbours are one move of a king apart. -/
lemma Cell.adjacent_iff_distance {a c : Cell} : a.Adjacent c ↔ a.distance c = 1 := by
  rw [Cell.Adjacent, Cell.distance]
  simp only [Cell.offset_eq_some_iff]
  constructor
  · rintro ⟨d, h⟩
    cases d <;> simp only [Direction.step] at h <;> omega
  · -- the direction is told by which coordinates differ, and whether in the same sense
    intro h
    by_cases hy : (c.y : ℤ) = a.y
    · exact ⟨.horizontal, by simp only [Direction.step]; omega⟩
    by_cases hx : (c.x : ℤ) = a.x
    · exact ⟨.vertical, by simp only [Direction.step]; omega⟩
    by_cases hxy : (c.x : ℤ) - a.x = c.y - a.y
    · exact ⟨.diagonal, by simp only [Direction.step]; omega⟩
    · exact ⟨.antiDiagonal, by simp only [Direction.step]; omega⟩

/-- Along a ray every cell is next to the one before it. -/
lemma Cell.isChain_ray {step : ℤ × ℤ} (hstep : Direction.IsRayStep step) (c : Cell) (n : ℕ) :
    (c :: c.ray step n).IsChain Cell.Adjacent := by
  induction n generalizing c with
  | zero => exact .singleton c
  | succ n ih =>
      rw [Cell.ray]
      cases hc : c.offset step 1 with
      | none => exact .singleton c
      | some d => exact .cons_cons (Cell.adjacent_of_offset hstep hc) (ih d)

namespace Board

variable {s : Stones} {b : Board} {c e : Cell}

lemma mem_rays_iff_step {ray : List Cell} :
    ray ∈ rays c ↔ ∃ step, Direction.IsRayStep step ∧ ray = c.ray step 7 := by
  rw [mem_rays]
  constructor
  · rintro ⟨d, hd | hd⟩
    · exact ⟨_, ⟨d, .inl rfl⟩, hd⟩
    · exact ⟨_, ⟨d, .inr rfl⟩, hd⟩
  · rintro ⟨step, ⟨d, rfl | rfl⟩, hd⟩
    · exact ⟨d, .inl hd⟩
    · exact ⟨d, .inr hd⟩

/-- The first empty cell behind a stone is next to a stone. -/
lemma exists_adjacent_of_find? {y : Cell} {far : List Cell}
    (hchain : (y :: far).IsChain Cell.Adjacent) (hy : s.get y ≠ none)
    (he : far.find? s.isEmpty = some e) :
    ∃ q, s.get q ≠ none ∧ q.Adjacent e := by
  induction far generalizing y with
  | nil => cases he
  | cons z far ih =>
      rw [List.isChain_cons_cons] at hchain
      rw [List.find?_cons] at he
      cases hz : s.isEmpty z with
      | true =>
          rw [hz] at he
          obtain rfl : z = e := Option.some.inj he
          exact ⟨y, hy, hchain.1⟩
      | false =>
          rw [hz] at he
          refine ih hchain.2 (fun hn => ?_) he
          rw [Stones.isEmpty_iff.mpr hn] at hz
          cases hz

/-- A cell that joins the frontier is empty and next to a stone. -/
lemma mem_joining {ray : List Cell} (hray : ray ∈ rays c) (hc : s.get c ≠ none)
    (he : e ∈ joining s ray) : s.get e = none ∧ ∃ q, s.get q ≠ none ∧ q.Adjacent e := by
  obtain ⟨step, hstep, rfl⟩ := mem_rays_iff_step.mp hray
  have hchain := Cell.isChain_ray hstep c 7
  rw [joining, List.mem_append] at he
  rcases he with he | he
  · rw [List.mem_filter] at he
    refine ⟨Stones.isEmpty_iff.mp he.2, c, hc, Cell.adjacent_of_offset hstep ?_⟩
    obtain ⟨k, hk, hoff⟩ := (Cell.mem_take_ray (by omega)).mp he.1
    obtain rfl : k = 0 := by omega
    simpa using hoff
  · rw [Option.mem_toList] at he
    match hr : c.ray step 7, hchain, he with
    | x :: y :: far, hchain, he =>
        rw [behind?] at he
        split_ifs at he with hy
        have hfind : far.find? s.isEmpty = some e := he
        refine ⟨Stones.isEmpty_iff.mp (List.find?_some hfind), ?_⟩
        rw [List.isChain_cons_cons, List.isChain_cons_cons] at hchain
        refine exists_adjacent_of_find? hchain.2.2 (fun hn => hy ?_) hfind
        exact Stones.isEmpty_iff.mpr hn

/-- Every empty neighbour joins the frontier. -/
lemma exists_mem_joining (he : s.get e = none) (hadj : c.Adjacent e) :
    ∃ ray ∈ rays c, e ∈ joining s ray := by
  have hfirst : ∀ step, Direction.IsRayStep step → c.offset step 1 = some e →
      ∃ ray ∈ rays c, e ∈ joining s ray := by
    intro step hstep hoff
    refine ⟨c.ray step 7, mem_rays_iff_step.mpr ⟨step, hstep, rfl⟩, ?_⟩
    refine List.mem_append_left _ (List.mem_filter.mpr ⟨?_, Stones.isEmpty_iff.mpr he⟩)
    rw [Cell.mem_take_ray (by omega)]
    exact ⟨0, by omega, by simpa using hoff⟩
  obtain ⟨d, hoff | hoff⟩ := hadj
  · exact hfirst _ ⟨d, .inl rfl⟩ hoff
  · refine hfirst _ ⟨d, .inr rfl⟩ ?_
    rw [Cell.offset_neg]
    exact hoff

lemma contains_widen (f : CellSet) :
    (widen s f c).contains e = true ↔
      (∃ ray ∈ rays c, e ∈ joining s ray) ∨ f.contains e = true := by
  rw [widen, CellSet.contains_foldl_put, List.mem_flatMap]

lemma Played.eq_empty_of_moves (h : Played b) (hm : b.moves = []) : b = empty := by
  cases h with
  | new => rfl
  | place color _ _ =>
      rw [moves_place] at hm
      cases hm

/-- **The frontier is exact while the game runs**: the middle of the board before the first move,
and the empty cells next to a stone afterwards. -/
lemma Played.frontier_iff (h : Played b) (hs : b.status = .inProgress) (e : Cell) :
    b.frontier.contains e = true ↔
      if b.moves = [] then e = Cell.center
      else b.get e = none ∧ ∃ q, b.get q ≠ none ∧ q.Adjacent e := by
  induction h generalizing e with
  | new =>
      show (CellSet.empty.put Cell.center true).contains e = true ↔ _
      rw [CellSet.contains_put, if_pos (show empty.moves = [] from rfl)]
      by_cases he : e = Cell.center <;> simp [he]
  | @place b c color hb ha ih =>
      obtain ⟨hrun, hc⟩ := accepts_iff.mp ha
      have ih := ih hrun
      have hstone := b.get_put_stones c color
      have hself : (b.place c color).get c = some color := by
        rw [get_place, Function.update_self]
      have hkeep : ∀ q, q ≠ c → (b.place c color).get q = b.get q := by
        intro q hq
        rw [get_place, Function.update_of_ne hq]
      rw [(place_running hs).2, contains_widen, moves_place, if_neg (List.cons_ne_nil _ _)]
      constructor
      · rintro (⟨ray, hray, he⟩ | he)
        · have hcs : (b.stones.put c color).get c ≠ none := by
            rw [hstone, hself]
            exact Option.some_ne_none color
          have := mem_joining hray hcs he
          rwa [hstone] at this
        · split_ifs at he with hm
          · rw [CellSet.contains_empty] at he
            cases he
          · rw [List.isEmpty_iff] at hm
            rw [CellSet.contains_put] at he
            split_ifs at he with hec
            rw [ih, if_neg hm] at he
            obtain ⟨hnone, q, hq, hadj⟩ := he
            have hqc : q ≠ c := by
              rintro rfl
              exact hq hc
            exact ⟨by rw [hkeep e hec, hnone], q, by rwa [hkeep q hqc], hadj⟩
      · rintro ⟨hnone, q, hq, hadj⟩
        have hec : e ≠ c := by
          rintro rfl
          rw [hself] at hnone
          cases hnone
        by_cases hqc : q = c
        · subst hqc
          exact .inl (exists_mem_joining (by rw [hstone, hnone]) hadj)
        · rw [hkeep q hqc] at hq
          have hm : b.moves ≠ [] := by
            intro hm
            rw [hb.eq_empty_of_moves hm] at hq
            exact hq (Stones.get_empty q)
          rw [if_neg (by rwa [List.isEmpty_iff]), CellSet.contains_put, if_neg hec, ih, if_neg hm]
          exact .inr ⟨by rw [← hkeep e hec, hnone], q, hq, hadj⟩

/-- The cells worth considering are empty. -/
lemma Played.get_of_frontier (h : Played b) (hs : b.status = .inProgress)
    (he : b.frontier.contains e = true) : b.get e = none := by
  rw [h.frontier_iff hs] at he
  split_ifs at he with hm
  · rw [h.eq_empty_of_moves hm]
    exact Stones.get_empty e
  · exact he.1

/-- An empty cell next to a stone is worth considering. -/
lemma Played.mem_frontier (h : Played b) (hs : b.status = .inProgress) (he : b.get e = none)
    {q : Cell} (hq : b.get q ≠ none) (hadj : q.Adjacent e) : b.frontier.contains e = true := by
  rw [h.frontier_iff hs, if_neg]
  · exact ⟨he, q, hq, hadj⟩
  · intro hm
    rw [h.eq_empty_of_moves hm] at hq
    exact hq (Stones.get_empty q)

/-! ### Finished games -/

/-- One stone is no row of five. -/
lemma not_hasFive_place_empty (c : Cell) (color side : Color) :
    ¬ HasFive (empty.place c color).get side := by
  intro hfive
  obtain ⟨start, d, hrow⟩ := hasFive_iff_row.mp hfive
  have honly : ∀ e, (empty.place c color).get e = some side → e = c := by
    intro e he
    by_contra hne
    rw [get_place, Function.update_of_ne hne] at he
    exact absurd he (by rw [show empty.get e = none from Stones.get_empty e]; nofun)
  obtain ⟨e, he, hstone⟩ := hrow 0 (by omega)
  obtain ⟨e', he', hstone'⟩ := hrow 1 (by omega)
  have hbit := (Direction.offset_eq_some_iff.mp he).2
  have hbit' := (Direction.offset_eq_some_iff.mp he').2
  rw [honly e hstone] at hbit
  rw [honly e' hstone'] at hbit'
  omega

/-- **The first move of a game never ends it.** -/
lemma Played.status_first (h : Played b) (hm : b.moves = []) (ha : b.accepts c = true)
    (color : Color) : (b.place c color).status = .inProgress := by
  have hj := (h.place color ha).judged
  have hroom := hj.room
  rw [moves_place, hm, List.length_singleton] at hroom
  rw [h.eq_empty_of_moves hm] at hj hroom ⊢
  refine hj.inProgress_iff.mpr ⟨?_, not_hasFive_place_empty c color⟩
  by_contra hfull
  have hzero : (empty.place c color).room = 0 := Stones.room_eq_zero_iff.mpr (not_exists.mp hfull)
  omega

/-- A move that ends a game leaves the frontier as it was, but for its cell. -/
lemma frontier_place_of_over {color : Color} (hm : b.moves ≠ [])
    (h : (b.place c color).status ≠ b.status) :
    (b.place c color).frontier = b.frontier.put c false := by
  have hkeep : (if b.moves.isEmpty then CellSet.empty else b.frontier.put c false) =
      b.frontier.put c false := if_neg (by rwa [List.isEmpty_iff])
  simp only [place, hkeep] at h ⊢
  split_ifs at h ⊢
  · rfl
  · rfl
  · exact absurd rfl h

/-- A move that ends a game leaves the threats as they were. -/
lemma threats_place_of_over {color : Color} (h : (b.place c color).status ≠ b.status) :
    (b.place c color).threats = b.threats := by
  simp only [place] at h ⊢
  generalize (if b.moves.isEmpty then CellSet.empty else b.frontier.put c false) = frontier at h ⊢
  split_ifs at h ⊢
  · rfl
  · rfl
  · exact absurd rfl h

/-- There is a stone as soon as there is a move. -/
lemma Played.moves_eq_nil_iff (h : Played b) : b.moves = [] ↔ ∀ q, b.get q = none := by
  refine ⟨fun hm => ?_, fun hnone => ?_⟩
  · rw [h.eq_empty_of_moves hm]
    exact Stones.get_empty
  · cases h with
    | new => rfl
    | @place before c color _ _ =>
        have hstone := hnone c
        rw [get_place, Function.update_self] at hstone
        cases hstone

/-- **The frontier is exact**, on every board that calls lead to. While the game runs it holds the
middle of the board alone if there is no stone, and otherwise the empty cells at distance one from
a stone. In a finished game it is the frontier of the position before the last move, without the
cell of that move. -/
theorem frontier_exact (h : Reachable b) :
    (b.status = .inProgress → ∀ e, b.frontier.contains e = true ↔
      ((∀ q, b.get q = none) ∧ e = Cell.center) ∨
      (b.get e = none ∧ ∃ q, b.get q ≠ none ∧ q.distance e = 1)) ∧
    (b.status ≠ .inProgress → ∃ before last, Reachable before ∧ before.status = .inProgress ∧
      b.undo? = some before ∧ b.last? = some last ∧
      ∀ e, b.frontier.contains e = true ↔ before.frontier.contains e = true ∧ e ≠ last.cell) := by
  have hp := h.played
  refine ⟨fun hs e => ?_, fun hs => ?_⟩
  · simp only [hp.frontier_iff hs, ← Cell.adjacent_iff_distance]
    split_ifs with hm
    · have hnone := hp.moves_eq_nil_iff.mp hm
      exact ⟨fun he => .inl ⟨hnone, he⟩, fun he => he.elim (·.2) fun ⟨_, q, hq, _⟩ =>
        absurd (hnone q) hq⟩
    · rw [hp.moves_eq_nil_iff] at hm
      exact ⟨.inr, fun he => he.resolve_left fun ⟨hnone, _⟩ => hm hnone⟩
  · cases hp with
    | new => exact absurd rfl hs
    | @place before c color hb ha =>
        obtain ⟨hrun, -⟩ := accepts_iff.mp ha
        have hm : before.moves ≠ [] := fun hm => hs (hb.status_first hm ha color)
        refine ⟨before, ⟨c, color⟩, hb.reachable, hrun, hb.undo?_place c color,
          last?_place before c color, fun e => ?_⟩
        rw [frontier_place_of_over hm (by rwa [hrun]), CellSet.contains_put]
        by_cases he : e = c <;> simp [he]

/-- Black's row is complete: the frontier is the one of the eight stones before, without the cell of
the ninth. The game of eight stones runs, and its frontier is next to them. -/
theorem frontier_exact_rowGame :
    ∃ b, b = rowGame.foldl after empty ∧ b.status = .win .black ∧
      ∃ before last, Reachable before ∧ before.status = .inProgress ∧
        b.undo? = some before ∧ b.last? = some last ∧
        (∀ e, before.frontier.contains e = true ↔
          ((∀ q, before.get q = none) ∧ e = Cell.center) ∨
          (before.get e = none ∧ ∃ q, before.get q ≠ none ∧ q.distance e = 1)) ∧
        ∀ e, b.frontier.contains e = true ↔ before.frontier.contains e = true ∧ e ≠ last.cell := by
  have hr : Reachable (rowGame.foldl after empty) := Reachable.new.calls rowGame
  have hs : (rowGame.foldl after empty).status = .win .black := by decide +kernel
  obtain ⟨before, last, hbefore, hrun, hundo, hlast, hfrontier⟩ :=
    (frontier_exact hr).2 (by rw [hs]; nofun)
  exact ⟨_, rfl, hs, before, last, hbefore, hrun, hundo, hlast, (frontier_exact hbefore).1 hrun,
    hfrontier⟩

end Board

end FiveInRow
