import Mathlib.Tactic
import FiveInRow.Proofs.Engine.Expansion

/-!
What an engine decides on. The tree follows the board, so what is decided on can be played. And with
enough thinking something is decided on: every update of a running game is one more visit of the
root, so in the end the root has its children, and has seen as many games as any level asks for.

* `Tree.exists_best?`, `Tree.map_cell_candidates`: where there are children there is a best one;
* `Engine.Supplied.exists_decide?`, `Engine.Supplied.exists_decision`: when an engine decides, and
  that enough thinking about a running game leads there;
* `Engine.tree_follows_board`: what it means for the moves of the tree that it is in step with the
  board.
-/

namespace FiveInRow

namespace Tree

variable {t : Tree}

/-- One of several candidates is the best. -/
lemma exists_best? (h : t.candidates ≠ []) : ∃ s, t.best? = some s := by
  obtain ⟨best, rest, hcandidates⟩ := List.exists_cons_of_ne_nil h
  rw [best?, hcandidates, List.foldl_cons]
  dsimp only
  clear hcandidates
  -- once there is a best candidate, there stays one
  induction rest generalizing best with
  | nil => exact ⟨best, rfl⟩
  | cons s rest ih =>
      rw [List.foldl_cons]
      dsimp only
      split_ifs
      · exact ih best
      · exact ih s

/-- The candidates are the moves of the children, in the same order. -/
lemma map_cell_candidates {cells : List Cell} {color : Option Color}
    (h : t.rootNode.children.map (fun j => (t.node j).move) = cells.map fun c => (some c, color)) :
    t.candidates.map (·.cell) = cells := by
  rw [candidates]
  dsimp only
  generalize t.rootNode.children = ids at h
  induction ids generalizing cells with
  | nil =>
      cases cells with
      | nil => rfl
      | cons c cells => cases h
  | cons id ids ih =>
      cases cells with
      | nil => cases h
      | cons c cells =>
          obtain ⟨hmove, hrest⟩ := List.cons.inj h
          have hcell : (t.node id).cell = some c := congrArg Prod.fst hmove
          rw [List.filterMap_cons, stats?, hcell, Option.map_some, List.map_cons, ih hrest]

/-- The best candidate is the move of a child. -/
lemma exists_child_of_best? {s : MoveStats} (h : t.best? = some s) :
    ∃ id ∈ t.rootNode.children, (t.node id).cell = some s.cell := by
  obtain ⟨id, hid, hstats⟩ := List.mem_filterMap.mp (mem_candidates_of_best? h)
  obtain ⟨c, hcell, rfl⟩ := Option.map_eq_some_iff.mp hstats
  exact ⟨id, hid, hcell⟩

end Tree

namespace Engine

variable {e : Engine} {c : Cell}

/-! ### Enough thinking -/

/-- What the engine decides on is the move of a child of the root. -/
lemma exists_child_of_decide? (h : e.decide? = some c) :
    ∃ id ∈ e.tree.rootNode.children, (e.tree.node id).cell = some c := by
  rw [decide?] at h
  split_ifs at h
  obtain ⟨s, hbest, rfl⟩ := Option.map_eq_some_iff.mp h
  exact Tree.exists_child_of_best? hbest

/-- **An engine whose root has seen enough decides** on a cell of the shortlist. A thousand games for
each of at most 361 candidates, times the square of the level, are enough. -/
lemma Supplied.exists_decide? (h : Supplied e) (hp : e.board.Played)
    (hs : e.board.status = .inProgress) (hvisits : e.tree.rootNode.visits ≠ 0)
    (hthreshold : e.config.threshold ≤ e.tree.games)
    (hgames : 361 * 1000 * (e.level * e.level) < e.tree.games) :
    ∃ c ∈ e.board.shortlist (some e.board.sideToMove), e.decide? = some c := by
  have hchildren := h.children_root (h.children_root_ne_nil hs hvisits hthreshold)
  have hcells := Tree.map_cell_candidates hchildren
  have hcount : e.tree.candidateCount =
      (e.board.shortlist (some e.board.sideToMove)).length := by
    have hlength := congrArg List.length hchildren
    rwa [List.length_map, List.length_map] at hlength
  have hsome : 0 < e.tree.candidateCount := by
    rw [hcount]
    exact List.length_pos_of_ne_nil (hp.shortlist_ne_nil hs _)
  have hfew : e.tree.candidateCount ≤ 361 := by
    rw [hcount]
    exact Cell.length_le_all (e.board.shortlist_sublist _)
  have hready : e.tree.isReady e.level = true := by
    have hneeded := Nat.mul_le_mul_right (e.level * e.level) (Nat.mul_le_mul_right 1000 hfew)
    rw [Tree.isReady, Bool.or_eq_true, Bool.and_eq_true, decide_eq_true_eq, decide_eq_true_eq,
      decide_eq_true_eq]
    exact .inr ⟨hsome, hneeded.trans_lt hgames⟩
  have hne : e.tree.candidates ≠ [] := fun hnil => by
    rw [hnil] at hcells
    rw [hcount, ← hcells] at hsome
    exact absurd hsome (Nat.lt_irrefl 0)
  obtain ⟨s, hbest⟩ := Tree.exists_best? hne
  refine ⟨s.cell, ?_, ?_⟩
  · rw [← hcells]
    exact List.mem_map_of_mem (Tree.mem_candidates_of_best? hbest)
  · rw [decide?, Board.isOver_eq_false_iff.mpr hs, hready, hbest]
    rfl

/-- **Enough thinking about a running game leads to a decision**, since every update is one more
visit of the root and at least one more game. -/
lemma Supplied.exists_decision (h : Supplied e) (hp : e.board.Played)
    (hs : e.board.status = .inProgress) {count : ℕ} (hthreshold : e.config.threshold ≤ count)
    (hcount : 361 * 1000 * (e.level * e.level) < count) :
    ∃ c ∈ e.board.shortlist (some e.board.sideToMove), (e.think count).state.decide? = some c := by
  have hthought : Supplied (e.think count).state := h.thinkOn hp {} [] count
  obtain ⟨hvisits, hgames, -⟩ := h.think_counts hp hs count
  obtain ⟨tree, hstate⟩ := e.exists_state_think count
  have hseen : count ≤ (e.think count).state.tree.games := (Nat.le_add_left _ _).trans hgames
  rw [hstate] at hthought hvisits hseen ⊢
  exact hthought.exists_decide? hp hs (by omega) (hthreshold.trans hseen) (hcount.trans_le hseen)

/-! ### What the tree says about the board -/

/-- **The tree follows the board**, on every engine that calls lead to. The colours on the board
take turns, black first. The root is the last move, and the tree plays for the engine's side. On
every path from the root the colours take turns, and the board accepts the moves one after another.
So no walk meets a move that the board refuses; the expected course of the game is accepted move by
move, and no larger bound would make it longer; and what the engine decides on can be played. -/
theorem tree_follows_board (h : Reachable e) :
    (∀ i m, e.board.history[i]? = some m → m.color = if i % 2 = 0 then .black else .white) ∧
    (e.tree.rootNode.cell = e.board.last?.map (·.cell) ∧
      e.tree.rootNode.color = e.board.last?.map (·.color) ∧ e.tree.side = e.side) ∧
    (∀ ids, e.tree.IsPath ids →
      (e.tree.root :: ids).IsChain (fun i j =>
        (e.tree.node j).color = some (Color.after (e.tree.node i).color)) ∧
      e.board.accepted (ids.map fun i => (e.tree.node i).move) = true) ∧
    (∀ rng, (e.tree.sweep.2.descend e.board e.tree.sweep.2.root [] rng).warnings = []) ∧
    (∀ c, e.board.accepted ((e.tree.lineFrom c).map MoveStats.move) = true) ∧
    (∀ c id n, e.tree.childAt? c = some id → 361 ≤ n → e.tree.lineFrom c = e.tree.lineBelow n id) ∧
    (∀ c, e.decide? = some c → (e.play c.x c.y).result = .ok true) := by
  have hstep := h.inStep
  obtain ⟨pos, hf⟩ := hstep.follows
  refine ⟨hstep.turns.color_eq.1, ⟨hf.cell, hf.color, hstep.side⟩, fun ids hpath => ?_,
    fun rng => (hf.sweep.descend hstep.played rng).warnings, fun c => hf.accepted_lineFrom c,
    fun c id n hid hn => hf.lineFrom_eq hstep.played hid hn, fun c hc => ?_⟩
  · obtain ⟨haccepted, hcolors⟩ := hf.linked.accepted hpath
    rw [hf.start] at haccepted
    exact ⟨hcolors, haccepted⟩
  · have ha := hstep.accepts_of_decide? hc
    rw [play, Cell.ofCoordinates, Cell.at?_x_y]
    dsimp only
    rw [playCell, if_pos ha]

/-- Black has opened in the middle, and white has thought until it decides on an answer: the answer
is the move of a child of the root, and it can be played. -/
theorem tree_follows_board_answer :
    ∃ (count : ℕ) (e : Engine) (c : Cell) (id : NodeId),
      e = [Call.play 9 9, .think count].foldl after (new (some .white) {}) ∧
      e.board.history = [⟨⟨180⟩, .black⟩] ∧ e.tree.rootNode.cell = some ⟨180⟩ ∧
      e.tree.rootNode.color = some .black ∧
      (id ∈ e.tree.rootNode.children ∧ (e.tree.node id).cell = some c ∧
        (e.tree.node id).color = some .white ∧
        e.board.accepted [(e.tree.node id).move] = true) ∧
      e.decide? = some c ∧ (e.play c.x c.y).result = .ok true := by
  obtain ⟨first, hfirst⟩ : ∃ e, e = (new (some .white) {}).after (.play 9 9) := ⟨_, rfl⟩
  have hstart : Reachable first := hfirst ▸ (Reachable.new (some .white) {}).call (.play 9 9)
  have hhistory : first.board.history = [⟨⟨180⟩, .black⟩] := by
    rw [hfirst]
    decide +kernel
  have hlast : first.board.last? = some ⟨⟨180⟩, .black⟩ := by
    rw [hfirst]
    decide +kernel
  have hrun : first.board.status = .inProgress := by
    rw [hfirst]
    decide +kernel
  have hlevel : first.level = 2 := by
    rw [hfirst]
    decide +kernel
  have hthreshold : first.config.threshold = 32 := by
    rw [hfirst]
    decide +kernel
  have hmany : 361 * 1000 * (first.level * first.level) < 2000000 := by
    rw [hlevel]
    decide
  obtain ⟨c, -, hdecide⟩ :=
    hstart.supplied.exists_decision hstart.inStep.played hrun (by omega) hmany
  have hr := hstart.call (.think 2000000)
  obtain ⟨tree, hstate⟩ := first.exists_state_think 2000000
  have hboard : (first.after (.think 2000000)).board = first.board := by rw [after, hstate]
  obtain ⟨-, ⟨hcell, hcolor, -⟩, hpaths, -, -, -, hplay⟩ := tree_follows_board hr
  obtain ⟨id, hid, hchild⟩ := exists_child_of_decide? hdecide
  obtain ⟨hturns, haccepted⟩ := hpaths [id] (.cons_cons hid (.singleton id))
  rw [List.isChain_cons_cons, ← Tree.rootNode, hcolor, hboard, hlast] at hturns
  rw [hboard, hlast] at hcell hcolor
  refine ⟨2000000, _, c, id, ?_, hboard ▸ hhistory, hcell, hcolor,
    ⟨hid, hchild, hturns.1, haccepted⟩, hdecide, hplay c hdecide⟩
  rw [List.foldl_cons, List.foldl_cons, List.foldl_nil, ← hfirst]

end Engine

end FiveInRow
