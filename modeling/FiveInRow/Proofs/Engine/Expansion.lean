import Mathlib.Tactic
import FiveInRow.Proofs.Engine.InStep
import FiveInRow.Proofs.Playout.Batches
import FiveInRow.Proofs.Search.Expansion
import FiveInRow.Proofs.Search.Statistics

/-!
The tree of an engine holds shortlists. Whatever is asked of the engine, every node of its tree that
has children has the shortlist of its position as children.

* `Engine.Supplied`: the invariant: a tree in order, with the engine's settings, all of whose nodes
  are stocked;
* `Engine.Reachable.supplied`: every call keeps it;
* `Engine.Supplied.think_counts`: every update of a running game is one more visit of the root;
* `Engine.Supplied.children_think_ne_nil`, `Engine.Supplied.children_root`: when the root has
  children, and which;
* `Engine.expansion_exact`: what it means for the nodes of the tree.
-/

namespace FiveInRow

namespace Tree

lemma config_updateWith (judge : Judge) (t : Tree) (b : Board) :
    (t.updateWith judge b).state.config = t.config := by
  obtain ⟨s, hs, hstate | ⟨-, hstate⟩⟩ := t.exists_alike_updateWith judge b
  · rw [hstate, hs.config, sweep_config]
  · rw [hstate, expand_eq, hs.config, sweep_config]

lemma config_moved (t : Tree) (c : Cell) : (t.moved c).config = t.config := by
  rw [moved]
  cases t.childAt? c <;> rfl

/-- **An update of a running game returns games**, one or those of a batch. -/
lemma exists_games_update (t : Tree) {b : Board} (hs : b.status = .inProgress) :
    ∃ games, (t.update b).result = .ok games ∧ 1 ≤ games ∧ games ≤ t.config.games := by
  have hpos : 1 ≤ t.config.games := le_max_right _ _
  rw [← t.sweep_config] at hpos ⊢
  rw [update, updateWith]
  dsimp only
  split_ifs with hover
  · rw [Board.isOver_eq_false_iff.mpr hs] at hover
    cases hover
  · exact ⟨1, rfl, le_rfl, hpos⟩
  · exact ⟨1, rfl, le_rfl, hpos⟩
  · split
    · rename_i events hjudged
      obtain ⟨value, hvalue⟩ := Board.exists_batchValue _ _ _ _ _
      rw [hvalue] at hjudged
      cases hjudged
    · exact ⟨_, rfl, hpos, le_rfl⟩

end Tree

namespace Engine

variable {e : Engine}

/-- The tree of an engine is in order, has the engine's settings, and follows the game on the board
with all its nodes stocked. -/
structure Supplied (e : Engine) : Prop where
  orderly : ∃ left stored, e.tree.Orderly left stored
  config : e.tree.config = e.config
  stocked : ∃ pos, e.tree.Follows e.board pos ∧ e.tree.StocksAll pos

/-! ### Every call keeps the tree supplied -/

/-- A new tree is supplied. -/
lemma supplied_rebuild (e : Engine) : Supplied e.rebuild := by
  obtain ⟨pos, hf⟩ := Tree.follows_ofBoard e.board e.side e.config
  let rng := (Tree.ofBoard e.board e.side e.config).rng
  obtain ⟨cell, color, hnode⟩ := Tree.exists_rootNode_ofBoard e.board e.side e.config rng
  exact ⟨⟨[], 1, (Tree.Run.start e.board e.side e.config rng).orderly⟩, rfl, pos, hf,
    Tree.stocksAll_of_lone hnode pos⟩

/-- **An update keeps the tree supplied.** -/
lemma Supplied.update (h : Supplied e) (hp : e.board.Played) :
    Supplied { e with tree := (e.tree.update e.board).state } := by
  obtain ⟨left, stored, ho⟩ := h.orderly
  obtain ⟨pos, hf, hs⟩ := h.stocked
  exact ⟨⟨_, _, ho.updateWith e.tree.playouts e.board⟩,
    (Tree.config_updateWith e.tree.playouts e.tree e.board).trans h.config,
    hs.updateWith ho hf hp e.tree.playouts⟩

/-- **Thinking keeps the tree supplied**, update after update. -/
lemma Supplied.thinkOn (h : Supplied e) (hp : e.board.Played) (done : Effort)
    (events : List Event) (count : ℕ) : Supplied (e.thinkOn done events count).state := by
  induction count generalizing e done events with
  | zero => exact h
  | succ count ih =>
      have hnext := h.update hp
      rw [Engine.thinkOn]
      split
      · exact hnext
      · exact hnext
      · exact ih hnext hp _ _

/-- **A move keeps the tree supplied.** -/
lemma Supplied.playCell (h : Supplied e) (c : Cell) : Supplied (e.playCell c).state := by
  rw [Engine.playCell]
  split_ifs
  · obtain ⟨left, stored, ho⟩ := h.orderly
    obtain ⟨pos, hf, hs⟩ := h.stocked
    obtain ⟨ho', hagrees⟩ := ho.advance c
    exact ⟨⟨_, _, ho'⟩, (hagrees.config.trans (e.tree.config_moved c)).trans h.config,
      hs.advance ho hf c⟩
  · exact h

/-- **The tree of an engine stays supplied.** -/
lemma Reachable.supplied (h : Reachable e) : Supplied e := by
  induction h with
  | new side config => exact supplied_rebuild (Engine.new side config)
  | @call e k h ih =>
      cases k with
      | play x y =>
          rw [after, play]
          split
          · exact ih
          · exact ih.playCell _
      | think count => exact ih.thinkOn h.inStep.played _ _ count
      | undo =>
          rw [after, undo]
          split
          · exact ih
          · exact supplied_rebuild _
      | reset => exact supplied_rebuild _
      | setSide side =>
          rw [after, setSide]
          split_ifs
          · exact ih
          · exact supplied_rebuild _
      | setLevel level => exact ⟨ih.orderly, ih.config, ih.stocked⟩
  | @reseed e rng _ _ ih =>
      obtain ⟨left, stored, ho⟩ := ih.orderly
      obtain ⟨pos, hf, hs⟩ := ih.stocked
      refine ⟨⟨left, stored, ho.of_alike ⟨.refl _, rfl, rfl, rfl, rfl⟩⟩, ih.config, pos,
        hf.of_alike (.refl _) rfl rfl, fun i hi => ?_⟩
      exact ⟨(hs i hi).expanded, (hs i hi).waiting, (hs i hi).decisive_iff⟩

/-! ### Counting -/

/-- **An update of a running game is one more visit of the root**, with the games that it returns: at
least one, and at most those of a batch. -/
lemma Supplied.exists_update (h : Supplied e) (hs : e.board.status = .inProgress) :
    ∃ games, (e.tree.update e.board).result = .ok games ∧ 1 ≤ games ∧ games ≤ e.config.games ∧
      (e.tree.update e.board).state.rootNode.visits = e.tree.rootNode.visits + 1 ∧
      (e.tree.update e.board).state.games = e.tree.games + games := by
  obtain ⟨left, stored, ho⟩ := h.orderly
  obtain ⟨games, hok, hlow, hhigh⟩ := e.tree.exists_games_update hs
  rw [h.config] at hhigh
  rcases ho.rootNode_updateWith e.tree.playouts e.board with
    ⟨hzero, -⟩ | ⟨games', hok', -, hvisits, hgames⟩
  · have := hzero games hok
    omega
  · obtain rfl : games' = games := Except.ok.inj (hok'.symm.trans hok)
    exact ⟨games', hok, hlow, hhigh, hvisits, hgames⟩

/-- Thinking about a running game adds a visit of the root for every update. -/
lemma Supplied.thinkOn_counts (h : Supplied e) (hp : e.board.Played)
    (hs : e.board.status = .inProgress) (done : Effort) (events : List Event) (count : ℕ) :
    (e.thinkOn done events count).state.tree.rootNode.visits = e.tree.rootNode.visits + count ∧
      e.tree.games + count ≤ (e.thinkOn done events count).state.tree.games ∧
      (e.thinkOn done events count).state.tree.games ≤ e.tree.games + count * e.config.games := by
  induction count generalizing e done events with
  | zero => exact ⟨rfl, le_rfl, Nat.le_add_right _ _⟩
  | succ count ih =>
      obtain ⟨games, hok, hlow, hhigh, hvisits, hgames⟩ := h.exists_update hs
      obtain ⟨games, rfl⟩ : ∃ k, games = k + 1 := ⟨games - 1, by omega⟩
      have hstep : e.thinkOn done events (count + 1) =
          { e with tree := (e.tree.update e.board).state }.thinkOn (done.add ⟨1, games + 1⟩)
            (events ++ (e.tree.update e.board).events) count := by
        rw [Engine.thinkOn, hok]
        rfl
      obtain ⟨ihvisits, ihlow, ihhigh⟩ := ih (h.update hp) hp hs (done.add ⟨1, games + 1⟩)
        (events ++ (e.tree.update e.board).events)
      change _ ≤ _ + count * e.config.games at ihhigh
      rw [hvisits] at ihvisits
      rw [hgames] at ihlow ihhigh
      rw [hstep, Nat.succ_mul]
      exact ⟨by omega, by omega, by omega⟩

lemma Supplied.think_counts (h : Supplied e) (hp : e.board.Played)
    (hs : e.board.status = .inProgress) (count : ℕ) :
    (e.think count).state.tree.rootNode.visits = e.tree.rootNode.visits + count ∧
      e.tree.games + count ≤ (e.think count).state.tree.games ∧
      (e.think count).state.tree.games ≤ e.tree.games + count * e.config.games :=
  h.thinkOn_counts hp hs {} [] count

/-- The root of a running game that has seen enough has children. -/
lemma Supplied.children_root_ne_nil (h : Supplied e) (hs : e.board.status = .inProgress)
    (hvisits : e.tree.rootNode.visits ≠ 0) (hgames : e.config.threshold ≤ e.tree.games) :
    e.tree.rootNode.children ≠ [] := by
  obtain ⟨pos, hf, hstocked⟩ := h.stocked
  obtain ⟨-, hwaiting, -⟩ := hstocked e.tree.root .refl
  rw [hf.start, h.config, ← Tree.rootNode] at hwaiting
  exact fun hnone => (hwaiting hnone hs).elim hvisits hgames.not_gt

/-- **Enough thinking about a running game** gives the root children. -/
lemma Supplied.children_think_ne_nil (h : Supplied e) (hp : e.board.Played)
    (hs : e.board.status = .inProgress) {count : ℕ} (hpos : count ≠ 0)
    (hcount : e.config.threshold ≤ count) :
    (e.think count).state.tree.rootNode.children ≠ [] := by
  have hthought : Supplied (e.think count).state := h.thinkOn hp {} [] count
  obtain ⟨hvisits, hgames, -⟩ := h.think_counts hp hs count
  obtain ⟨tree, hstate⟩ := e.exists_state_think count
  rw [hstate] at hthought hvisits hgames ⊢
  exact hthought.children_root_ne_nil hs (by omega)
    (hcount.trans ((Nat.le_add_left _ _).trans hgames))

/-- **The children of the root** are the moves of the shortlist. -/
lemma Supplied.children_root (h : Supplied e) (hne : e.tree.rootNode.children ≠ []) :
    e.tree.rootNode.children.map (fun j => (e.tree.node j).move) =
      (e.board.shortlist (some e.board.sideToMove)).map fun c =>
        (some c, some e.board.sideToMove) := by
  obtain ⟨pos, hf, hstocked⟩ := h.stocked
  obtain ⟨hexpanded, -⟩ := hstocked e.tree.root .refl
  rw [hf.start, ← Tree.rootNode, hf.color] at hexpanded
  exact (hexpanded hne).2.2

end Engine

end FiveInRow
