import Mathlib.Tactic
import FiveInRow.Engine
import FiveInRow.Proofs.Search.Reroot

/-!
The board of an engine and its tree never drift apart, whatever is asked of the engine and in
whatever order.

* `Engine.Call`, `Engine.after`, `Engine.Reachable`: the calls and the engines they lead to;
* `TakesTurns`: the colours of a game take turns, black first;
* `Engine.InStep`: the invariant: a played board, colours that take turns, and a tree that follows
  the game on the board;
* `Engine.Reachable.inStep`: every call keeps it;
* `Engine.InStep.accepts_of_decide?`: what the engine decides on can be played.
-/

namespace FiveInRow

/-! ### Taking turns -/

/-- In a list of moves, the last one first, the colours take turns, and black began. -/
def TakesTurns : List Move → Prop
  | [] => True
  | m :: earlier => m.color = Color.after (earlier.head?.map (·.color)) ∧ TakesTurns earlier

/-- Move number `i`, counted from zero, is black's if `i` is even. -/
lemma TakesTurns.color_eq {moves : List Move} (h : TakesTurns moves) :
    (∀ i m, moves.reverse[i]? = some m → m.color = if i % 2 = 0 then .black else .white) ∧
      Color.after (moves.head?.map (·.color)) =
        if moves.length % 2 = 0 then .black else .white := by
  induction moves with
  | nil => exact ⟨fun i m hm => by simp at hm, rfl⟩
  | cons m earlier ih =>
      obtain ⟨hm, hearlier⟩ := h
      obtain ⟨hall, hnext⟩ := ih hearlier
      refine ⟨fun i m' hm' => ?_, ?_⟩
      · rw [List.reverse_cons, List.getElem?_append] at hm'
        split_ifs at hm' with hi
        · exact hall i m' hm'
        · obtain ⟨hlt, hget⟩ := List.getElem?_eq_some_iff.mp hm'
          rw [List.length_singleton] at hlt
          rw [List.length_reverse] at hi hlt
          obtain rfl : i = earlier.length := by omega
          rw [← hnext, ← hm]
          simp only [List.getElem_singleton] at hget
          rw [hget]
      · rw [List.head?_cons, Option.map_some, Color.after_some, hm, hnext, List.length_cons]
        rcases Nat.mod_two_eq_zero_or_one earlier.length with h0 | h1
        · rw [if_pos h0, if_neg (by omega)]
          rfl
        · rw [if_neg (by omega), if_pos (by omega)]
          rfl

namespace Engine

variable {e : Engine}

/-! ### Calls -/

/-- What a caller can ask of an engine. -/
inductive Call
  | play (x y : ℤ)
  | think (count : ℕ)
  | undo
  | reset
  | setSide (side : Option Color)
  | setLevel (level : ℕ)

/-- The engine after a call. -/
def after (e : Engine) : Call → Engine
  | .play x y => (e.play x y).state
  | .think count => (e.think count).state
  | .undo => e.undo.state
  | .reset => e.reset
  | .setSide side => e.setSide side
  | .setLevel level => e.setLevel level

/-- The engines that calls lead to from a new game. Without a seed nothing is known of the words
that the search draws. -/
inductive Reachable : Engine → Prop
  | new (side : Option Color) (config : Config) : Reachable (new side config)
  | call {e : Engine} (k : Call) (h : Reachable e) : Reachable (e.after k)
  | reseed {e : Engine} (rng : Xoshiro) (h : Reachable e) (hs : e.config.seed = none) :
      Reachable { e with tree := { e.tree with rng } }

lemma Reachable.calls (h : Reachable e) (ks : List Call) : Reachable (ks.foldl after e) := by
  induction ks generalizing e with
  | nil => exact h
  | cons k ks ih => exact ih (h.call k)

/-- Black opens in the middle, and white answers next to it. -/
def opening : List Call := [.play 9 9, .play 10 10]

/-- The board and the tree of an engine are in step. -/
structure InStep (e : Engine) : Prop where
  played : e.board.Played
  turns : TakesTurns e.board.moves
  side : e.tree.side = e.side
  follows : ∃ pos, e.tree.Follows e.board pos

/-! ### Every call keeps the engine in step -/

lemma inStep_rebuild (hp : e.board.Played) (ht : TakesTurns e.board.moves) : InStep e.rebuild :=
  ⟨hp, ht, rfl, Tree.follows_ofBoard e.board e.side e.config⟩

lemma inStep_new (side : Option Color) (config : Config) : InStep (new side config) :=
  inStep_rebuild (e := new side config) .new trivial

lemma side_updateWith (judge : Tree.Judge) (t : Tree) (b : Board) :
    (t.updateWith judge b).state.side = t.side := by
  have hsweep : t.sweep.2.side = t.side := by
    rw [Tree.sweep]
    split <;> rfl
  have hconclude : ∀ (t : Tree) a value games, (t.conclude a value games).side = t.side := by
    intro t a value games
    rw [Tree.conclude]
    split_ifs <;> rfl
  rw [Tree.updateWith]
  dsimp only
  split_ifs
  · exact hsweep
  · exact (hconclude _ _ _ _).trans hsweep
  · exact (hconclude _ _ _ _).trans hsweep
  · split
    · exact hsweep
    · exact (hconclude _ _ _ _).trans hsweep

lemma side_advance (t : Tree) (c : Cell) : (t.advance c).state.side = t.side := by
  have habandon : ∀ (t : Tree) id, (t.abandon id).side = t.side := by
    intro t id
    rw [Tree.abandon]
    split <;> rfl
  rw [Tree.advance]
  split
  · exact habandon _ _
  · exact habandon _ _

lemma InStep.thinkOn (h : InStep e) (done : Effort) (events : List Event) (count : ℕ) :
    InStep (e.thinkOn done events count).state := by
  induction count generalizing e done events with
  | zero => exact h
  | succ count ih =>
      obtain ⟨pos, hf⟩ := h.follows
      have hnext : InStep { e with tree := (e.tree.update e.board).state } :=
        ⟨h.played, h.turns, (side_updateWith _ _ _).trans h.side, (hf.update h.played _).1⟩
      rw [Engine.thinkOn]
      split
      · exact hnext
      · exact hnext
      · exact ih hnext _ _

lemma InStep.playCell (h : InStep e) (c : Cell) : InStep (e.playCell c).state := by
  rw [Engine.playCell]
  split_ifs with ha
  · obtain ⟨pos, hf⟩ := h.follows
    refine ⟨h.played.place _ ha, ?_, (side_advance _ _).trans h.side, hf.advance c⟩
    rw [Board.moves_place]
    exact ⟨rfl, h.turns⟩
  · exact h

lemma InStep.play (h : InStep e) (x y : ℤ) : InStep (e.play x y).state := by
  rw [Engine.play]
  split
  · exact h
  · exact h.playCell _

/-- Undoing gives back the board before the last move, where the colours took turns already. -/
lemma InStep.undo (h : InStep e) : InStep e.undo.state := by
  rw [Engine.undo]
  cases hundo : e.board.undo? with
  | none => exact h
  | some board =>
      obtain ⟨c, color, hb, -, hlast⟩ := h.played.of_undo? hundo
      have hturns := h.turns
      rw [hlast, Board.moves_place] at hturns
      exact inStep_rebuild (e := { e with board }) hb hturns.2

/-- **The board and the tree stay in step.** -/
theorem Reachable.inStep (h : Reachable e) : InStep e := by
  induction h with
  | new side config => exact inStep_new side config
  | @call e k _ ih =>
      cases k with
      | play x y => exact ih.play x y
      | think count => exact ih.thinkOn _ _ count
      | undo => exact ih.undo
      | reset => exact inStep_rebuild (e := { e with board := Board.empty }) .new trivial
      | setSide side =>
          rw [after, setSide]
          split_ifs
          · exact ih
          · exact inStep_rebuild (e := { e with side }) ih.played ih.turns
      | setLevel level => exact ⟨ih.played, ih.turns, ih.side, ih.follows⟩
  | @reseed e rng _ _ ih =>
      obtain ⟨pos, hf⟩ := ih.follows
      exact ⟨ih.played, ih.turns, ih.side, pos, hf.of_alike (.refl _) rfl rfl⟩

/-! ### Decisions -/

/-- What the engine decides on can be played. -/
lemma InStep.accepts_of_decide? (h : InStep e) {c : Cell} (hc : e.decide? = some c) :
    e.board.accepts c = true := by
  obtain ⟨pos, hf⟩ := h.follows
  rw [decide?] at hc
  split_ifs at hc
  obtain ⟨s, hs, rfl⟩ := Option.map_eq_some_iff.mp hc
  exact hf.accepts_of_mem_candidates (Tree.mem_candidates_of_best? hs)

end Engine

end FiveInRow
