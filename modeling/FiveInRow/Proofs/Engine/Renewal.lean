import Mathlib.Tactic
import FiveInRow.Proofs.Engine.Expansion
import FiveInRow.Proofs.Search.Pruning

/-!
Undoing, resetting and changing sides leave no trace. What they make of an engine cannot be told
from a new engine on which the moves of the game have been played: one has a new tree for its board,
the other a tree whose root was moved along a game that it never explored.

* `Tree.AsNew`: a tree that knows the last move and nothing else; `Tree.AsNew.advance` moves it
  along a game, `Tree.AsNew.mirrors` says that two such trees are the same up to their slots;
* `Engine.Answer`, `Engine.answers`: what a caller hears of calls;
* `Engine.LooksLike`, `Engine.SameAs`: what can be asked of two engines has the same answers, now
  and after any calls;
* `Engine.Twins`: the same game with trees that mirror each other; every call keeps it
  (`Engine.Twins.after`);
* `Engine.replayed`: a new engine on which the moves of a game have been played;
* `Engine.leaves_no_trace`: the engines that undoing, resetting and changing sides lead to.
-/

namespace FiveInRow

namespace Tree

variable {t t' : Tree} {b : Board} {side : Option Color} {config : Config}
  {left left' : List NodeId} {stored stored' : ℕ}

/-! ### Trees without knowledge -/

/-- The tree knows the last move of a board and nothing else, and it has drawn no words yet. -/
structure AsNew (t : Tree) (b : Board) (side : Option Color) (config : Config) : Prop where
  root : t.rootNode = rootOf b
  side : t.side = side
  rng : t.rng = Xoshiro.ofSeed (config.seed.getD 0)
  config : t.config = config

/-- The root of a new tree has no children and was never visited. -/
lemma rootOf_eq (b : Board) :
    rootOf b = { cell := b.last?.map (·.cell), color := b.last?.map (·.color) } := by
  rw [rootOf]
  cases b.last? <;> rfl

lemma asNew_ofBoard (b : Board) (side : Option Color) (config : Config) :
    (ofBoard b side config).AsNew b side config :=
  ⟨rootNode_ofRoot (by rw [rootOf_eq]) side config _, rfl, rfl, rfl⟩

/-- **Moving the root along the game** leaves a tree without knowledge as it was, but for the last
move. -/
lemma AsNew.advance (h : t.AsNew b side config) (ho : t.Orderly left stored) (c : Cell) :
    (t.advance c).state.AsNew (b.place c b.sideToMove) side config := by
  have hunexplored : t.childAt? c = none := by
    rw [childAt?, h.root, rootOf_eq]
    rfl
  have hmoved : (t.moved c).side = t.side ∧ (t.moved c).rng = t.rng := by
    rw [moved, hunexplored]
    exact ⟨rfl, rfl⟩
  obtain ⟨-, hagrees⟩ := ho.advance c
  refine ⟨?_, hagrees.side.trans (hmoved.1.trans h.side),
    hagrees.rng.trans (hmoved.2.trans h.rng),
    hagrees.config.trans ((t.config_moved c).trans h.config)⟩
  rw [ho.rootNode_advance hunexplored, rootOf_eq, Board.last?_place, h.root, rootOf_eq]
  rfl

/-- **Two trees without knowledge** are the same up to the names of their slots. -/
lemma AsNew.mirrors (h : t.AsNew b side config) (h' : t'.AsNew b side config)
    (ho : t.Orderly left stored) (ho' : t'.Orderly left' stored') :
    Mirrors (fun _ => t'.root) t t' := by
  have hbare : t.rootNode.children = [] := by
    rw [h.root, rootOf_eq]
  have hlone : ∀ i, t.arena.Below t.root i → i = t.root := fun i hi => eq_root_of_bare hbare hi
  have hroot : Node.Renamed (fun _ => t'.root) t.rootNode t'.rootNode := by
    rw [h'.root, h.root]
    exact ⟨rfl, rfl, rfl, rfl, rfl, rfl, by rw [rootOf_eq, List.map_nil]⟩
  refine ⟨rfl, h'.side.trans h.side.symm, h'.rng.trans h.rng.symm, ?_,
    fun i hi j hj _ => (hlone i hi).trans (hlone j hj).symm, fun i hi j hj => hi.tail hj,
    fun i hi => ⟨ho.used hi, ho'.used .refl⟩, fun i hi => ?_⟩
  · rw [h'.config, h.config]
  · rw [hlone i hi]
    exact hroot

end Tree

namespace Engine

variable {e e' : Engine}

/-! ### What can be heard and seen -/

/-- What a caller hears of a call: its result and what it tells the log. -/
inductive Answer
  | played (result : Except SearchError Bool) (events : List Event)
  | thought (result : Except SearchError Effort) (events : List Event)
  | undone (result : Bool) (events : List Event)
  | done

/-- The answer to a call. -/
def answer (e : Engine) : Call → Answer
  | .play x y => .played (e.play x y).result (e.play x y).events
  | .think count => .thought (e.think count).result (e.think count).events
  | .undo => .undone e.undo.result e.undo.events
  | .reset | .setSide _ | .setLevel _ => .done

/-- The answers to calls one after another. -/
def answers : Engine → List Call → List Answer
  | _, [] => []
  | e, k :: ks => e.answer k :: (e.after k).answers ks

/-- What can be asked of two engines has the same answers: about the game, the settings and the
search. -/
structure LooksLike (e' e : Engine) : Prop where
  board : e'.board = e.board
  side : e'.side = e.side
  level : e'.level = e.level
  config : e'.config = e.config
  isOwnTurn : e'.isOwnTurn = e.isOwnTurn
  decision : e'.decide? = e.decide?
  tree : e'.tree.LooksLike e.tree

/-- Two engines cannot be told apart: the same calls have the same answers, and whatever has been
called, both look alike. -/
def SameAs (e' e : Engine) : Prop :=
  ∀ ks : List Call, e'.answers ks = e.answers ks ∧ (ks.foldl after e').LooksLike (ks.foldl after e)

/-! ### Twins -/

/-- The same game and settings, with trees in order that are the same up to their slots. -/
structure Twins (e e' : Engine) : Prop where
  board : e'.board = e.board
  side : e'.side = e.side
  level : e'.level = e.level
  config : e'.config = e.config
  mirrors : ∃ f, e.tree.Mirrors f e'.tree
  orderly : (∃ left stored, e.tree.Orderly left stored) ∧
    ∃ left stored, e'.tree.Orderly left stored

/-- New trees for the same game are the same. -/
lemma Twins.rebuild (hboard : e'.board = e.board) (hside : e'.side = e.side)
    (hlevel : e'.level = e.level) (hconfig : e'.config = e.config) :
    Twins e.rebuild e'.rebuild := by
  have ho := (supplied_rebuild e).orderly
  have ho' := (supplied_rebuild e').orderly
  refine ⟨hboard, hside, hlevel, hconfig, ?_, ho, ho'⟩
  obtain ⟨left, stored, hl⟩ := ho
  obtain ⟨left', stored', hl'⟩ := ho'
  have hnew' : e'.rebuild.tree.AsNew e.board e.side e.config := by
    rw [← hboard, ← hside, ← hconfig]
    exact Tree.asNew_ofBoard e'.board e'.side e'.config
  exact ⟨_, (Tree.asNew_ofBoard e.board e.side e.config).mirrors hnew' hl hl'⟩

/-- **Twins think alike**, update after update. -/
lemma Twins.thinkOn (h : Twins e e') (done : Effort) (events : List Event) (count : ℕ) :
    (e'.thinkOn done events count).result = (e.thinkOn done events count).result ∧
      (e'.thinkOn done events count).events = (e.thinkOn done events count).events ∧
      Twins (e.thinkOn done events count).state (e'.thinkOn done events count).state := by
  induction count generalizing e e' done events with
  | zero => exact ⟨rfl, rfl, h⟩
  | succ count ih =>
      obtain ⟨f, hmirrors⟩ := h.mirrors
      obtain ⟨⟨left, stored, ho⟩, left', stored', ho'⟩ := h.orderly
      obtain ⟨hanswer, f', hafter⟩ := hmirrors.after ho ho' (.update e.board)
      obtain ⟨hresult, hevents⟩ := Tree.Answer.games.injEq .. ▸ hanswer
      have hnext : Twins { e with tree := (e.tree.update e.board).state }
          { e' with tree := (e'.tree.update e'.board).state } := by
        rw [h.board]
        exact ⟨rfl, h.side, h.level, h.config, ⟨f', hafter⟩,
          ⟨_, _, ho.after (.update e.board)⟩, _, _, ho'.after (.update e.board)⟩
      rw [Engine.thinkOn, Engine.thinkOn]
      rw [h.board] at hnext ⊢
      rw [hresult, hevents]
      split
      · exact ⟨rfl, rfl, hnext⟩
      · exact ⟨rfl, rfl, hnext⟩
      · exact ih hnext _ _

/-- **Twins play alike.** -/
lemma Twins.playCell (h : Twins e e') (c : Cell) :
    (e'.playCell c).result = (e.playCell c).result ∧
      (e'.playCell c).events = (e.playCell c).events ∧
      Twins (e.playCell c).state (e'.playCell c).state := by
  obtain ⟨f, hmirrors⟩ := h.mirrors
  obtain ⟨⟨left, stored, ho⟩, left', stored', ho'⟩ := h.orderly
  obtain ⟨hevents, f', hadvance⟩ := hmirrors.advance ho ho' c
  have hgames : (e'.tree.advance c).state.games = (e.tree.advance c).state.games :=
    hadvance.looksLike.games
  rw [Engine.playCell, Engine.playCell, h.board]
  split_ifs
  · dsimp only
    rw [hevents, hgames]
    exact ⟨rfl, rfl, rfl, h.side, h.level, h.config, ⟨f', hadvance⟩,
      ⟨_, _, (ho.advance c).1⟩, _, _, (ho'.advance c).1⟩
  · exact ⟨rfl, rfl, h⟩

/-- **A call has the same answer and the same effect on twins.** -/
lemma Twins.after (h : Twins e e') (k : Call) :
    e'.answer k = e.answer k ∧ Twins (e.after k) (e'.after k) := by
  cases k with
  | play x y =>
      rw [answer, answer, Engine.after, Engine.after, play, play]
      cases Cell.ofCoordinates x y with
      | error error => exact ⟨rfl, h⟩
      | ok c =>
          obtain ⟨hresult, hevents, hstate⟩ := h.playCell c
          dsimp only
          rw [hresult, hevents]
          exact ⟨rfl, hstate⟩
  | think count =>
      obtain ⟨hresult, hevents, hstate⟩ := h.thinkOn {} [] count
      rw [answer, answer, think, think, hresult, hevents]
      exact ⟨rfl, hstate⟩
  | undo =>
      rw [answer, answer, Engine.after, Engine.after, undo, undo, h.board]
      cases e.board.undo? with
      | none => exact ⟨rfl, h⟩
      | some board => exact ⟨rfl, .rebuild rfl h.side h.level h.config⟩
  | reset => exact ⟨rfl, .rebuild rfl h.side h.level h.config⟩
  | setSide side =>
      rw [Engine.after, Engine.after, setSide, setSide, h.side]
      split_ifs
      · exact ⟨rfl, h⟩
      · exact ⟨rfl, .rebuild h.board rfl h.level h.config⟩
  | setLevel level => exact ⟨rfl, h.board, h.side, rfl, h.config, h.mirrors, h.orderly⟩

/-- Twins look alike. -/
lemma Twins.looksLike (h : Twins e e') : e'.LooksLike e := by
  obtain ⟨f, hmirrors⟩ := h.mirrors
  have htree := hmirrors.looksLike
  refine ⟨h.board, h.side, h.level, h.config, ?_, ?_, htree⟩
  · rw [isOwnTurn, isOwnTurn, h.board, h.side]
  · rw [decide?, decide?, h.board, h.level, htree.isReady, htree.best]

/-- **Twins cannot be told apart**, whatever is called. -/
lemma Twins.sameAs (h : Twins e e') : e'.SameAs e := by
  intro ks
  induction ks generalizing e e' with
  | nil => exact ⟨rfl, h.looksLike⟩
  | cons k ks ih =>
      obtain ⟨hanswer, hafter⟩ := h.after k
      obtain ⟨hanswers, hlooks⟩ := ih hafter
      rw [answers, answers, hanswer, hanswers]
      exact ⟨rfl, hlooks⟩

/-! ### The game played again -/

/-- The call that plays a move. -/
def Call.ofMove (m : Move) : Call := .play m.cell.x m.cell.y

/-- A new engine with the same side, settings and level on which the moves of the game have been
played, without any thought. -/
def replayed (e : Engine) : Engine :=
  (e.board.history.map Call.ofMove).foldl after ((new e.side e.config).setLevel e.level)

lemma after_ofMove_eq (e : Engine) (m : Move) :
    e.after (.ofMove m) = (e.playCell m.cell).state := by
  rw [Call.ofMove, after, play, Cell.ofCoordinates, Cell.at?_x_y]

/-- An engine without knowledge that plays an accepted move has no knowledge afterwards. -/
lemma after_ofMove (h : Supplied e) (hnew : e.tree.AsNew e.board e.side e.config) {c : Cell}
    (ha : e.board.accepts c = true) :
    let e' := e.after (.ofMove ⟨c, e.board.sideToMove⟩)
    e'.board = e.board.place c e.board.sideToMove ∧ e'.side = e.side ∧ e'.level = e.level ∧
      e'.config = e.config ∧ e'.tree.AsNew e'.board e.side e.config := by
  obtain ⟨left, stored, ho⟩ := h.orderly
  have hplay : e.after (.ofMove ⟨c, e.board.sideToMove⟩) =
      { e with
        board := e.board.place c e.board.sideToMove
        tree := (e.tree.advance c).state } := by
    rw [after_ofMove_eq, playCell, if_pos ha]
  rw [hplay]
  exact ⟨rfl, rfl, rfl, rfl, hnew.advance ho c⟩

/-- **A game played on a new engine** leads to its board and to a tree without knowledge. -/
lemma asNew_replay {b : Board} (hp : b.Played) (hturns : TakesTurns b.moves) (side : Option Color)
    (config : Config) (level : ℕ) :
    ∃ e, e = (b.history.map Call.ofMove).foldl after ((new side config).setLevel level) ∧
      Supplied e ∧ e.board = b ∧ e.side = side ∧ e.level = max 1 (min level 5) ∧
      e.config = config ∧ e.tree.AsNew b side config := by
  induction hp with
  | new =>
      have hstart : Supplied ((new side config).setLevel level) :=
        ((Reachable.new side config).call (.setLevel level)).supplied
      exact ⟨_, rfl, hstart, rfl, rfl, rfl, rfl, Tree.asNew_ofBoard Board.empty side config⟩
  | @place b c color hb ha ih =>
      rw [Board.moves_place] at hturns
      obtain ⟨e, he, hsupplied, rfl, rfl, hlevel, rfl, hnew⟩ := ih hturns.2
      obtain rfl : color = e.board.sideToMove := hturns.1
      obtain ⟨hboard, hside, hlevel', hconfig, hnew'⟩ := after_ofMove hsupplied hnew ha
      refine ⟨e.after (.ofMove ⟨c, e.board.sideToMove⟩), ?_, ?_, hboard, hside,
        hlevel'.trans hlevel, hconfig, hboard ▸ hnew'⟩
      · rw [Board.history_place, List.map_append, List.foldl_append, ← he]
        rfl
      · rw [after_ofMove_eq]
        exact hsupplied.playCell c

/-- Thinking leaves the level alone. -/
lemma level_thinkOn (e : Engine) (done : Effort) (events : List Event) (count : ℕ) :
    (e.thinkOn done events count).state.level = e.level := by
  induction count generalizing e done events with
  | zero => rfl
  | succ count ih =>
      rw [thinkOn]
      split
      · rfl
      · rfl
      · exact ih _ _ _

/-- The level stays between one and five. -/
lemma Reachable.level_bounds (h : Reachable e) : max 1 (min e.level 5) = e.level := by
  induction h with
  | new side config => rfl
  | @call e k _ ih =>
      cases k with
      | play x y =>
          rw [after, play]
          split
          · exact ih
          · rw [playCell]
            split_ifs <;> exact ih
      | think count => rwa [after, think, level_thinkOn]
      | undo =>
          rw [after, undo]
          split <;> exact ih
      | reset => exact ih
      | setSide side =>
          rw [after, setSide]
          split_ifs <;> exact ih
      | setLevel level =>
          rw [after, setLevel]
          dsimp only
          omega
  | reseed rng _ _ ih => exact ih

/-- **An engine with a new tree** cannot be told from the game played again. -/
lemma Reachable.sameAs_replayed (h : Reachable e) (hnew : e.tree.AsNew e.board e.side e.config) :
    e.SameAs e.replayed := by
  obtain ⟨e', he', hsupplied, hboard, hside, hlevel, hconfig, hnew'⟩ :=
    asNew_replay h.inStep.played h.inStep.turns e.side e.config e.level
  obtain ⟨left, stored, ho⟩ := h.supplied.orderly
  obtain ⟨left', stored', ho'⟩ := hsupplied.orderly
  rw [replayed, ← he']
  exact Twins.sameAs ⟨hboard.symm, hside.symm, (hlevel.trans h.level_bounds).symm, hconfig.symm,
    ⟨_, hnew'.mirrors hnew ho' ho⟩, ⟨left', stored', ho'⟩, left, stored, ho⟩

/-- **Undoing, resetting and changing sides leave no trace**, on every engine with a seed that calls
lead to. An undo that took back a move, a reset, and a change to another side each lead to an engine
that cannot be told from a new one with the same side, settings and level on which the moves that
are left have been played without any thought: the boards are the same in all their parts, and for
any further calls the answers, and everything that can be asked of the engines afterwards, are the
same. -/
theorem leaves_no_trace (side : Option Color) (config : Config) (seed : UInt64) (ks : List Call) :
    ∃ e, e = ks.foldl after (new side { config with seed := some seed }) ∧
      (e.undo.result = true → e.undo.state.SameAs e.undo.state.replayed) ∧
      e.reset.SameAs e.reset.replayed ∧
      ∀ side', side' ≠ e.side → (e.setSide side').SameAs (e.setSide side').replayed := by
  have hr : Reachable (ks.foldl after (new side { config with seed := some seed })) :=
    (Reachable.new side _).calls ks
  generalize ks.foldl after (new side { config with seed := some seed }) = e at hr ⊢
  refine ⟨e, rfl, fun hundo => (hr.call .undo).sameAs_replayed ?_,
    (hr.call .reset).sameAs_replayed (Tree.asNew_ofBoard Board.empty e.side e.config),
    fun side' hne => (hr.call (.setSide side')).sameAs_replayed ?_⟩
  · rw [after, undo] at *
    cases hb : e.board.undo? with
    | none =>
        rw [hb] at hundo
        cases hundo
    | some board => exact Tree.asNew_ofBoard board e.side e.config
  · rw [after, setSide, if_neg hne]
    exact Tree.asNew_ofBoard e.board side' e.config

/-- The root of a new tree has no children. -/
lemma children_rebuild (e : Engine) : e.rebuild.tree.rootNode.children = [] := by
  rw [rebuild, (Tree.asNew_ofBoard e.board e.side e.config).root, Tree.rootOf_eq]

/-- After white's answer and a first thought about the next move, the root has been visited and has
children. Nothing can be told of the answer and of the thought once the answer is taken back, nor
after a reset or with a search for no side. -/
theorem leaves_no_trace_opening :
    ∃ e, e = (opening ++ [Call.think 1]).foldl after
        (new (some .white) { threshold := 1, seed := some 11 }) ∧
      e.tree.rootNode.visits = 1 ∧ e.tree.rootNode.children ≠ [] ∧
      e.undo.result = true ∧ e.undo.state.board.history = [⟨⟨180⟩, .black⟩] ∧
      e.undo.state.tree.rootNode.children = [] ∧
      e.undo.state.SameAs e.undo.state.replayed ∧ e.reset.SameAs e.reset.replayed ∧
      (e.setSide none).SameAs (e.setSide none).replayed := by
  obtain ⟨e, he, hundo, hreset, hside⟩ :=
    leaves_no_trace (some .white) { threshold := 1 } 11 (opening ++ [.think 1])
  obtain ⟨answered, hanswered⟩ : ∃ e, e = opening.foldl after
      (new (some .white) { threshold := 1, seed := some 11 }) := ⟨_, rfl⟩
  have hr : Reachable answered := hanswered ▸ (Reachable.new (some .white) _).calls opening
  have hthink : e = (answered.think 1).state := by
    rw [he, List.foldl_append, ← hanswered]
    rfl
  have hrun : answered.board.status = .inProgress := by
    rw [hanswered]
    decide +kernel
  have hvisits : answered.tree.rootNode.visits = 0 := by
    rw [hanswered]
    decide +kernel
  have hconfig : answered.config.threshold = 1 ∧ answered.side = some .white := by
    rw [hanswered]
    decide +kernel
  have hback : answered.board.undo?.map Board.history = some [⟨⟨180⟩, .black⟩] := by
    rw [hanswered]
    decide +kernel
  obtain ⟨board, hboard, hhistory⟩ := Option.map_eq_some_iff.mp hback
  obtain ⟨hseen, -⟩ := hr.supplied.think_counts hr.inStep.played hrun 1
  have hchildren := hr.supplied.children_think_ne_nil hr.inStep.played hrun Nat.one_ne_zero
    hconfig.1.le
  obtain ⟨tree, hstate⟩ := answered.exists_state_think 1
  rw [← hthink] at hseen hchildren hstate
  rw [hvisits] at hseen
  have hundone : e.undo.result = true ∧ e.undo.state = { e with board }.rebuild := by
    rw [undo, hstate]
    dsimp only
    rw [hboard]
    exact ⟨rfl, rfl⟩
  have hother : none ≠ e.side := by
    rw [hstate]
    dsimp only
    rw [hconfig.2]
    exact (Option.some_ne_none Color.white).symm
  refine ⟨e, he, hseen, hchildren, hundone.1, ?_, ?_, hundo hundone.1, hreset, hside none hother⟩
  · rw [hundone.2]
    exact hhistory
  · rw [hundone.2]
    exact children_rebuild _

end Engine

end FiveInRow
