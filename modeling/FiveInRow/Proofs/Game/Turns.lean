import Mathlib.Tactic
import FiveInRow.Game
import FiveInRow.Proofs.Engine.Decisions
import FiveInRow.Proofs.Engine.Renewal
import FiveInRow.Proofs.Playout.Batches

/-!
The discipline of a game, whoever plays and whatever is called in whatever order. What the engine
decides on is legal and thinking does not fail, so there is never anything to tell the player; and a
stone is only added by the side that is to move.

* `Game.Call`, `Game.after`, `Game.Reachable`: the calls and the games they lead to;
* `Game.committed`, `Game.thought`: a game after an accepted move, and after a slice of thinking;
* `Game.tryPlace_cases`, `Game.tick_cases`: all that placing a stone and a slice of thinking can do;
* `Game.exists_answer`: given enough time the engine moves in its turn;
* `Game.Orderly`: the invariant: an engine that calls lead to, on the mode's side, and no message;
* `Game.Orderly.after`, `Game.Orderly.history_after`: every call keeps it, and what a call does to
  the game;
* `Game.Reachable.exists_answered`, `Game.Reachable.exists_placed`: how a running game against the
  engine goes on;
* `Game.turn_discipline`: the discipline of every game.
-/

namespace FiveInRow

namespace Game

variable {g : Game} {c : Cell}

/-! ### Calls -/

/-- What can be asked of a game. -/
inductive Call
  | tryPlace (c : Cell)
  | tick (updates : ℕ)
  | undo
  | reset
  | restart (mode : Mode)
  | setLevel (level : ℕ)

/-- The game after a call. -/
def after (g : Game) : Call → Game
  | .tryPlace c => (g.tryPlace c).state
  | .tick updates => (g.tick updates).state
  | .undo => g.undo.state
  | .reset => g.reset
  | .restart mode => g.restart mode
  | .setLevel level => { g with engine := g.engine.setLevel level }

/-- The games that calls lead to from a new game. Without a seed nothing is known of the words that
the search draws. -/
inductive Reachable : Game → Prop
  | new (mode : Mode) (config : Config) : Reachable (new mode config)
  | call {g : Game} (k : Call) (h : Reachable g) : Reachable (g.after k)
  | reseed {g : Game} (rng : Xoshiro) (h : Reachable g) (hs : g.engine.config.seed = none) :
      Reachable { g with engine := { g.engine with tree := { g.engine.tree with rng } } }

/-- The moves of a game, the first one first. -/
def history (g : Game) : List Move := g.engine.board.history

/-! ### Moves -/

/-- The game after an accepted move. -/
def committed (g : Game) (c : Cell) : Game :=
  { g with engine := (g.engine.playCell c).state, message := none, thinking := {} }

lemma commit_eq (ha : g.engine.board.accepts c = true) : (g.commit c).state = g.committed c := by
  have hresult : (g.engine.playCell c).result = true := by
    rw [Engine.playCell, if_pos ha]
  rw [commit, hresult]
  rfl

lemma history_committed (ha : g.engine.board.accepts c = true) :
    (g.committed c).history = g.history ++ [⟨c, g.turn⟩] := by
  show (g.engine.playCell c).state.board.history = _
  rw [Engine.playCell, if_pos ha]
  exact Board.history_place _ _ _

/-- **All that placing a stone can do**: it is refused, or it is accepted in the human player's
turn. -/
lemma tryPlace_cases (g : Game) (c : Cell) :
    (∃ r, (g.tryPlace c).result = .error r ∧ g.after (.tryPlace c) = g) ∨
      (g.tryPlace c).result = .ok () ∧ g.isHumanTurn = true ∧
        g.engine.board.accepts c = true ∧ g.after (.tryPlace c) = g.committed c := by
  rw [after, tryPlace]
  cases hrefusal : g.refusal? c with
  | some r => exact .inl ⟨r, rfl, rfl⟩
  | none =>
      rw [refusal?] at hrefusal
      split_ifs at hrefusal with hover hturn hfree
      rw [Bool.not_eq_true'] at hturn hfree
      rw [Bool.not_eq_false] at hturn hfree
      have ha : g.engine.board.accepts c = true := by
        rw [Board.accepts, Bool.and_eq_true, Bool.not_eq_true']
        exact ⟨Bool.not_eq_true _ ▸ hover, hfree⟩
      exact .inr ⟨rfl, hturn, ha, commit_eq ha⟩

/-! ### Thinking -/

/-- The game after a slice of thinking, before the engine moves. -/
def thought (g : Game) (updates : ℕ) : Game :=
  { g with
    engine := (g.engine.think updates).state
    thinking := g.thinking.add ((g.engine.think updates).result.toOption.getD {}) }

lemma board_thought (g : Game) (updates : ℕ) :
    (g.thought updates).engine.board = g.engine.board := by
  obtain ⟨tree, effort, events, hthink⟩ := g.engine.exists_think updates
  rw [thought, hthink]

lemma isOver_thought (g : Game) (updates : ℕ) : (g.thought updates).isOver = g.isOver :=
  congrArg Board.isOver (g.board_thought updates)

lemma isEngineTurn_thought (g : Game) (updates : ℕ) :
    (g.thought updates).isEngineTurn = g.isEngineTurn := by
  have hturn : (g.thought updates).turn = g.turn :=
    congrArg Board.sideToMove (g.board_thought updates)
  rw [isEngineTurn, isEngineTurn, isHumanTurn, isHumanTurn, isOver_thought, hturn]
  rfl

lemma history_thought_committed (updates : ℕ) (ha : g.engine.board.accepts c = true) :
    ({ g.thought updates with timed := true }.committed c).history =
      g.history ++ [⟨c, g.turn⟩] := by
  have hboard := g.board_thought updates
  rw [history_committed (by rwa [hboard]), history, turn, hboard]
  rfl

/-- The engine is to move in a running game that it plays, whenever the human player is not. -/
lemma isEngineTurn_iff : g.isEngineTurn = true ↔
    ∃ human, g.mode = .versusEngine human ∧ g.isOver = false ∧ some g.turn ≠ human := by
  rw [isEngineTurn, isHumanTurn]
  cases g.mode with
  | versusEngine human =>
      dsimp only
      rw [Bool.and_eq_true, Bool.not_eq_true', Bool.not_eq_true', decide_eq_false_iff_not]
      constructor
      · rintro ⟨hrun, hother⟩
        exact ⟨human, rfl, hrun, hother⟩
      · rintro ⟨_, ⟨⟩, hrun, hother⟩
        exact ⟨hrun, hother⟩
  | twoPlayers analysis =>
      constructor
      · rintro ⟨⟩
      · rintro ⟨_, ⟨⟩, -⟩

/-- While the search runs, a slice of thinking is followed by the move that the engine decides on, if
it is its turn. -/
lemma after_tick_eq (hsearch : g.isSearching = true) (updates : ℕ) :
    g.after (.tick updates) =
      match if g.isEngineTurn then (g.thought updates).engine.decide? else none with
      | none => g.thought updates
      | some c => ({ g.thought updates with timed := true }.commit c).state := by
  obtain ⟨tree, effort, events, hthink⟩ := g.engine.exists_think updates
  have hthought : g.thought updates =
      { g with engine := { g.engine with tree }, thinking := g.thinking.add effort } := by
    rw [thought, hthink]
    rfl
  have hturn := g.isEngineTurn_thought updates
  rw [hthought] at hturn ⊢
  rw [after, tick, hsearch, hthink, Bool.not_true, if_neg Bool.false_ne_true, ← hturn]
  dsimp only
  split
  · next hdecision => rw [hdecision]
  · next c hdecision => rw [hdecision]

/-- **All that a slice of thinking can do**: nothing, if the search does not run; or it thinks about
a running game; or it also plays an accepted move, if it is the engine's turn. -/
lemma tick_cases (h : g.engine.Reachable) (updates : ℕ) :
    g.isSearching = false ∧ g.after (.tick updates) = g ∨
      g.isOver = false ∧ (g.after (.tick updates) = g.thought updates ∨
        ∃ c, g.isEngineTurn = true ∧ g.engine.board.accepts c = true ∧
          g.after (.tick updates) = { g.thought updates with timed := true }.committed c) := by
  cases hsearch : g.isSearching with
  | false =>
      refine .inl ⟨rfl, ?_⟩
      rw [after, tick, hsearch]
      rfl
  | true =>
      have hrun : g.isOver = false := by
        rw [isSearching, Bool.and_eq_true, Bool.not_eq_true'] at hsearch
        exact hsearch.1
      have hstep : (g.thought updates).engine.InStep := (h.call (.think updates)).inStep
      refine .inr ⟨hrun, ?_⟩
      rw [after_tick_eq hsearch]
      split
      · exact .inl rfl
      · next c hdecide =>
          split_ifs at hdecide with hown
          have ha := hstep.accepts_of_decide? hdecide
          refine .inr ⟨c, hown, ?_, commit_eq ha⟩
          rwa [board_thought] at ha

/-- **The engine answers**: in its turn it adds a move of the shortlist, if it is given enough
time. -/
lemma exists_answer (h : g.engine.Reachable) (hturn : g.isEngineTurn = true) :
    ∃ updates, ∃ c ∈ g.engine.board.shortlist (some g.turn),
      (g.after (.tick updates)).history = g.history ++ [⟨c, g.turn⟩] := by
  obtain ⟨human, hmode, hrun, -⟩ := isEngineTurn_iff.mp hturn
  have hsearch : g.isSearching = true := by
    rw [isSearching, hrun, hmode]
    rfl
  let needed := 361 * 1000 * (g.engine.level * g.engine.level)
  let updates := max g.engine.config.threshold (needed + 1)
  obtain ⟨c, hc, hdecide⟩ := h.supplied.exists_decision h.inStep.played
    (Board.isOver_eq_false_iff.mp hrun) (le_max_left g.engine.config.threshold (needed + 1))
    ((Nat.lt_succ_self needed).trans_le (le_max_right g.engine.config.threshold (needed + 1)))
  have ha : (g.thought updates).engine.board.accepts c = true :=
    (h.call (.think updates)).inStep.accepts_of_decide? hdecide
  have hdecided : (g.thought updates).engine.decide? = some c := hdecide
  have hcommit : g.after (.tick updates) = { g.thought updates with timed := true }.committed c := by
    rw [after_tick_eq hsearch, if_pos hturn, hdecided]
    exact commit_eq ha
  refine ⟨updates, c, hc, ?_⟩
  rw [hcommit, history_thought_committed updates (by rwa [← g.board_thought updates])]

/-! ### Taking moves back -/

/-- An engine of the same run, for the same side, with moves of the game taken back. -/
structure Rewound (e e' : Engine) : Prop where
  reachable : e'.Reachable
  side : e'.side = e.side
  history : e'.board.history <+: e.board.history

lemma rewound_undo {e : Engine} (h : e.Reachable) : Rewound e e.undo.state := by
  refine ⟨h.call .undo, ?_, ?_⟩
  · rw [Engine.undo]
    split <;> rfl
  · rw [Engine.undo]
    cases hundo : e.board.undo? with
    | none => exact List.prefix_rfl
    | some board =>
        obtain ⟨c, color, -, -, hlast⟩ := h.inStep.played.of_undo? hundo
        rw [hlast, Board.history_place]
        exact List.prefix_append _ _

lemma rewound_undoUntil {e : Engine} (h : e.Reachable) (human : Option Color) (events : List Event)
    (bound : ℕ) : Rewound e (undoUntil human e events bound).1 := by
  induction bound generalizing e events with
  | zero => exact ⟨h, rfl, List.prefix_rfl⟩
  | succ bound ih =>
      rw [undoUntil]
      dsimp only
      split_ifs
      · exact ⟨h, rfl, List.prefix_rfl⟩
      · have hundo := rewound_undo h
        have hrest := ih hundo.reachable (events ++ e.undo.events)
        exact ⟨hrest.reachable, hrest.side.trans hundo.side, hrest.history.trans hundo.history⟩
      · exact ⟨h, rfl, List.prefix_rfl⟩

/-- All that taking back can do: nothing, or it takes moves back and begins to think anew. -/
lemma undo_cases (h : g.engine.Reachable) :
    g.after .undo = g ∨ ∃ engine, Rewound g.engine engine ∧
      g.after .undo = { g with engine, message := none, thinking := {} } := by
  have hundo := rewound_undo h
  rw [after, undo]
  dsimp only
  split_ifs
  · right
    cases hmode : g.mode with
    | versusEngine human =>
        have hrest := rewound_undoUntil hundo.reachable human g.engine.undo.events
          g.engine.undo.state.board.stoneCount
        exact ⟨_, ⟨hrest.reachable, hrest.side.trans hundo.side,
          hrest.history.trans hundo.history⟩, rfl⟩
    | twoPlayers analysis => exact ⟨_, hundo, rfl⟩
  · exact .inl rfl

/-! ### Every call -/

/-- Only starting over changes the mode. -/
lemma mode_after (h : g.engine.Reachable) {k : Call} (hk : ∀ mode, k ≠ .restart mode) :
    (g.after k).mode = g.mode := by
  cases k with
  | tryPlace c =>
      obtain ⟨r, -, hsame⟩ | ⟨-, -, -, hcommit⟩ := tryPlace_cases g c
      · rw [hsame]
      · rw [hcommit]
        rfl
  | tick updates =>
      obtain ⟨-, hsame⟩ | ⟨-, hthink | ⟨c, -, -, hcommit⟩⟩ := tick_cases h updates
      · rw [hsame]
      · rw [hthink]
        rfl
      · rw [hcommit]
        rfl
  | undo =>
      obtain hsame | ⟨engine, -, hundo⟩ := undo_cases h
      · rw [hsame]
      · rw [hundo]
  | reset => rfl
  | restart mode => exact absurd rfl (hk mode)
  | setLevel level => rfl

/-- A game is in order: its engine is one that calls lead to, it searches for the mode's side, and
there is nothing to tell the player. -/
structure Orderly (g : Game) : Prop where
  engine : g.engine.Reachable
  side : g.engine.side = g.mode.engineSide
  message : g.message = none

lemma side_playCell (e : Engine) (c : Cell) : (e.playCell c).state.side = e.side := by
  rw [Engine.playCell]
  split_ifs <;> rfl

lemma Orderly.committed (h : Orderly g) (c : Cell) : Orderly (g.committed c) := by
  refine ⟨?_, (side_playCell g.engine c).trans h.side, rfl⟩
  show (g.engine.playCell c).state.Reachable
  rw [← Engine.after_ofMove_eq g.engine ⟨c, .black⟩]
  exact h.engine.call _

lemma Orderly.thought (h : Orderly g) (updates : ℕ) : Orderly (g.thought updates) := by
  obtain ⟨tree, effort, events, hthink⟩ := g.engine.exists_think updates
  refine ⟨h.engine.call (.think updates), ?_, h.message⟩
  rw [Game.thought, hthink]
  exact h.side

/-- **Every call keeps the game in order.** -/
lemma Orderly.after (h : Orderly g) (k : Call) : Orderly (g.after k) := by
  cases k with
  | tryPlace c =>
      obtain ⟨r, -, hsame⟩ | ⟨-, -, -, hcommit⟩ := tryPlace_cases g c
      · rwa [hsame]
      · rw [hcommit]
        exact h.committed c
  | tick updates =>
      have hthought := h.thought updates
      obtain ⟨-, hsame⟩ | ⟨-, hthink | ⟨c, -, -, hcommit⟩⟩ := tick_cases h.engine updates
      · rwa [hsame]
      · rwa [hthink]
      · have htimed : Orderly { g.thought updates with timed := true } :=
          ⟨hthought.engine, hthought.side, hthought.message⟩
        rw [hcommit]
        exact htimed.committed c
  | undo =>
      obtain hsame | ⟨engine, hrewound, hundo⟩ := undo_cases h.engine
      · rwa [hsame]
      · rw [hundo]
        exact ⟨hrewound.reachable, hrewound.side.trans h.side, rfl⟩
  | reset => exact ⟨h.engine.call .reset, h.side, rfl⟩
  | restart mode =>
      refine ⟨(h.engine.call (.setSide mode.engineSide)).call .reset, ?_, rfl⟩
      show (g.engine.setSide mode.engineSide).side = mode.engineSide
      rw [Engine.setSide]
      split_ifs with hside
      · exact hside.symm
      · rfl
  | setLevel level => exact ⟨h.engine.call (.setLevel level), h.side, h.message⟩

theorem Reachable.orderly (h : Reachable g) : Orderly g := by
  induction h with
  | new mode config => exact ⟨.new mode.engineSide config, rfl, rfl⟩
  | call k _ ih => exact ih.after k
  | reseed rng _ hs ih => exact ⟨ih.engine.reseed rng hs, ih.side, ih.message⟩

/-- The call places a stone on the cell for a human player, and the game says so. -/
def Places (g : Game) (k : Call) (c : Cell) : Prop :=
  k = .tryPlace c ∧ (g.tryPlace c).result = .ok ()

/-- The calls that may add a move. Against the engine the stones of the human player's colour are
placed, and those of the other colour come with thinking; two players place all stones. -/
def MayAdd (g : Game) (k : Call) (m : Move) : Prop :=
  match g.mode with
  | .versusEngine human =>
    if some m.color = human then g.Places k m.cell else ∃ updates, k = .tick updates
  | .twoPlayers _ => g.Places k m.cell

/-- **What placing a stone does to the game**: nothing, and the refusal is told; or it adds the
stone. -/
lemma history_tryPlace (g : Game) (c : Cell) :
    (∃ r, (g.tryPlace c).result = .error r ∧ g.after (.tryPlace c) = g) ∨
      (g.after (.tryPlace c)).history = g.history ++ [⟨c, g.turn⟩] ∧
        g.MayAdd (.tryPlace c) ⟨c, g.turn⟩ := by
  obtain hrefused | ⟨hresult, hturn, ha, hcommit⟩ := tryPlace_cases g c
  · exact .inl hrefused
  · refine .inr ⟨by rw [hcommit, history_committed ha], ?_⟩
    rw [isHumanTurn] at hturn
    rw [MayAdd]
    cases hmode : g.mode with
    | versusEngine human =>
        rw [hmode, decide_eq_true_eq] at hturn
        exact (if_pos hturn).mpr ⟨rfl, hresult⟩
    | twoPlayers analysis => exact ⟨rfl, hresult⟩

/-- **What a slice of thinking does to the game**: nothing, or it adds a stone of a running game. -/
lemma Orderly.history_tick (h : Orderly g) (updates : ℕ) :
    (g.after (.tick updates)).engine.board = g.engine.board ∨
      ∃ c, (g.after (.tick updates)).history = g.history ++ [⟨c, g.turn⟩] ∧
        g.isEngineTurn = true ∧ g.MayAdd (.tick updates) ⟨c, g.turn⟩ := by
  obtain ⟨-, hsame⟩ | ⟨-, hthink | ⟨c, hturn, ha, hcommit⟩⟩ := tick_cases h.engine updates
  · exact .inl (by rw [hsame])
  · exact .inl (by rw [hthink, g.board_thought])
  · have hadd : (g.after (.tick updates)).history = g.history ++ [⟨c, g.turn⟩] := by
      rw [hcommit, history_thought_committed updates ha]
    obtain ⟨human, hmode, -, hother⟩ := isEngineTurn_iff.mp hturn
    refine .inr ⟨c, hadd, hturn, ?_⟩
    rw [MayAdd, hmode]
    exact (if_neg hother).mpr ⟨updates, rfl⟩

/-- **What a call does to the game**: it takes moves back, or none, or it adds one that it may
add. -/
lemma Orderly.history_after (h : Orderly g) (k : Call) :
    (g.after k).history <+: g.history ∨
      ∃ m, (g.after k).history = g.history ++ [m] ∧ g.MayAdd k m := by
  cases k with
  | tryPlace c =>
      obtain ⟨r, -, hsame⟩ | hadd := history_tryPlace g c
      · exact .inl (by rw [hsame])
      · exact .inr ⟨_, hadd⟩
  | tick updates =>
      obtain hsame | ⟨c, hadd, -, hmay⟩ := h.history_tick updates
      · exact .inl (by rw [history, history, hsame])
      · exact .inr ⟨_, hadd, hmay⟩
  | undo =>
      obtain hsame | ⟨engine, hrewound, hundo⟩ := undo_cases h.engine
      · exact .inl (by rw [hsame])
      · rw [hundo]
        exact .inl hrewound.history
  | reset => exact .inl List.nil_prefix
  | restart mode => exact .inl List.nil_prefix
  | setLevel level => exact .inl List.prefix_rfl

/-! ### How a game goes on -/

/-- The board of a game is the replay of its moves. -/
lemma Reachable.board_eq (h : Reachable g) : g.engine.board = Board.replay g.history :=
  h.orderly.engine.inStep.played.replay_history.symm

/-- A running game against the engine goes on where the human player is not to move: the engine adds
a move of the shortlist. -/
lemma Reachable.exists_answered {human : Option Color} {moves : List Move} (h : Reachable g)
    (hmode : g.mode = .versusEngine human) (hmoves : g.history = moves)
    (hrun : (Board.replay moves).isOver = false)
    (hturn : some (Board.replay moves).sideToMove ≠ human) :
    ∃ g' c, Reachable g' ∧ g'.mode = .versusEngine human ∧
      c ∈ (Board.replay moves).shortlist (some (Board.replay moves).sideToMove) ∧
      g'.history = moves ++ [⟨c, (Board.replay moves).sideToMove⟩] := by
  have hboard : g.engine.board = Board.replay moves := hmoves ▸ h.board_eq
  have hown : g.isEngineTurn = true := by
    refine isEngineTurn_iff.mpr ⟨human, hmode, ?_, ?_⟩
    · rwa [isOver, hboard]
    · rwa [turn, hboard]
  obtain ⟨updates, c, hc, hadd⟩ := exists_answer h.orderly.engine hown
  have hkept := mode_after h.orderly.engine (k := .tick updates) fun _ hk => by cases hk
  rw [turn, hboard] at hc hadd
  exact ⟨_, c, h.call (.tick updates), hkept.trans hmode, hc, hmoves ▸ hadd⟩

/-- And where the human player is to move, a stone can be placed on any empty cell. -/
lemma Reachable.exists_placed {human : Option Color} {moves : List Move} {c : Cell}
    (h : Reachable g) (hmode : g.mode = .versusEngine human) (hmoves : g.history = moves)
    (hrun : (Board.replay moves).isOver = false)
    (hturn : some (Board.replay moves).sideToMove = human)
    (hfree : (Board.replay moves).isEmptyAt c = true) :
    ∃ g', Reachable g' ∧ g'.mode = .versusEngine human ∧
      g'.history = moves ++ [⟨c, (Board.replay moves).sideToMove⟩] := by
  have hboard : g.engine.board = Board.replay moves := hmoves ▸ h.board_eq
  have hhuman : g.isHumanTurn = true := by
    rw [isHumanTurn, hmode, turn, hboard]
    exact decide_eq_true hturn
  have hallowed : g.refusal? c = none := by
    rw [refusal?, isOver, hhuman, hboard, hrun, hfree]
    rfl
  have hkept := mode_after h.orderly.engine (k := .tryPlace c) fun _ hk => by cases hk
  obtain ⟨r, hrefused, -⟩ | ⟨hadd, -⟩ := history_tryPlace g c
  · rw [tryPlace, hallowed] at hrefused
    cases hrefused
  · rw [turn, hboard, hmoves] at hadd
    exact ⟨_, h.call (.tryPlace c), hkept.trans hmode, hadd⟩

/-! ### The discipline -/

/-- **The discipline of a game.** Whatever has been called, nothing is told to the player, the
engine searches for the mode's side, and the colours take turns, black first. A call takes moves
back, or it adds at most one stone, which is the human player's to place or the engine's to find.
Thinking adds none for two players. After the game is over, neither placing nor thinking changes
anything, and no refused stone ever does; one that is not refused stands on its cell. -/
theorem turn_discipline (h : Reachable g) :
    g.message = none ∧ g.engine.side = g.mode.engineSide ∧
    (∀ i m, g.history[i]? = some m → m.color = if i % 2 = 0 then .black else .white) ∧
    (∀ k, (g.after k).history <+: g.history ∨
      ∃ m, (g.after k).history = g.history ++ [m] ∧ g.MayAdd k m) ∧
    (∀ analysis updates, g.mode = .twoPlayers analysis →
      (g.after (.tick updates)).engine.board = g.engine.board) ∧
    (g.isOver = true → ∀ c updates, g.after (.tryPlace c) = g ∧ g.after (.tick updates) = g) ∧
    ∀ c, (∀ r, (g.tryPlace c).result = .error r → g.after (.tryPlace c) = g) ∧
      ((g.tryPlace c).result = .ok () →
        (g.after (.tryPlace c)).history = g.history ++ [⟨c, g.turn⟩]) := by
  have ho := h.orderly
  refine ⟨ho.message, ho.side, ho.engine.inStep.turns.color_eq.1, ho.history_after,
    fun analysis updates hmode => ?_, fun hover c updates => ⟨?_, ?_⟩,
    fun c => ⟨fun r hr => ?_, fun hr => ?_⟩⟩
  · obtain hsame | ⟨c, -, hturn, -⟩ := ho.history_tick updates
    · exact hsame
    · obtain ⟨human, hversus, -⟩ := isEngineTurn_iff.mp hturn
      rw [hmode] at hversus
      cases hversus
  · obtain ⟨r, -, hsame⟩ | ⟨-, -, ha, -⟩ := tryPlace_cases g c
    · exact hsame
    · rw [isOver, Board.isOver_eq_false_iff.mpr (Board.accepts_iff.mp ha).1] at hover
      cases hover
  · obtain ⟨-, hsame⟩ | ⟨hrun, -⟩ := tick_cases ho.engine updates
    · exact hsame
    · rw [hrun] at hover
      cases hover
  · obtain ⟨r, -, hsame⟩ | ⟨hok, -⟩ := tryPlace_cases g c
    · exact hsame
    · rw [hok] at hr
      cases hr
  · obtain ⟨r, herror, -⟩ | ⟨hadd, -⟩ := history_tryPlace g c
    · rw [herror] at hr
      cases hr
    · exact hadd

/-- The human player has opened in the middle, so white, the engine, is to move. -/
def opened : Game := (new .usual {}).after (.tryPlace ⟨180⟩)

/-- The human player cannot place a stone for white, and a second stone comes with thinking only. -/
theorem turn_discipline_opened :
    opened.history = [⟨⟨180⟩, .black⟩] ∧ opened.message = none ∧
      opened.engine.side = some .white ∧ opened.after (.tryPlace ⟨200⟩) = opened ∧
      ∀ k m, (opened.after k).history = [⟨⟨180⟩, .black⟩, m] →
        m.color = .white ∧ ∃ updates, k = .tick updates := by
  have hr : Reachable opened := (Reachable.new .usual {}).call _
  have hhistory : opened.history = [⟨⟨180⟩, .black⟩] := by decide +kernel
  have hrefusal : opened.refusal? ⟨200⟩ = some .notYourTurn := by decide +kernel
  obtain ⟨hmessage, hside, -, hcalls, -, -, hplace⟩ := turn_discipline hr
  have hrefused : (opened.tryPlace ⟨200⟩).result = .error .notYourTurn := by
    rw [tryPlace, hrefusal]
    rfl
  refine ⟨hhistory, hmessage, hside, (hplace ⟨200⟩).1 _ hrefused, fun k m hm => ?_⟩
  obtain ⟨-, -, hcolors, -⟩ := turn_discipline (hr.call k)
  have hwhite : m.color = .white := hcolors 1 m (by rw [hm]; rfl)
  refine ⟨hwhite, ?_⟩
  obtain hback | ⟨m', hadd, hmay⟩ := hcalls k
  · have hlength := hback.length_le
    rw [hm, hhistory] at hlength
    exact absurd hlength (by simp)
  · rw [hm, hhistory] at hadd
    obtain rfl : m = m' := by simpa using hadd
    have hother : some m.color ≠ some .black := by rw [hwhite]; decide
    exact (if_neg hother).mp hmay

end Game

end FiveInRow
