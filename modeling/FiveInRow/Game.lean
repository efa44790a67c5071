import FiveInRow.Board.WinningLine
import FiveInRow.Engine

/-!
A game as a viewer runs it: who plays, when the engine searches and moves, and what the player is
told.

* `Mode`: who plays;
* `Game.tick`: a slice of thinking, after which the engine may move;
* `Game.tryPlace`: a stone of the human player, or why there is none;
* `Game.undo`: take moves back until the human player is to move;
* `Game.candidates`, `Game.expectedLine`: what the search thinks.
-/

namespace FiveInRow

/-- Who plays. -/
inductive Mode
  /-- A human player against the engine. -/
  | versusEngine (human : Option Color)
  /-- Two human players; the search may run along. -/
  | twoPlayers (analysis : Bool)
  deriving DecidableEq, Repr

/-- The mode of the first game: the human player has black. -/
def Mode.usual : Mode := .versusEngine (some .black)

/-- The colour that the engine searches for. -/
def Mode.engineSide : Mode → Option Color
  | versusEngine human => human.map Color.other
  | twoPlayers _ => some .black

/-- Why a stone cannot be placed. -/
inductive Refusal
  | gameOver
  | notYourTurn
  | occupied
  deriving DecidableEq, Repr

/-- What the player is told. -/
def Refusal.message : Refusal → String
  | gameOver => "Game is over"
  | notYourTurn => "Not your turn"
  | occupied => "Cell is occupied"

/-- A running game. -/
structure Game where
  engine : Engine
  mode : Mode
  /-- Something to tell the player. -/
  message : Option String
  /-- The work for the move that is being thought about. -/
  thinking : Effort
  /-- Whether the engine has moved, so that the time of its last move is known. -/
  timed : Bool

namespace Game

/-- A new game. -/
def new (mode : Mode) (config : Config) : Game where
  engine := Engine.new mode.engineSide config
  mode := mode
  message := none
  thinking := {}
  timed := false

/-- Start over. -/
def reset (g : Game) : Game :=
  { g with engine := g.engine.reset, message := none, thinking := {}, timed := false }

/-- Start over in a mode; the level stays. -/
def restart (g : Game) (mode : Mode) : Game :=
  { g with mode, engine := g.engine.setSide mode.engineSide }.reset

/-- The colour to move. -/
def turn (g : Game) : Color := g.engine.board.sideToMove

/-- Whether the game has ended. -/
def isOver (g : Game) : Bool := g.engine.board.isOver

/-- Whether the colour to move is a human player's. -/
def isHumanTurn (g : Game) : Bool :=
  match g.mode with
  | .versusEngine human => some g.turn = human
  | .twoPlayers _ => true

/-- Whether the engine is to move. -/
def isEngineTurn (g : Game) : Bool :=
  match g.mode with
  | .versusEngine _ => !g.isOver && !g.isHumanTurn
  | .twoPlayers _ => false

/-- Whether the search runs: always against the engine, and otherwise for analysis. -/
def isSearching (g : Game) : Bool :=
  !g.isOver &&
    match g.mode with
    | .versusEngine _ => true
    | .twoPlayers analysis => analysis

/-- Play a move and begin to think about the next one. -/
def commit (g : Game) (c : Cell) : Reply Game Unit :=
  let r := g.engine.playCell c
  let g := { g with engine := r.state }
  if r.result then
    ⟨{ g with message := none, thinking := {} }, (), r.events⟩
  else
    ⟨{ g with message := some "Move rejected" }, (), r.events⟩

/-- A slice of `updates` updates, and then the engine's move, if it is the engine's turn and it has
decided. -/
def tick (g : Game) (updates : Nat) : Reply Game Unit :=
  if !g.isSearching then
    Reply.quiet g ()
  else
    let r := g.engine.think updates
    let g := { g with engine := r.state }
    match r.result with
    | .error e =>
      ⟨{ g with message := some ("Search failed: " ++ e.message) }, (),
        r.events ++ [⟨.error, "search failed: " ++ e.message⟩]⟩
    | .ok effort =>
      let g := { g with thinking := g.thinking.add effort }
      let decision := if g.isEngineTurn then g.engine.decide? else none
      match decision with
      | none => ⟨g, (), r.events⟩
      | some c =>
        let s := { g with timed := true }.commit c
        ⟨s.state, (), r.events ++ s.events⟩

/-- Why the human player cannot place a stone on a cell. -/
def refusal? (g : Game) (c : Cell) : Option Refusal :=
  if g.isOver then some .gameOver
  else if !g.isHumanTurn then some .notYourTurn
  else if !g.engine.board.isEmptyAt c then some .occupied
  else none

/-- Place a stone for the human player. -/
def tryPlace (g : Game) (c : Cell) : Reply Game (Except Refusal Unit) :=
  match g.refusal? c with
  | some r => Reply.quiet g (.error r)
  | none =>
    let r := g.commit c
    ⟨r.state, .ok (), r.events⟩

/-- Take back moves until `human` is to move or none is left, but at most `bound` moves. -/
def undoUntil (human : Option Color) (e : Engine) (events : List Event) :
    Nat → Engine × List Event
  | 0 => (e, events)
  | bound + 1 =>
    if some e.board.sideToMove = human then (e, events)
    else
      let r := e.undo
      if r.result then undoUntil human r.state (events ++ r.events) bound
      else (e, events)

/-- Take back the last move, and against the engine go on until the human player is to move. -/
def undo (g : Game) : Reply Game Unit :=
  let r := g.engine.undo
  if r.result then
    let (engine, events) :=
      match g.mode with
      | .versusEngine human => undoUntil human r.state r.events r.state.board.stoneCount
      | .twoPlayers _ => (r.state, r.events)
    ⟨{ g with engine, message := none, thinking := {} }, (), events⟩
  else
    ⟨g, (), r.events⟩

/-- The place of a number in the total order of floats, in which minus zero lies below zero. -/
def floatKey (x : Float32) : Int :=
  let bits := x.toBits.toNat
  if bits < 0x80000000 then bits else 0x7fffffff - bits

/-- The candidates for the side to move, the best average first; equal ones keep their order. -/
def candidates (g : Game) : List MoveStats :=
  g.engine.tree.candidates.mergeSort fun a b => floatKey b.average ≤ floatKey a.average

/-- The expected course of the game after the best candidate. -/
def expectedLine (g : Game) : List MoveStats :=
  match g.candidates with
  | [] => []
  | best :: _ => g.engine.tree.lineFrom best.cell

/-- The cells that decided the game. -/
def winningLine? (g : Game) : Option (List Cell) := g.engine.board.winningLine?

/-- The cell of the last move. -/
def last? (g : Game) : Option Cell := g.engine.board.last?.map (·.cell)

/-- The winner. -/
def winner? (g : Game) : Option Color := g.engine.board.status.winner?

/-- Whether the game is drawn. -/
def isDraw (g : Game) : Bool := g.engine.board.status = .draw

end Game

end FiveInRow
