import FiveInRow.Viewer.Basic

/-!
The texts around the board.

* `Viewer.modeText`: the text at the right of the menu bar;
* `Viewer.panel`: the texts of the side panel from top to bottom. What depends on the clock is left
  open, and so is what depends on how far a running search has come.
-/

namespace FiveInRow

/-- A text of the side panel. -/
inductive PanelText
  /-- Words. -/
  | words (s : String)
  /-- The time since the side to move got the turn. -/
  | turnTime
  /-- The time that the engine's last move took. -/
  | engineTime
  /-- A number from the search. -/
  | count (n : Nat)
  deriving DecidableEq, Repr

namespace Viewer

/-- The name of a colour, or a dash for nobody. -/
def colorText : Option Color → String
  | some .black => "BLACK"
  | some .white => "WHITE"
  | none => "-"

/-- Who plays. -/
def modeText (v : Viewer) : String :=
  match v.game.mode with
  | .versusEngine human => "PvE - You: " ++ colorText human
  | .twoPlayers true => "PvP - Analysis"
  | .twoPlayers false => "PvP - Hotseat"

/-- What the player waits for. -/
def statusText (v : Viewer) : String :=
  if v.game.isOver then "Game over"
  else if v.game.isEngineTurn then "AI thinking..."
  else "Your turn"

/-- The side to move and its time. -/
def turnCard (v : Viewer) : List PanelText :=
  [.words (colorText (some v.game.turn)), .words v.statusText, .turnTime] ++
    if v.game.timed then [.engineTime] else []

/-- The level. -/
def levelCard (v : Viewer) : List PanelText :=
  [.words "AI LEVEL", .words (toString v.game.engine.level)]

/-- How far the search is. -/
def searchCard (v : Viewer) : List PanelText :=
  let t := v.game.engine.tree
  [.words "SEARCH", .words "Playouts", .count t.games, .words "Candidates",
   .count t.candidateCount, .words "Nodes", .count t.nodeCount, .words "Updates this move",
   .count v.game.thinking.updates]

/-- The buttons and the number of moves. -/
def actionsCard (v : Viewer) : List PanelText :=
  [.words "ACTIONS", .words Button.undo.label, .words Button.newGame.label,
   .words ("Move #" ++ toString v.game.engine.board.stoneCount)]

/-- The result of a finished game. -/
def headline? (v : Viewer) : Option String :=
  match v.game.winner? with
  | some c => some (colorText (some c) ++ " WINS!")
  | none => if v.game.isDraw then some "DRAW" else none

/-- The card of a finished game. -/
def overCard (v : Viewer) : List PanelText :=
  match v.headline? with
  | some s => [.words "GAME OVER", .words s, .words Button.newGame.label]
  | none => []

/-- The texts of the side panel from top to bottom. -/
def panel (v : Viewer) : List PanelText :=
  .words "GOMOKU" :: v.turnCard ++ v.levelCard ++ v.searchCard ++ v.actionsCard ++ v.overCard

end Viewer

end FiveInRow
