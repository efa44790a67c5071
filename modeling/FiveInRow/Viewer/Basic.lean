import FiveInRow.Game
import FiveInRow.View.Picture

/-!
The application around a game: what its menus, keys, buttons and its board do.

* `Viewer.frame`: one frame, in which the search gets a slice of thinking;
* `Viewer.choose`, `Viewer.press`, `Viewer.push`, `Viewer.click`: the controls;
* `Viewer.overlay`: what the board shows besides the stones;
* `Viewer.hovered?`: the cell on which the pointer previews a stone.
-/

namespace FiveInRow

/-- An entry of the menu of games. -/
inductive GameEntry
  | newGame (mode : Mode)
  | undo
  deriving DecidableEq, Repr

/-- An entry of the menu of views. -/
inductive ViewEntry
  | candidates
  | expected
  deriving DecidableEq, Repr

/-- A button of the side panel. -/
inductive Button
  | undo
  | newGame
  deriving DecidableEq, Repr

namespace GameEntry

/-- The entries from top to bottom. -/
def all : List GameEntry :=
  [newGame (.versusEngine (some .black)), newGame (.versusEngine (some .white)),
   newGame (.twoPlayers false), newGame (.twoPlayers true), undo]

/-- What an entry says. -/
def label : GameEntry → String
  | newGame (.versusEngine (some .black)) => "New Game (PvE - Black)"
  | newGame (.versusEngine (some .white)) => "New Game (PvE - White)"
  | newGame (.versusEngine none) => "New Game (PvE)"
  | newGame (.twoPlayers false) => "New Game (PvP)"
  | newGame (.twoPlayers true) => "New Game (PvP + analysis)"
  | undo => "Undo (U)"

end GameEntry

namespace ViewEntry

/-- The entries from top to bottom. -/
def all : List ViewEntry := [candidates, expected]

/-- What an entry says. -/
def label : ViewEntry → String
  | candidates => "Candidates (C)"
  | expected => "Predicted line (P)"

end ViewEntry

namespace Button

/-- What a button says. -/
def label : Button → String
  | undo => "Undo"
  | newGame => "New game"

end Button

/-- The application. -/
structure Viewer where
  game : Game
  showCandidates : Bool
  showExpected : Bool
  /-- The cell under the pointer. -/
  pointer : Option Cell

namespace Viewer

/-- The application as it starts. -/
def new (config : Config) : Viewer where
  game := Game.new Mode.usual config
  showCandidates := true
  showExpected := false
  pointer := none

/-- Move the pointer to a cell, or away from the board. -/
def pointAt (v : Viewer) (c : Option Cell) : Viewer := { v with pointer := c }

/-- One frame, in which the search is given so many updates. -/
def frame (v : Viewer) (updates : Nat) : Viewer :=
  { v with game := (v.game.tick updates).state }

/-- Take back a move. -/
def undo (v : Viewer) : Viewer := { v with game := v.game.undo.state }

/-- Show the candidates or hide them. -/
def toggleCandidates (v : Viewer) : Viewer := { v with showCandidates := !v.showCandidates }

/-- Show the expected line or hide it. -/
def toggleExpected (v : Viewer) : Viewer := { v with showExpected := !v.showExpected }

/-- Choose an entry of the menu of games. -/
def choose (v : Viewer) : GameEntry → Viewer
  | .newGame mode => { v with game := v.game.restart mode }
  | .undo => v.undo

/-- Choose an entry of the menu of views. -/
def toggle (v : Viewer) : ViewEntry → Viewer
  | .candidates => v.toggleCandidates
  | .expected => v.toggleExpected

/-- Whether an entry of the menu of views is checked. -/
def isChecked (v : Viewer) : ViewEntry → Bool
  | .candidates => v.showCandidates
  | .expected => v.showExpected

/-- Push a button of the side panel. -/
def push (v : Viewer) : Button → Viewer
  | .undo => v.undo
  | .newGame => { v with game := v.game.reset }

/-- Press a key; most keys mean nothing. -/
def press (v : Viewer) (key : String) : Viewer :=
  if key = "C" then v.toggleCandidates
  else if key = "P" then v.toggleExpected
  else if key = "U" then v.undo
  else if key = "N" then v.push .newGame
  else v

/-- Move the level slider. -/
def setLevel (v : Viewer) (level : Nat) : Viewer :=
  { v with game := { v.game with engine := v.game.engine.setLevel level } }

/-- Whether a click can place a stone. -/
def acceptsStones (v : Viewer) : Bool := !v.game.isOver && v.game.isHumanTurn

/-- The empty cell under the pointer, where a click places a stone. -/
def hovered? (v : Viewer) : Option Cell :=
  v.pointer.filter fun c => v.acceptsStones && v.game.engine.board.isEmptyAt c

/-- Click where the pointer is. -/
def click (v : Viewer) : Viewer :=
  match v.hovered? with
  | some c => { v with game := (v.game.tryPlace c).state }
  | none => v

/-- What the board shows besides the stones. -/
def overlay (v : Viewer) : Overlay where
  candidates :=
    if v.showCandidates && !v.game.isOver then v.game.candidates.take Theme.maxCandidates else []
  expected :=
    if v.showExpected && !v.game.isOver then v.game.expectedLine.take Theme.maxExpected else []
  winning := v.game.winningLine?

end Viewer

end FiveInRow
