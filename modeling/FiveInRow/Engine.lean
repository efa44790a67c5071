import FiveInRow.Search.Query

/-!
A board with the search tree of its position.

* `Engine.think`: so many updates of the tree;
* `Engine.decide?`: the move to play, once the search has seen enough;
* `Engine.play`, `Engine.undo`, `Engine.reset`: the moves of a game, with the tree kept in step.
-/

namespace FiveInRow

/-- A game and the search that follows it. -/
structure Engine where
  board : Board
  tree : Tree
  /-- The colour that the search plays for. -/
  side : Option Color
  /-- From one, the weakest, to five. -/
  level : Nat
  config : Config

/-- The work of thinking. The updates are assumed to stay below 2 ^ 32 and the games below 2 ^ 64:
neither count wraps around. -/
structure Effort where
  updates : Nat := 0
  games : Nat := 0
  deriving DecidableEq, Repr

/-- Effort adds up. -/
def Effort.add (e f : Effort) : Effort := ⟨e.updates + f.updates, e.games + f.games⟩

namespace Engine

/-- A new game. -/
def new (side : Option Color) (config : Config) : Engine where
  board := Board.empty
  tree := Tree.fresh side config
  side := side
  level := 2
  config := config

/-- Choose a level between one and five. -/
def setLevel (e : Engine) (level : Nat) : Engine := { e with level := max 1 (min level 5) }

/-- Whether the game is running and the search's side is to move. -/
def isOwnTurn (e : Engine) : Bool := !e.board.isOver && some e.board.sideToMove = e.side

/-- A new tree for the board. -/
def rebuild (e : Engine) : Engine := { e with tree := Tree.ofBoard e.board e.side e.config }

/-- Let the search play for a colour. What it has learnt for another one is dropped. -/
def setSide (e : Engine) (side : Option Color) : Engine :=
  if side = e.side then e else { e with side }.rebuild

/-- Update the tree `count` times and add the effort to `done`. A finished game needs no thought,
and an error ends it. -/
def thinkOn (e : Engine) (done : Effort) (events : List Event) :
    Nat → Reply Engine (Except SearchError Effort)
  | 0 => ⟨e, .ok done, events⟩
  | count + 1 =>
    let r := e.tree.update e.board
    let e := { e with tree := r.state }
    let events := events ++ r.events
    match r.result with
    | .error error => ⟨e, .error error, events⟩
    | .ok 0 => ⟨e, .ok done, events⟩
    | .ok games => e.thinkOn (done.add ⟨1, games⟩) events count

/-- Update the tree `count` times, unless the game is over. -/
def think (e : Engine) (count : Nat) : Reply Engine (Except SearchError Effort) :=
  e.thinkOn {} [] count

/-- The best move of the side to move, once the search has seen enough for the level. -/
def decide? (e : Engine) : Option Cell :=
  if e.board.isOver || !e.tree.isReady e.level then none else e.tree.best?.map (·.cell)

/-- How a status is named in the log. -/
def statusName : Status Color → String
  | .inProgress => "InProgress"
  | .draw => "Draw"
  | .win .black => "Win(Black)"
  | .win .white => "Win(White)"

/-- How a colour is named in the log. -/
def colorName : Color → String
  | .black => "Black"
  | .white => "White"

/-- What is told about a move. -/
def playEvent (color : Color) (c : Cell) (games : Nat) (status : Status Color) : Event :=
  ⟨.info, colorName color ++ " plays (" ++ toString c.x ++ ", " ++ toString c.y ++ ") after " ++
    toString games ++ " playouts, status " ++ statusName status⟩

/-- Play a cell for the side to move. The result says whether the rules accepted it. -/
def playCell (e : Engine) (c : Cell) : Reply Engine Bool :=
  let color := e.board.sideToMove
  if e.board.accepts c then
    let board := e.board.place c color
    let r := e.tree.advance c
    let tree := r.state
    ⟨{ e with board, tree }, true, r.events ++ [playEvent color c tree.games board.status]⟩
  else
    Reply.quiet e false

/-- Play at coordinates for the side to move. -/
def play (e : Engine) (x y : Int) : Reply Engine (Except SearchError Bool) :=
  match Cell.ofCoordinates x y with
  | .error error => Reply.quiet e (.error (.move error))
  | .ok c =>
    let r := e.playCell c
    ⟨r.state, .ok r.result, r.events⟩

/-- Take back the last move; the tree starts anew. The result says whether there was one. -/
def undo (e : Engine) : Reply Engine Bool :=
  match e.board.undo? with
  | none => Reply.quiet e false
  | some board =>
    ⟨{ e with board }.rebuild, true,
      [⟨.info, "move taken back, " ++ toString board.stoneCount ++ " stones left"⟩]⟩

/-- Start a new game. -/
def reset (e : Engine) : Engine := { e with board := Board.empty }.rebuild

end Engine

end FiveInRow
