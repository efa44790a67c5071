import FiveInRow.Grid.CellSet
import FiveInRow.Board.Status
import FiveInRow.Board.Threats

/-!
The board: stones, result and history, with two caches that every move keeps up to date, the
frontier of cells next to a stone and the threats of all cells.

* `Board.accepts`, `Board.place`: whether a cell can be played, and the board after playing it;
* `Board.play?`, `Board.attempt`: play a cell if it is accepted;
* `Board.move`: the same from coordinates that a caller gives, with the errors of `MoveError`;
* `Board.undo?`: take back the last move;
* `Board.replay`: the board after a history.
-/

namespace FiveInRow

/-- A stone that was played. -/
structure Move where
  cell : Cell
  color : Color
  deriving DecidableEq, Repr

/-- Why a move could not be asked for. A move that the rules refuse is not an error. -/
inductive MoveError
  | offBoard (x y : Int)
  | noColor
  deriving DecidableEq, Repr

/-- What a caller is told. -/
def MoveError.message : MoveError → String
  | offBoard x y => "coordinate (" ++ toString x ++ ", " ++ toString y ++
      ") is outside the 19x19 board"
  | noColor => "cannot place an empty stone"

/-- The cell at coordinates that a caller gives. -/
def Cell.ofCoordinates (x y : Int) : Except MoveError Cell :=
  match Cell.at? x y with
  | some c => .ok c
  | none => .error (.offBoard x y)

/-- A game: the position and how it came about. -/
structure Board where
  stones : Stones
  threats : Threats
  /-- The cells that are worth considering. -/
  frontier : CellSet
  status : Status Color
  /-- The moves, the last one first. -/
  moves : List Move
  deriving DecidableEq

namespace Board

/-- A new game. Only the middle of the board is worth considering. -/
def empty : Board where
  stones := Stones.empty
  threats := Threats.empty
  frontier := CellSet.empty.put Cell.center true
  status := .inProgress
  moves := []

/-- The colour on a cell. -/
@[inline] def get (b : Board) (c : Cell) : Option Color := b.stones.get c

/-- Whether a cell is empty. -/
@[inline] def isEmptyAt (b : Board) (c : Cell) : Bool := b.stones.isEmpty c

/-- The moves in the order in which they were played. -/
def history (b : Board) : List Move := b.moves.reverse

/-- The last move. -/
def last? (b : Board) : Option Move := b.moves.head?

/-- The number of stones. -/
def stoneCount (b : Board) : Nat := b.moves.length

/-- The colour to move when colours alternate. -/
def sideToMove (b : Board) : Color := Color.after (b.last?.map (·.color))

/-- Whether the game has ended. -/
@[inline] def isOver (b : Board) : Bool := b.status.isOver

/-- The frontier in index order. -/
def available (b : Board) : List Cell := b.frontier.toList

/-- How strong a shape a colour makes on a cell; nobody makes none. -/
def attackOf (b : Board) (c : Cell) : Option Color → Priority
  | some color => b.threats.attackOf c color
  | none => Priority.none

/-- How much a colour stops by playing on a cell; nobody stops nothing. -/
def defenceOf (b : Board) (c : Cell) : Option Color → Priority
  | some color => b.threats.defenceOf c color
  | none => Priority.none

/-! ### Playing a cell -/

/-- Where a stone stands at distance two on a ray, the first empty cell behind it. -/
def behind? (s : Stones) : List Cell → Option Cell
  | _ :: b :: far => if s.isEmpty b then none else far.find? s.isEmpty
  | _ => none

/-- How far along a line a pattern can see a new stone, at most. -/
def refreshReach : Nat := 4

/-- Of the cells of a ray of seven, nearest first, those to be evaluated again after a stone was
placed at its start, in this order: the empty ones within reach, with the one behind a
stone at distance two in front of those that are farther away. -/
def awakened (s : Stones) (ray : List Cell) : List Cell :=
  match behind? s ray with
  | none => (ray.take refreshReach).filter s.isEmpty
  | some behind =>
    (ray.take 1).filter s.isEmpty ++
      behind :: ((ray.take refreshReach).drop 2).filter fun d => s.isEmpty d && d ≠ behind

/-- The cells of a ray that join the frontier after a stone was placed at its start. -/
def joining (s : Stones) (ray : List Cell) : List Cell :=
  (ray.take 1).filter s.isEmpty ++ (behind? s ray).toList

/-- The eight rays of seven cells that leave a cell. -/
def rays (c : Cell) : List (List Cell) :=
  Direction.all.flatMap fun d =>
    let (dx, dy) := d.step
    [c.ray (dx, dy) 7, c.ray (-dx, -dy) 7]

/-- The threats after a stone was placed on `c`; `s` holds the stone. Last come the anchors of the
patterns that could be stopped on `c`, as far as they were not seen on a ray. -/
def reevaluate (s : Stones) (t : Threats) (c : Cell) : Threats :=
  let seen := (rays c).flatMap (awakened s)
  let stale := ((t.anchorsAt c).filter fun a => a ∉ c :: seen).eraseDups
  (seen ++ stale).foldl (Threats.refresh s) (t.occupy c)

/-- The frontier after a stone was placed on `c`: its empty neighbours join, and behind a stone at
distance two the first empty cell. -/
def widen (s : Stones) (frontier : CellSet) (c : Cell) : CellSet :=
  ((rays c).flatMap (joining s)).foldl (fun f a => f.put a true) frontier

/-- Whether a cell can be played: the game is running and the cell is empty. -/
@[inline] def accepts (b : Board) (c : Cell) : Bool := !b.isOver && b.isEmptyAt c

/-- The board after `color` played on `c`. Five in a row on a line through `c` win, and a full
board is drawn; a finished game keeps the threats and, but for `c`, the frontier of the position
before. -/
def place (b : Board) (c : Cell) (color : Color) : Board :=
  let stones := b.stones.put c color
  let moves := ⟨c, color⟩ :: b.moves
  -- the first move drops the middle of the board, wherever the move is
  let frontier := if b.moves.isEmpty then CellSet.empty else b.frontier.put c false
  if stones.hasFive c color then
    { stones, threats := b.threats, frontier, status := .win color, moves }
  else if moves.length = 361 then
    { stones, threats := b.threats, frontier, status := .draw, moves }
  else
    { stones, threats := reevaluate stones b.threats c, frontier := widen stones frontier c,
      status := b.status, moves }

/-- Play a cell, unless the rules refuse it. -/
def play? (b : Board) (c : Cell) (color : Color) : Option Board :=
  if b.accepts c then some (b.place c color) else none

/-- Let a colour play a cell. The flag says whether the rules accepted the move; nobody's move is
never accepted. -/
def attempt (b : Board) (c : Cell) (color : Option Color) : Bool × Board :=
  match color with
  | some color => if b.accepts c then (true, b.place c color) else (false, b)
  | none => (false, b)

/-- Play at coordinates. The flag of a success says whether the rules accepted the move. -/
def move (b : Board) (x y : Int) (color : Option Color) : Except MoveError (Bool × Board) :=
  match Cell.ofCoordinates x y with
  | .error e => .error e
  | .ok c => if color.isNone then .error .noColor else .ok (b.attempt c color)

/-- The board after a list of moves, oldest first; refused moves are skipped. -/
def playAll (b : Board) (moves : List Move) : Board :=
  moves.foldl (fun b m => if b.accepts m.cell then b.place m.cell m.color else b) b

/-- The board after a history. -/
def replay (history : List Move) : Board := empty.playAll history

/-- Take back the last move by replaying the others. -/
def undo? (b : Board) : Option Board :=
  match b.moves with
  | [] => none
  | _ :: earlier => some (replay earlier.reverse)

/-! ### Room for more stones -/

/-- The number of empty cells. -/
def room (b : Board) : Nat := b.stones.room

theorem stones_place (b : Board) (c : Cell) (color : Color) :
    (b.place c color).stones = b.stones.put c color := by
  simp only [place]
  split
  · rfl
  · split <;> rfl

theorem room_place {b : Board} {c : Cell} (h : b.accepts c = true) (color : Color) :
    (b.place c color).room < b.room := by
  have he : b.stones.isEmpty c = true := by
    simp only [accepts, Bool.and_eq_true] at h
    exact h.2
  have := Stones.room_put he color
  simp only [room, stones_place]
  omega

end Board

end FiveInRow
