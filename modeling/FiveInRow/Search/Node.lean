import FiveInRow.Color
import FiveInRow.Grid.Cell

/-!
The nodes of a search tree. A node is a move and what the search has learnt about it.

* `Node.average`: the mean result of the visits;
* `Node.packed`: the move as one number;
* `Node.credit`: count one more visit.
-/

namespace FiveInRow

/-- The name of a node: its slot in the store of nodes. Names are numbers below 2 ^ 32; no store is
assumed to outgrow them. -/
abbrev NodeId := Nat

/-- A move in the search tree. -/
structure Node where
  /-- The cell that was played; none at the start of a game. -/
  cell : Option Cell
  /-- The colour that played it. -/
  color : Option Color
  /-- The updates that passed through the node, assumed to stay below 2 ^ 32: the count never wraps
  around. -/
  visits : Nat := 0
  /-- The games behind those visits, assumed to stay below 2 ^ 32 as well. -/
  games : Nat := 0
  /-- The sum of their results, from the point of view of the node's colour. -/
  score : Float32 := 0
  /-- Whether the move ends the game. -/
  decisive : Bool := false
  children : List NodeId := []
  parent : Option NodeId := none

namespace Node

/-- A node without a move: the start of a game. -/
def blank : Node := { cell := none, color := none }

/-- The number of a colour in `packed`. -/
def colorNumber : Option Color → Nat
  | none => 0
  | some .black => 1
  | some .white => 2

/-- Column, row and colour in one number; a missing cell counts as column and row 255. -/
def packed (n : Node) : Nat :=
  let (x, y) := match n.cell with
    | some c => (c.x, c.y)
    | none => (255, 255)
  x + y <<< 8 + colorNumber n.color <<< 16

/-- The mean result of the visits, zero without any. -/
def average (n : Node) : Float32 :=
  if n.visits = 0 then 0 else n.score / Float32.ofNat n.visits

/-- Whether the node has no children. -/
def isLeaf (n : Node) : Bool := n.children.isEmpty

/-- Count a visit whose games were worth `value` to `side`. -/
def credit (side : Option Color) (value : Float32) (games : Nat) (n : Node) : Node :=
  { n with
    score := n.score + (if n.color = side then value else -value)
    visits := n.visits + 1
    games := n.games + games }

/-- Equality as numbers compare: a score that is no number differs from itself. -/
def same (m n : Node) : Bool :=
  m.cell = n.cell && m.color = n.color && m.visits = n.visits && m.games = n.games &&
  m.score == n.score && m.decisive = n.decisive && m.children = n.children && m.parent = n.parent

end Node

end FiveInRow
