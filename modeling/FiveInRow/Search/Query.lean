import FiveInRow.Search.Reroot

/-!
What a search tree knows.

* `MoveStats`: a move with its results;
* `Tree.candidates`: the moves below the root;
* `Tree.best?`: the move with the best average;
* `Tree.lineFrom`: the expected course of the game after a move;
* `Tree.isReady`: whether the search has seen enough to decide.
-/

namespace FiveInRow

/-- A move of the tree with its results. -/
structure MoveStats where
  cell : Cell
  color : Option Color
  average : Float32
  visits : Nat
  /-- How promising the move is for the next update. -/
  selection : Float32

namespace Tree

/-- The results of a node that is a move. -/
def stats? (n : Node) (selection : Float32) : Option MoveStats :=
  n.cell.map fun c =>
    { cell := c, color := n.color, average := n.average, visits := n.visits, selection }

/-- The moves below the root. -/
def candidates (t : Tree) : List MoveStats :=
  let visits := t.rootNode.visits
  t.rootNode.children.filterMap fun id =>
    let n := t.node id
    stats? n (t.selectionScore n visits)

/-- The candidate with the best average, the first of several. -/
def best? (t : Tree) : Option MoveStats :=
  t.candidates.foldl (fun best s =>
    match best with
    | some b => if b.average ≥ s.average then best else some s
    | none => some s) none

/-- The line of best averages that starts with the node `id`, for at most `bound` moves. -/
def lineBelow (t : Tree) : Nat → NodeId → List MoveStats
  | 0, _ => []
  | bound + 1, id =>
    let n := t.node id
    (stats? n 0).toList ++
      match lastBest? (fun child => (t.node child).average) n.children with
      | some next => t.lineBelow bound next
      | none => []

/-- The expected course of the game after the candidate at a cell: always on to the child with the
best average, the last of several. An update reaches at most 361 moves deep and adds nodes one move
below, so no line is longer than 362 moves. -/
def lineFrom (t : Tree) (c : Cell) : List MoveStats :=
  match t.childAt? c with
  | some id => t.lineBelow 362 id
  | none => []

/-- The games behind the root. -/
def games (t : Tree) : Nat := t.rootNode.games

/-- The number of candidates. -/
def candidateCount (t : Tree) : Nat := t.rootNode.children.length

/-- The number of nodes, with those that wait to be freed. -/
def nodeCount (t : Tree) : Nat := t.arena.live

/-- The number of parts of the tree that wait to be freed. -/
def pending (t : Tree) : Nat := t.garbage.length

/-- Whether the search has seen enough for a level: with one candidate always, otherwise after a
thousand games for each candidate, times the square of the level. -/
def isReady (t : Tree) (level : Nat) : Bool :=
  t.candidateCount = 1 ||
    (0 < t.candidateCount && t.candidateCount * 1000 * (level * level) < t.games)

end Tree

end FiveInRow
