import FiveInRow.Playout.Batch
import FiveInRow.Search.Arena
import FiveInRow.Search.Config

/-!
The search tree of a position. An update walks down from the root, has the position it arrives at
judged, and credits the result to every node on the way; a leaf behind which there are enough games
gets one child for every move of the shortlist.

* `Tree.ofRoot`, `Tree.ofBoard`: a tree with a single node;
* `Tree.selectionScore`, `Tree.pickChild`: which child an update walks to;
* `Tree.descend`: the walk, which ends because every step takes a cell of the board's room;
* `Tree.sweep`: one round of freeing what was left behind;
* `Tree.updateWith`, `Tree.update`: one update, with any judge of positions and with batches of
  playouts.
-/

namespace FiveInRow

/-- A search tree and the state of its search. -/
structure Tree where
  config : Config
  arena : Arena
  root : NodeId
  /-- The colour whose results the search adds up. -/
  side : Option Color
  rng : Xoshiro
  /-- The parts of the tree that the game has left behind and that wait to be freed. -/
  garbage : Queue NodeId

namespace Tree

/-- A tree with only a root, the given move. -/
def ofRoot (root : Node) (side : Option Color) (config : Config) : Tree :=
  let (id, arena) := Arena.empty.alloc root
  { config, arena, root := id, side, rng := Xoshiro.ofSeed (config.seed.getD 0),
    garbage := Queue.empty }

/-- The tree of a new game. -/
def fresh (side : Option Color) (config : Config) : Tree := ofRoot Node.blank side config

/-- The node that a board stands for: its last move. -/
def rootOf (b : Board) : Node :=
  match b.last? with
  | some m => { cell := some m.cell, color := some m.color }
  | none => Node.blank

/-- The tree of a position. -/
def ofBoard (b : Board) (side : Option Color) (config : Config) : Tree :=
  ofRoot (rootOf b) side config

/-- A node of the tree. -/
@[inline] def node (t : Tree) (id : NodeId) : Node := t.arena.get id

/-- The root. -/
def rootNode (t : Tree) : Node := t.node t.root

/-! ### The walk from the root to a leaf -/

/-- How promising a child is after `visits` visits of its parent: its average and a term that
shrinks with its own visits; an unvisited child counts the visits of its parent. -/
def selectionScore (t : Tree) (child : Node) (visits : Nat) : Float32 :=
  let exploration :=
    if child.visits = 0 ∨ visits = 0 then Float32.ofNat visits
    else ((Float32.ofNat visits).log / (Float32.ofNat child.visits).sqrt).sqrt
  let bonus := if child.decisive then t.config.bonus else 0
  child.average + exploration + bonus

/-- The node with the highest score, the last of several; none if no score compares. -/
def lastBest? (score : NodeId → Float32) (ids : List NodeId) : Option NodeId :=
  (ids.foldl (fun best id =>
    let s := score id
    if best.2 ≤ s then (some id, s) else best) (none, -1.0 / 0.0)).1

/-- The child that an update walks to; `first` and `rest` are all children. A node that was never
visited sends the walk to its first child. Otherwise a random child is picked with the chance
`Config.noise`, and else the most promising one. -/
def pickChild (t : Tree) (visits : Nat) (first : NodeId) (rest : List NodeId) :
    Draw Xoshiro NodeId := do
  let children := first :: rest
  if visits = 0 then
    return first
  else if (← Draw.fraction) < t.config.noise visits then
    return (← Draw.pick? children).getD first
  else
    return (lastBest? (fun id => t.selectionScore (t.node id) visits) children).getD first

/-- Where a walk arrived. -/
structure Arrival where
  leaf : NodeId
  /-- The nodes above the leaf, the root last. -/
  above : List NodeId
  board : Board
  rng : Xoshiro
  warnings : List Event

/-- What is told about a move of the tree that the board refuses. -/
def illegalMove (c : Cell) : Event :=
  ⟨.warning, "tree move (" ++ toString c.x ++ ", " ++ toString c.y ++
    ") is illegal on the search board"⟩

/-- Walk from the node `id`, which stands for the board `b`, down to a leaf, and play the moves on
the way. The walk also ends on a move that the board refuses. -/
def descend (t : Tree) (b : Board) (id : NodeId) (above : List NodeId) (rng : Xoshiro) : Arrival :=
  let n := t.node id
  match n.children with
  | [] => ⟨id, above, b, rng, []⟩
  | first :: rest =>
    let (child, rng) := t.pickChild n.visits first rest rng
    let below := t.node child
    match below.cell, below.color with
    | none, _ => ⟨child, id :: above, b, rng, []⟩
    | some c, none => ⟨child, id :: above, b, rng, [illegalMove c]⟩
    | some c, some color =>
      if h : b.accepts c = true then
        have := Board.room_place h color
        t.descend (b.place c color) child (id :: above) rng
      else
        ⟨child, id :: above, b, rng, [illegalMove c]⟩
termination_by b.room

/-! ### Updates -/

/-- Free what was left behind, within the budget of soft pruning. The result counts the nodes. -/
def sweep (t : Tree) : Nat × Tree :=
  match t.config.pruning with
  | .soft budget =>
    let (freed, garbage, arena) := t.arena.freeQueued t.garbage budget
    (freed, { t with arena, garbage })
  | .none | .hard => (0, t)

/-- Credit a result to the leaf of a walk and to every node above it. -/
def credit (t : Tree) (path : List NodeId) (value : Float32) (games : Nat) : Tree :=
  { t with arena := path.foldl (fun a id => a.modify id (Node.credit t.side value games)) t.arena }

/-- Give a leaf one child for every move of the shortlist of its position `b`. -/
def expand (t : Tree) (leaf : NodeId) (b : Board) : Tree :=
  let color := Color.after (t.node leaf).color
  let moves := (b.shortlist (some color)).map fun c =>
    { cell := some c, color := some color, parent := some leaf : Node }
  let (children, arena) := t.arena.allocAll moves
  { t with arena := arena.modify leaf fun n => { n with children } }

/-- A judge of undecided positions: from the position, the colour that moved last and a seed to the
value for the side of the search. -/
abbrev Judge := Board → Option Color → UInt64 → Except SearchError Float32 × List Event

/-- The last part of an update: the walk arrived, and the position's value and the games behind it
are known. -/
def conclude (t : Tree) (a : Arrival) (value : Float32) (games : Nat) : Tree :=
  let t := t.credit (a.leaf :: a.above) value games
  let leaf := t.node a.leaf
  if !a.board.isOver && leaf.isLeaf && t.config.threshold ≤ leaf.games then
    t.expand a.leaf a.board
  else
    t

/-- One update from the board that the root stands for. The result counts the games that it took;
a finished game takes none. -/
def updateWith (judge : Judge) (t : Tree) (b : Board) : Reply Tree (Except SearchError Nat) :=
  let t := t.sweep.2
  if b.isOver then
    Reply.quiet t (.ok 0)
  else
    let a := t.descend b t.root [] t.rng
    if a.board.isOver then
      let t := { t with rng := a.rng }
      let t :=
        if a.board.status.winner?.isSome then
          { t with arena := t.arena.modify a.leaf fun n => { n with decisive := true } }
        else
          t
      ⟨t.conclude a ((a.board.status.map some).value t.side) 1, .ok 1, a.warnings⟩
    else
      let (seed, rng) := WordSource.next a.rng
      let last := (t.node a.leaf).color
      let t := { t with rng }
      match judge a.board last seed with
      | (.error e, events) => ⟨t, .error e, a.warnings ++ events⟩
      | (.ok value, events) =>
        ⟨t.conclude a value t.config.games, .ok t.config.games, a.warnings ++ events⟩

/-- One update in which batches of playouts judge the positions. -/
def update (t : Tree) (b : Board) : Reply Tree (Except SearchError Nat) :=
  t.updateWith (fun b last seed => b.batchValue last t.side t.config.games seed) b

end Tree

end FiveInRow
