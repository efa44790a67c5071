import FiveInRow.Search.Tree

/-!
Moving the root to the move that was played.

* `Tree.childAt?`: the child of the root at a cell;
* `Tree.abandon`: leave a part of the tree behind, as the pruning settings say;
* `Tree.advance`: the move becomes the root and keeps what was learnt below it;
* `Tree.advanceTo`: the same from coordinates that a caller gives.
-/

namespace FiveInRow

namespace Tree

/-- The child of the root at a cell. -/
def childAt? (t : Tree) (c : Cell) : Option NodeId :=
  t.rootNode.children.find? fun id => (t.node id).cell = some c

/-- Leave a part of the tree behind. -/
def abandon (t : Tree) (id : NodeId) : Tree :=
  match t.config.pruning with
  | .none => t
  | .hard => { t with arena := (t.arena.freeTree id).2 }
  | .soft _ => { t with garbage := t.garbage.push id }

/-- Cut a child off its parent. -/
def detach (t : Tree) (parent child : NodeId) : Tree :=
  let arena := t.arena.modify parent fun n => { n with children := n.children.filter (· ≠ child) }
  { t with arena := arena.modify child fun n => { n with parent := none } }

/-- What is told about the new root. -/
def advanceEvent (c : Cell) (kept : Option Nat) : Event :=
  let place := "(" ++ toString c.x ++ ", " ++ toString c.y ++ ")"
  ⟨.detail, match kept with
    | some visits => "re-rooted at " ++ place ++ " keeping " ++ toString visits ++ " visits"
    | none => "move " ++ place ++ " was never explored, starting a fresh root"⟩

/-- Make the move on `c` the root. An explored move keeps the tree below it, another one starts
without any; the rest is left behind. -/
def advance (t : Tree) (c : Cell) : Reply Tree Unit :=
  let old := t.root
  match t.childAt? c with
  | some id =>
    let visits := (t.node id).visits
    ⟨{ t.detach old id with root := id }.abandon old, (), [advanceEvent c (some visits)]⟩
  | none =>
    let color := Color.after t.rootNode.color
    let (id, arena) := t.arena.alloc { cell := some c, color := some color }
    ⟨{ t with arena, root := id }.abandon old, (), [advanceEvent c none]⟩

/-- Make the move at given coordinates the root. -/
def advanceTo (t : Tree) (x y : Int) : Reply Tree (Except SearchError Unit) :=
  match Cell.ofCoordinates x y with
  | .error e => Reply.quiet t (.error (.move e))
  | .ok c =>
    let r := t.advance c
    ⟨r.state, .ok r.result, r.events⟩

end Tree

end FiveInRow
