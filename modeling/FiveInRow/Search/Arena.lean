import FiveInRow.Search.Node
import FiveInRow.Search.Queue

/-!
The store of nodes. Freed slots are used again, the last freed one first.

* `Arena.alloc`: store a node;
* `Arena.release`: free one slot and hand out the children that hung on it;
* `Arena.freeTree`: free a node and everything below it;
* `Arena.freeQueued`: free at most so many nodes from the front of a queue, whose back takes
  the children.

Releasing a node takes its children off the count `Arena.links`, which is why `freeTree` ends.
-/

namespace FiveInRow

/-- Nodes by slot, and the slots that are free. -/
structure Arena where
  nodes : Array Node
  free : List NodeId

namespace Arena

/-- No nodes. -/
def empty : Arena := ⟨#[], []⟩

/-- The node in a slot; a freed slot still shows its last move. A slot that was never used shows a
node without a move. -/
def get (a : Arena) (id : NodeId) : Node := (a.nodes[id]?).getD Node.blank

/-- Change the node in a slot. -/
@[inline] def modify (a : Arena) (id : NodeId) (f : Node → Node) : Arena :=
  { a with nodes := a.nodes.modify id f }

/-- Store a node. -/
def alloc (a : Arena) (n : Node) : NodeId × Arena :=
  match a.free with
  | id :: free => (id, ⟨a.nodes.setIfInBounds id n, free⟩)
  | [] => (a.nodes.size, { a with nodes := a.nodes.push n })

/-- Store nodes one after another. -/
def allocAll (a : Arena) : List Node → List NodeId × Arena
  | [] => ([], a)
  | n :: rest =>
    let (id, a) := a.alloc n
    let (ids, a) := a.allocAll rest
    (id :: ids, a)

/-- The number of slots in use. -/
def live (a : Arena) : Nat := a.nodes.size - a.free.length

/-- Free one slot; its children are handed out. -/
def release (a : Arena) (id : NodeId) : List NodeId × Arena :=
  let children := (a.get id).children
  let a := a.modify id fun n => { n with children := [], parent := none }
  (children, { a with free := id :: a.free })

/-- How many children all nodes have together. -/
def links (a : Arena) : Nat := (a.nodes.toList.map (·.children.length)).foldr (· + ·) 0

theorem sum_modify (f : Node → Node) (h : ∀ n, (f n).children = []) (l : List Node) (i : Nat) :
    ((l.modify i f).map (·.children.length)).foldr (· + ·) 0 +
        ((l[i]?).getD Node.blank).children.length =
      (l.map (·.children.length)).foldr (· + ·) 0 := by
  induction l generalizing i with
  | nil => simp [Node.blank]
  | cons n l ih =>
    cases i with
    | zero =>
      simp [h]
      omega
    | succ i =>
      have := ih i
      simp only [List.modify_succ_cons, List.map_cons, List.foldr_cons, List.getElem?_cons_succ]
      omega

theorem links_release (a : Arena) (id : NodeId) :
    (a.release id).2.links + (a.release id).1.length = a.links := by
  have := sum_modify (fun n => { n with children := [], parent := none }) (fun _ => rfl)
    a.nodes.toList id
  simpa [links, release, modify, get] using this

/-- Free the nodes of a stack and everything below them; how many these are is added to `freed`. -/
def freeStack (a : Arena) (stack : List NodeId) (freed : Nat) : Nat × Arena :=
  match stack with
  | [] => (freed, a)
  | id :: rest =>
    let released := a.release id
    released.2.freeStack (released.1.reverse ++ rest) (freed + 1)
termination_by a.links + stack.length
decreasing_by
  have := links_release a id
  simp only [List.length_append, List.length_reverse, List.length_cons]
  omega

/-- Free a node and everything below it. The result counts the freed nodes. -/
def freeTree (a : Arena) (root : NodeId) : Nat × Arena := a.freeStack [root] 0

/-- Free nodes from the front of a queue, at most `budget` of them; how many were freed is added to
`freed`. -/
def freeQueuedFrom (a : Arena) (queue : Queue NodeId) : Nat → Nat → Nat × Queue NodeId × Arena
  | 0, freed => (freed, queue, a)
  | budget + 1, freed =>
    match queue.pop? with
    | none => (freed, queue, a)
    | some (id, queue) =>
      let (children, a) := a.release id
      a.freeQueuedFrom (queue.pushAll children) budget (freed + 1)

/-- Free at most `budget` nodes from the front of a queue. The result counts the freed nodes and
holds what is left of the queue. -/
def freeQueued (a : Arena) (queue : Queue NodeId) (budget : Nat) : Nat × Queue NodeId × Arena :=
  a.freeQueuedFrom queue budget 0

end Arena

end FiveInRow
