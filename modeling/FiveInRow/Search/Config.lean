/-!
The settings of the tree search.

* `Pruning`: what happens to nodes that can no longer be reached;
* `Config`: all settings, with their usual values;
* `Config.withThreads`, `Config.withPruning`: settings that are kept within their limits.
-/

namespace FiveInRow

/-- What happens to a part of the tree that the game has left behind. -/
inductive Pruning
  /-- It stays. -/
  | none
  /-- It is freed at once. -/
  | hard
  /-- It is queued, and every update frees at most `budget` nodes. -/
  | soft (budget : Nat)
  deriving DecidableEq, Repr

/-- Soft pruning with the usual budget. -/
def Pruning.usual : Pruning := .soft 4096

/-- The settings of a search. -/
structure Config where
  /-- The games a leaf needs before it is expanded. -/
  threshold : Nat := 32
  /-- The playouts of a batch. -/
  threads : Nat := 1
  /-- The visits of a node after which its children are no longer picked at random. -/
  horizon : Float := 500000
  /-- What a child that ends the game gains in selection. -/
  bonus : Float32 := 100
  pruning : Pruning := Pruning.usual
  /-- The seed of the search's generator; without one it is zero. -/
  seed : Option UInt64 := .none

namespace Config

/-- Set the playouts of a batch, at least one and at most 24. -/
def withThreads (c : Config) (threads : Nat) : Config :=
  { c with threads := max 1 (min threads 24) }

/-- Set the pruning. A soft budget is at least one, since less would never free anything. -/
def withPruning (c : Config) (pruning : Pruning) : Config :=
  { c with
    pruning := match pruning with
      | .soft budget => .soft (max budget 1)
      | other => other }

/-- The chance that a child of a node with so many visits is picked at random: it falls from one to
zero on the way to the horizon. -/
def noise (c : Config) (visits : Nat) : Float :=
  if c.horizon > 0 then 1 - min (Float.ofNat visits / c.horizon) 1 else 0

/-- The playouts that a batch really has, assumed to be fewer than 2 ^ 32. -/
def games (c : Config) : Nat := max c.threads 1

end Config

end FiveInRow
