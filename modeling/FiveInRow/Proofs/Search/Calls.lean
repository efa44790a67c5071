import Mathlib.Tactic
import FiveInRow.Proofs.Search.Forest
import FiveInRow.Search.Query

/-!
A search tree under any calls. The boards that updates are given need not fit the tree, so nothing
is known of positions here; what is known is which slots of the store are in use, and for what.

* `Tree.Call`, `Tree.after`: the calls and the trees they lead to;
* `Tree.Run`: a run of calls, with the roots that it left behind and the number of nodes that it
  stored;
* `Tree.below_descend`: a walk stays in the tree, whatever the board;
* `Tree.exists_alike_updateWith`: what an update does to the store;
* `Tree.Orderly`: the invariant: the root, the queue and what was left behind are the roots of a
  forest;
* `Tree.Orderly.after`, `Tree.Run.orderly`: every call keeps it;
* `Tree.slots_exact`: what each slot is used for, and how many are in use.
-/

namespace FiveInRow

namespace Tree

/-- What a caller can ask of a search tree. -/
inductive Call
  | update (b : Board)
  | judged (judge : Judge) (b : Board)
  | advance (x y : ℤ)
  | sweep

/-- The batches of playouts that judge the positions of an update. -/
def playouts (t : Tree) : Judge := fun b last seed => b.batchValue last t.side t.config.games seed

/-- The tree after a call. A call that fails leaves the tree as it was. -/
def after (t : Tree) : Call → Tree
  | .update b => (t.update b).state
  | .judged judge b => (t.updateWith judge b).state
  | .advance x y => (t.advanceTo x y).state
  | .sweep => t.sweep.2

/-- The children that the leaf of an update's walk has gained. -/
def hatched (t : Tree) (judge : Judge) (b : Board) : ℕ :=
  let leaf := (t.sweep.2.descend b t.sweep.2.root [] t.sweep.2.rng).leaf
  ((t.updateWith judge b).state.node leaf).children.length - (t.sweep.2.node leaf).children.length

/-- The nodes that a call stores: an update those that hatch, and a move to the root its own node,
if it was not explored. -/
def stores (t : Tree) : Call → ℕ
  | .update b => t.hatched t.playouts b
  | .judged judge b => t.hatched judge b
  | .advance x y =>
    match Cell.ofCoordinates x y with
    | .ok c => if (t.childAt? c).isSome then 0 else 1
    | .error _ => 0
  | .sweep => 0

/-- The roots that a call leaves behind for good: without pruning, the root before a move. -/
def leaves (t : Tree) : Call → List NodeId
  | .advance x y =>
    match Cell.ofCoordinates x y with
    | .ok _ => if t.config.pruning = .none then [t.root] else []
    | .error _ => []
  | _ => []

/-- A run of calls on a new tree, with any generator. It ends with the tree `t`, it has left the
roots `left` behind for good, and it has stored `stored` nodes. -/
inductive Run : Tree → List NodeId → ℕ → Prop
  | start (b : Board) (side : Option Color) (config : Config) (rng : Xoshiro) :
      Run { ofBoard b side config with rng } [] 1
  | call {t : Tree} {left : List NodeId} {stored : ℕ} (k : Call) (h : Run t left stored) :
      Run (t.after k) (t.leaves k ++ left) (stored + t.stores k)

variable {t t' : Tree} {b : Board} {left : List NodeId} {stored id : ℕ}

lemma Run.calls (h : Run t left stored) (ks : List Call) :
    ∃ left' stored', Run (ks.foldl Tree.after t) left' stored' := by
  induction ks generalizing t left stored with
  | nil => exact ⟨left, stored, h⟩
  | cons k ks ih => exact ih (h.call k)

/-! ### The walk -/

/-- What is noted above a node hangs below the last node noted. -/
lemma below_of_upward {above : List NodeId} {root : NodeId}
    (hup : (id :: above).IsChain fun i j => t.arena.Child j i)
    (hlast : (id :: above).getLast? = some root) : ∀ i ∈ id :: above, t.arena.Below root i := by
  induction above generalizing id with
  | nil =>
      obtain rfl := Option.some.inj hlast
      intro i hi
      rw [List.mem_singleton.mp hi]
      exact .refl
  | cons j above ih =>
      rw [List.isChain_cons_cons] at hup
      rw [List.getLast?_cons_cons] at hlast
      have hbelow := ih hup.2 hlast
      intro i hi
      rcases List.mem_cons.mp hi with rfl | hi
      · exact (hbelow j List.mem_cons_self).tail hup.1
      · exact hbelow i hi

/-- **A walk stays in the tree.** -/
lemma below_descend (t : Tree) (b : Board) (rng : Xoshiro) :
    ∀ i ∈ (t.descend b t.root [] rng).leaf :: (t.descend b t.root [] rng).above,
      t.arena.Below t.root i := by
  obtain ⟨hup, hlast⟩ := t.upward_descend b rng (.singleton t.root)
  exact below_of_upward hup hlast

/-! ### Updates -/

/-- Two trees differ only in what the search has learnt and in the state of the generator. -/
structure Alike (t' t : Tree) : Prop where
  arena : t'.arena.Alike t.arena
  root : t'.root = t.root
  garbage : t'.garbage = t.garbage
  config : t'.config = t.config
  side : t'.side = t.side

lemma Alike.trans {s : Tree} (h : t'.Alike s) (h' : s.Alike t) : t'.Alike t where
  arena := h.arena.trans h'.arena
  root := h.root.trans h'.root
  garbage := h.garbage.trans h'.garbage
  config := h.config.trans h'.config
  side := h.side.trans h'.side

/-- The state of the generator is no part of what is compared. -/
lemma alike_reseed (t : Tree) (rng : Xoshiro) : ({ t with rng } : Tree).Alike t :=
  ⟨.refl _, rfl, rfl, rfl, rfl⟩

/-- The last part of an update credits the walk and may give its leaf children. -/
lemma exists_alike_conclude (t : Tree) (a : Arrival) (value : Float32) (games : ℕ) :
    ∃ s, s.Alike t ∧ (t.conclude a value games = s ∨
      (t.node a.leaf).children = [] ∧ t.conclude a value games = s.expand a.leaf a.board) := by
  have halike := t.alike_credit (a.leaf :: a.above) value games
  refine ⟨t.credit (a.leaf :: a.above) value games, ⟨halike, rfl, rfl, rfl, rfl⟩, ?_⟩
  rw [conclude]
  split_ifs with hexpand
  · rw [Bool.and_eq_true, Bool.and_eq_true, Node.isLeaf, List.isEmpty_iff] at hexpand
    exact .inr ⟨(halike.node a.leaf).2.1.symm.trans hexpand.1.2, rfl⟩
  · exact .inl rfl

/-- **An update** sweeps, teaches the tree something, and may give the leaf of the walk children. -/
lemma exists_alike_updateWith (t : Tree) (judge : Judge) (b : Board) :
    ∃ s, s.Alike t.sweep.2 ∧ ((t.updateWith judge b).state = s ∨
      (t.sweep.2.node (t.sweep.2.descend b t.sweep.2.root [] t.sweep.2.rng).leaf).children = [] ∧
        (t.updateWith judge b).state =
          s.expand (t.sweep.2.descend b t.sweep.2.root [] t.sweep.2.rng).leaf
            (t.sweep.2.descend b t.sweep.2.root [] t.sweep.2.rng).board) := by
  rw [updateWith]
  generalize t.sweep.2 = s
  dsimp only
  generalize s.descend b s.root [] s.rng = a
  -- the walk is concluded on a tree that may already know more than the one it walked on
  have hconclude : ∀ {r : Tree}, r.Alike s → ∀ value games, ∃ s', s'.Alike s ∧
      (r.conclude a value games = s' ∨
        (s.node a.leaf).children = [] ∧ r.conclude a value games = s'.expand a.leaf a.board) := by
    intro r hr value games
    obtain ⟨s', hs', hcases⟩ := r.exists_alike_conclude a value games
    refine ⟨s', hs'.trans hr, hcases.imp_right fun hgrown => ?_⟩
    exact ⟨(hr.arena.node a.leaf).2.1.symm.trans hgrown.1, hgrown.2⟩
  split_ifs with hover hend hwin
  · exact ⟨s, ⟨.refl _, rfl, rfl, rfl, rfl⟩, .inl rfl⟩
  · -- the walk decided the game
    have halike : (s.arena.modify a.leaf fun n => { n with decisive := true }).Alike s.arena :=
      Arena.alike_modify a.leaf fun n => ⟨rfl, rfl, rfl⟩
    have hmarked : ({ s with
        rng := a.rng
        arena := s.arena.modify a.leaf fun n => { n with decisive := true } } : Tree).Alike s :=
      ⟨halike, rfl, rfl, rfl, rfl⟩
    exact hconclude hmarked _ 1
  · exact hconclude (s.alike_reseed a.rng) _ 1
  · split
    · exact ⟨_, s.alike_reseed _, .inl rfl⟩
    · exact hconclude (s.alike_reseed _) _ _

/-! ### The invariant -/

/-- What each kind of pruning keeps: only without pruning is anything left behind for good, only
soft pruning queues, and without pruning nothing is freed, so there are as many slots as nodes were
stored. -/
structure Prunes (t : Tree) (left : List NodeId) (stored : ℕ) : Prop where
  left_eq : t.config.pruning ≠ .none → left = []
  garbage_eq : (∀ budget, t.config.pruning ≠ .soft budget) → t.garbage.toList = []
  stored_eq : t.config.pruning = .none → t.arena.free = [] ∧ t.arena.nodes.size = stored

/-- A tree in order: its root, the queue and the roots `left` behind are the roots of a forest. -/
structure Orderly (t : Tree) (left : List NodeId) (stored : ℕ) : Prop extends
    Prunes t left stored where
  forest : t.arena.Forest (t.root :: (t.garbage.toList ++ left))
  top : t.rootNode.parent = none

/-- Two trees agree on the tree below the root and on all else that the search reads. -/
structure Agrees (t' t : Tree) : Prop where
  root : t'.root = t.root
  side : t'.side = t.side
  rng : t'.rng = t.rng
  config : t'.config = t.config
  node : ∀ i, t.arena.Below t.root i → t'.node i = t.node i

lemma Agrees.below_iff {i : ℕ} (h : t'.Agrees t) :
    t'.arena.Below t'.root i ↔ t.arena.Below t.root i := by
  rw [h.root]
  exact Arena.below_congr fun j hj => h.node j hj

lemma Agrees.refl (t : Tree) : t.Agrees t := ⟨rfl, rfl, rfl, rfl, fun _ _ => rfl⟩

lemma Agrees.trans {s : Tree} (h : t'.Agrees s) (h' : s.Agrees t) : t'.Agrees t where
  root := h.root.trans h'.root
  side := h.side.trans h'.side
  rng := h.rng.trans h'.rng
  config := h.config.trans h'.config
  node i hi := (h.node i (h'.below_iff.mpr hi)).trans (h'.node i hi)

lemma Orderly.of_alike (h : t.Orderly left stored) (ha : t'.Alike t) : t'.Orderly left stored where
  left_eq := by
    rw [ha.config]
    exact h.left_eq
  garbage_eq := by
    rw [ha.config, ha.garbage]
    exact h.garbage_eq
  stored_eq := by
    rw [ha.config, ha.arena.free, ha.arena.size]
    exact h.stored_eq
  forest := by
    rw [ha.root, ha.garbage]
    exact h.forest.of_alike ha.arena
  top := by
    rw [rootNode, node, ha.root, (ha.arena.node t.root).2.2]
    exact h.top

/-- **Sweeping** frees queued nodes and touches nothing of the tree. -/
lemma Orderly.sweep (h : t.Orderly left stored) :
    t.sweep.2.Orderly left stored ∧ t.sweep.2.Agrees t := by
  rw [Tree.sweep]
  split
  · next budget hpruning =>
      have hforest : t.arena.Forest (t.garbage.toList ++ t.root :: left) :=
        h.forest.perm List.perm_middle.symm
      obtain ⟨hforest', hget⟩ := hforest.freeQueued budget
      have hroot := hget t.root List.mem_cons_self
      have hprunes : t.sweep.2.Prunes left stored := by
        rw [Tree.sweep, hpruning]
        exact ⟨h.left_eq, fun hno => absurd hpruning (hno budget),
          fun hnone => Pruning.noConfusion (hpruning.symm.trans hnone)⟩
      rw [Tree.sweep, hpruning] at hprunes
      refine ⟨⟨hprunes, hforest'.perm List.perm_middle, ?_⟩, rfl, rfl, rfl, rfl, hroot⟩
      exact (congrArg Node.parent (hroot t.root .refl)).trans h.top
  · exact ⟨h, .refl t⟩
  · exact ⟨h, .refl t⟩

/-- The node at which a tree's walk arrives is in a slot in use. -/
lemma Orderly.used (h : t.Orderly left stored) (hid : t.arena.Below t.root id) :
    id < t.arena.nodes.size ∧ id ∉ t.arena.free :=
  h.forest.used_of_below List.mem_cons_self hid

/-- The nodes that a leaf gets as children in a position: replies to its move. -/
def replies (t : Tree) (leaf : NodeId) (b : Board) : List Node :=
  (b.shortlist (some (Color.after (t.node leaf).color))).map
    (Node.reply leaf (Color.after (t.node leaf).color))

lemma expand_eq (t : Tree) (leaf : NodeId) (b : Board) :
    t.expand leaf b =
      { t with
        arena := (t.arena.allocAll (t.replies leaf b)).2.modify leaf fun n =>
          { n with children := (t.arena.allocAll (t.replies leaf b)).1 } } := rfl

lemma of_mem_replies {leaf : NodeId} {n : Node} (hn : n ∈ t.replies leaf b) :
    n.children = [] ∧ n.parent = some leaf := by
  obtain ⟨c, -, rfl⟩ := List.mem_map.mp hn
  exact ⟨rfl, rfl⟩

/-- **A leaf of the tree gets children.** -/
lemma Orderly.expand {leaf : NodeId} (h : t.Orderly left stored)
    (hbelow : t.arena.Below t.root leaf) (hleaf : (t.node leaf).children = []) (b : Board) :
    (t.expand leaf b).Orderly left
      (stored + ((t.expand leaf b).node leaf).children.length) := by
  obtain ⟨hslot, hfree⟩ := h.used hbelow
  have hbare : ∀ n ∈ t.replies leaf b, n.children = [] := fun n hn => (of_mem_replies hn).1
  obtain ⟨-, -, hother⟩ := h.forest.toTidy.allocAll hbare
  have hsize := (t.arena.slots_allocAll (t.replies leaf b)).2.1
  have hroot : t.root ∉ (t.arena.allocAll (t.replies leaf b)).1 :=
    h.forest.not_mem_allocAll (.inl List.mem_cons_self) _
  rw [expand_eq]
  refine ⟨⟨h.left_eq, h.garbage_eq, fun hnone => ?_⟩,
    h.forest.grow hslot hfree hleaf fun n hn => of_mem_replies hn, ?_⟩
  · obtain ⟨hnil, hstored⟩ := h.stored_eq hnone
    obtain ⟨hnil', hgrown⟩ := Arena.size_allocAll hnil (t.replies leaf b)
    have hself := Arena.get_modify_self (f := fun n =>
      { n with children := (t.arena.allocAll (t.replies leaf b)).1 }) (hslot.trans_le hsize)
    refine ⟨hnil', ?_⟩
    show ((t.arena.allocAll _).2.modify leaf _).nodes.size =
      stored + (((t.arena.allocAll _).2.modify leaf _).get leaf).children.length
    rw [hself, Arena.size_modify, hgrown, hstored]
  · obtain ⟨children, hget⟩ := (t.arena.allocAll (t.replies leaf b)).2.get_modify_children leaf
      (t.arena.allocAll (t.replies leaf b)).1 t.root
    rw [hother t.root hroot] at hget
    exact (congrArg Node.parent hget).trans h.top

/-- **An update with any board** keeps the trees in order. -/
lemma Orderly.updateWith (h : t.Orderly left stored) (judge : Judge) (b : Board) :
    (t.updateWith judge b).state.Orderly left (stored + t.hatched judge b) := by
  obtain ⟨hsweep, -⟩ := h.sweep
  obtain ⟨s, hs, hcases⟩ := t.exists_alike_updateWith judge b
  have hbelow := t.sweep.2.below_descend b t.sweep.2.rng _ List.mem_cons_self
  rw [hatched]
  generalize t.sweep.2.descend b t.sweep.2.root [] t.sweep.2.rng = a at *
  rcases hcases with heq | ⟨hleaf, heq⟩
  · rw [heq, node, node, (hs.arena.node a.leaf).2.1, Nat.sub_self, Nat.add_zero]
    exact hsweep.of_alike hs
  · have hleaf' : (s.node a.leaf).children = [] := (hs.arena.node a.leaf).2.1.trans hleaf
    have hbelow' : s.arena.Below s.root a.leaf := by
      rw [hs.root]
      exact hs.arena.below_iff.mpr hbelow
    rw [heq, hleaf, List.length_nil, Nat.sub_zero]
    exact (hsweep.of_alike hs).expand hbelow' hleaf' a.board

/-- **A root is left behind** as the pruning settings say: it stays, it is freed with all that hangs
on it, or it is queued. Nothing of the tree is touched. -/
lemma Prunes.abandon {old : NodeId} (h : t.Prunes left stored)
    (hforest : t.arena.Forest (old :: t.root :: (t.garbage.toList ++ left)))
    (htop : t.rootNode.parent = none) :
    (t.abandon old).Orderly ((if t.config.pruning = .none then [old] else []) ++ left) stored ∧
      (t.abandon old).Agrees t := by
  rw [Tree.abandon]
  split
  · next hnone =>
      have hperm : (old :: t.root :: (t.garbage.toList ++ left)).Perm
          (t.root :: (t.garbage.toList ++ old :: left)) :=
        (List.Perm.swap t.root old _).trans (List.perm_middle.symm.cons t.root)
      rw [if_pos hnone]
      exact ⟨⟨⟨fun hne => absurd hnone hne, h.garbage_eq, h.stored_eq⟩, hforest.perm hperm, htop⟩,
        .refl t⟩
  · next hhard =>
      have hne : t.config.pruning ≠ .none := fun hnone =>
        Pruning.noConfusion (hhard.symm.trans hnone)
      have hstack : t.arena.Forest ([old] ++ t.root :: (t.garbage.toList ++ left)) := hforest
      obtain ⟨hforest', hget⟩ := hstack.freeStack 0
      have hroot := hget t.root List.mem_cons_self
      rw [if_neg hne]
      refine ⟨⟨⟨h.left_eq, h.garbage_eq, fun hnone => absurd hnone hne⟩, hforest', ?_⟩,
        rfl, rfl, rfl, rfl, hroot⟩
      exact (congrArg Node.parent (hroot t.root .refl)).trans htop
  · next budget hsoft =>
      have hne : t.config.pruning ≠ .none := fun hnone =>
        Pruning.noConfusion (hsoft.symm.trans hnone)
      have hperm : (old :: t.root :: (t.garbage.toList ++ left)).Perm
          (t.root :: ((t.garbage.push old).toList ++ left)) := by
        rw [Queue.toList_push, List.append_assoc]
        exact (List.Perm.swap t.root old _).trans (List.perm_middle.symm.cons t.root)
      rw [if_neg hne]
      exact ⟨⟨⟨h.left_eq, fun hno => absurd hsoft (hno budget), fun hnone => absurd hnone hne⟩,
        hforest.perm hperm, htop⟩, rfl, rfl, rfl, rfl, fun i _ => rfl⟩

/-- The tree with the move on `c` as its root, before the old root is left behind. -/
def moved (t : Tree) (c : Cell) : Tree :=
  match t.childAt? c with
  | some id => { t.detach t.root id with root := id }
  | none =>
    let new := t.arena.alloc { cell := some c, color := some (Color.after t.rootNode.color) }
    { t with arena := new.2, root := new.1 }

lemma advance_state (t : Tree) (c : Cell) : (t.advance c).state = (t.moved c).abandon t.root := by
  rw [advance, moved]
  cases t.childAt? c <;> rfl

/-- **Moving the root** gives a tree in order, which agrees with the one before the old root was
left behind. -/
lemma Orderly.advance (h : t.Orderly left stored) (c : Cell) :
    (t.advance c).state.Orderly ((if t.config.pruning = .none then [t.root] else []) ++ left)
        (stored + if (t.childAt? c).isSome then 0 else 1) ∧
      (t.advance c).state.Agrees (t.moved c) := by
  have hpruning : (t.moved c).config.pruning = t.config.pruning := by
    rw [moved]
    cases t.childAt? c <;> rfl
  rw [advance_state, ← hpruning]
  rw [moved] at *
  cases hid : t.childAt? c with
  | some id =>
      have hmem : t.arena.Child t.root id := List.mem_of_find?_eq_some hid
      obtain ⟨-, -, hself⟩ := h.forest.toTidy.cut hmem
      have hprunes : ({ t.detach t.root id with root := id } : Tree).Prunes left stored :=
        ⟨h.left_eq, h.garbage_eq, fun hnone => ?_⟩
      · refine hprunes.abandon ((h.forest.cut hmem).perm (List.Perm.swap _ _ _)) ?_
        exact congrArg Node.parent hself
      · obtain ⟨hfree, hsize⟩ := h.stored_eq hnone
        refine ⟨hfree, ?_⟩
        show ((t.arena.modify _ _).modify _ _).nodes.size = stored
        rw [Arena.size_modify, Arena.size_modify, hsize]
  | none =>
      have hbare :
          ({ cell := some c, color := some (Color.after t.rootNode.color) } : Node).children = [] :=
        rfl
      have hforest := h.forest.alloc hbare
      obtain ⟨-, hself, -⟩ := h.forest.toTidy.alloc hbare
      refine Prunes.abandon ⟨h.left_eq, h.garbage_eq, fun hnone => ?_⟩
        (hforest.perm (List.Perm.swap _ _ _)) (congrArg Node.parent hself)
      obtain ⟨hfree, hsize⟩ := h.stored_eq hnone
      obtain ⟨hfree', hsize'⟩ := Arena.size_allocAll hfree
        [{ cell := some c, color := some (Color.after t.rootNode.color) }]
      rw [hsize] at hsize'
      exact ⟨hfree', hsize'⟩

/-- **Every call keeps the trees in order.** -/
lemma Orderly.after (h : t.Orderly left stored) (k : Call) :
    (t.after k).Orderly (t.leaves k ++ left) (stored + t.stores k) := by
  cases k with
  | update b => exact h.updateWith t.playouts b
  | judged judge b => exact h.updateWith judge b
  | sweep => exact h.sweep.1
  | advance x y =>
      rw [Tree.after, advanceTo, leaves, stores]
      cases Cell.ofCoordinates x y with
      | error e => exact h
      | ok c => exact (h.advance c).1

/-- A new tree is in order. -/
lemma orderly_ofRoot {root : Node} (hbare : root.children = []) (htop : root.parent = none)
    (side : Option Color) (config : Config) (rng : Xoshiro) :
    ({ ofRoot root side config with rng } : Tree).Orderly [] 1 := by
  obtain ⟨-, hself, -⟩ := Arena.tidy_empty.alloc hbare
  refine ⟨⟨fun _ => rfl, fun _ => rfl, fun _ => ⟨rfl, rfl⟩⟩, Arena.forest_empty.alloc hbare, ?_⟩
  exact (congrArg Node.parent hself).trans htop

lemma Run.orderly (h : Run t left stored) : t.Orderly left stored := by
  induction h with
  | start b side config rng =>
      refine orderly_ofRoot ?_ ?_ side config rng
      · rw [rootOf]
        cases b.last? <;> rfl
      · rw [rootOf]
        cases b.last? <;> rfl
  | call k _ ih => exact ih.after k

/-! ### The use of the slots -/

/-- From every node of the tree the parents lead to the root. -/
lemma Orderly.exists_parents (h : t.Orderly left stored) (hid : t.arena.Below t.root id) :
    ∃ ids, (id :: ids).IsChain (fun i j => (t.node i).parent = some j) ∧
      (id :: ids).getLast? = some t.root := by
  induction hid with
  | refl => exact ⟨[], .singleton _, rfl⟩
  | @tail i j _ hchild ih =>
      obtain ⟨ids, hup, hlast⟩ := ih
      exact ⟨i :: ids, .cons_cons (h.forest.parent i j hchild) hup, by
        rw [List.getLast?_cons_cons, hlast]⟩

/-- **The nodes of a tree are counted** as the pruning settings say. -/
lemma Orderly.nodeCount_eq (h : t.Orderly left stored) :
    t.nodeCount = match t.config.pruning with
      | .none => stored
      | .hard => t.arena.treeSize t.root
      | .soft _ => t.arena.treeSize t.root + (t.garbage.toList.map t.arena.treeSize).sum := by
  have hlive := h.forest.live_eq
  rw [List.map_cons, List.sum_cons, List.map_append, List.sum_append] at hlive
  rw [nodeCount]
  split
  · next hnone =>
      obtain ⟨hfree, hsize⟩ := h.stored_eq hnone
      rw [Arena.live, hfree, hsize]
      rfl
  · next hhard =>
      have hgarbage := h.garbage_eq fun budget hsoft => Pruning.noConfusion (hhard.symm.trans hsoft)
      have hleft := h.left_eq fun hnone => Pruning.noConfusion (hhard.symm.trans hnone)
      rw [hlive, hgarbage, hleft]
      rfl
  · next budget hsoft =>
      have hleft := h.left_eq fun hnone => Pruning.noConfusion (hsoft.symm.trans hnone)
      rw [hlive, hleft]
      rfl

/-- **No slot is lost, used twice or used after it was freed**, in any run of calls under any
pruning. No slot is free twice. Every slot is free or in exactly one tree: the one below the root,
one that is queued, or, without pruning only, one that was left behind. The roots of these trees are
nobody's children; every other node is one child of exactly one node. In the tree below the root
every child knows its parent, and the parents lead to the root, which has none; they are what a walk
notes, on any board. So the number of nodes is that of the tree, with the queued ones under soft
pruning, and without pruning that of all nodes ever stored. -/
theorem slots_exact (h : Run t left stored) :
    t.arena.free.Nodup ∧
    ((t.root :: (t.garbage.toList ++ left)).Nodup ∧
      (∀ i, i < t.arena.nodes.size ↔
        i ∈ t.arena.free ∨ ∃ r ∈ t.root :: (t.garbage.toList ++ left), t.arena.Below r i) ∧
      (∀ r ∈ t.root :: (t.garbage.toList ++ left), ∀ i, t.arena.Below r i → i ∉ t.arena.free ∧
        ∀ r' ∈ t.root :: (t.garbage.toList ++ left), t.arena.Below r' i → r' = r) ∧
      (t.config.pruning ≠ .none → left = []) ∧
      ((∀ budget, t.config.pruning ≠ .soft budget) → t.garbage.toList = [])) ∧
    (∀ r ∈ t.root :: (t.garbage.toList ++ left),
      (∀ i, r ∉ (t.node i).children) ∧
      ∀ i, t.arena.Below r i → i ≠ r → ∃ p, t.arena.Below r p ∧ (t.node p).children.count i = 1 ∧
        ∀ q, i ∈ (t.node q).children → q = p) ∧
    (t.rootNode.parent = none ∧
      (∀ i j, t.arena.Below t.root i → j ∈ (t.node i).children → (t.node j).parent = some i) ∧
      (∀ i, t.arena.Below t.root i → ∃ ids,
        (i :: ids).IsChain (fun i j => (t.node i).parent = some j) ∧
          (i :: ids).getLast? = some t.root) ∧
      ∀ b rng, ((t.descend b t.root [] rng).leaf :: (t.descend b t.root [] rng).above).IsChain
          (fun i j => (t.node i).parent = some j) ∧
        ((t.descend b t.root [] rng).leaf :: (t.descend b t.root [] rng).above).getLast? =
          some t.root) ∧
    t.nodeCount = match t.config.pruning with
      | .none => stored
      | .hard => t.arena.treeSize t.root
      | .soft _ => t.arena.treeSize t.root + (t.garbage.toList.map t.arena.treeSize).sum := by
  have ho := h.orderly
  refine ⟨ho.forest.free_nodup,
    ⟨ho.forest.held_nodup, fun i => ho.forest.lt_size_iff, fun r hr i hi => ?_, ho.left_eq,
      ho.garbage_eq⟩,
    fun r hr => ⟨fun i hi => (ho.forest.of_mem_held hr).2 i hi, fun i hi hne => ?_⟩,
    ⟨ho.top, fun i j _ hj => ho.forest.parent i j hj, fun i hi => ho.exists_parents hi,
      fun b rng => ?_⟩,
    ho.nodeCount_eq⟩
  · exact ⟨(ho.forest.used_of_below hr hi).2, fun r' hr' hi' => ho.forest.eq_of_below hr' hr hi' hi⟩
  · rcases hi with _ | ⟨hp, hchild⟩
    · exact absurd rfl hne
    · exact ⟨_, hp, ho.forest.count_child hchild, fun q hq => ho.forest.eq_of_child hq hchild⟩
  · obtain ⟨hup, hlast⟩ := t.upward_descend b rng (.singleton t.root)
    exact ⟨hup.imp fun i j hij => ho.forest.parent j i hij, hlast⟩

/-- A run in which a slot is used again: the first root is queued and freed, and its slot holds the
root two moves later. -/
def recycled : Tree :=
  [Call.advance 9 9, .advance 3 4, .sweep, .advance 5 5, .sweep].foldl after
    (fresh (some .black) { pruning := .soft 1 })

/-- After that run slot 1 is free, the node in slot 2 is queued, and the root is in slot 0 again. -/
theorem slots_exact_recycled :
    (∃ left stored, Run recycled left stored) ∧ recycled.root = 0 ∧ recycled.arena.free = [1] ∧
      recycled.garbage.toList = [2] ∧
      (∀ i, i < 3 ↔ i = 1 ∨ recycled.arena.Below 0 i ∨ recycled.arena.Below 2 i) ∧
      recycled.arena.treeSize 0 + recycled.arena.treeSize 2 = 2 := by
  have hstart : Run (fresh (some .black) { pruning := .soft 1 }) [] 1 :=
    .start Board.empty (some .black) { pruning := .soft 1 } (Xoshiro.ofSeed 0)
  have hrun : ∃ left stored, Run recycled left stored := hstart.calls _
  have hroot : recycled.root = 0 := by decide +kernel
  have hfree : recycled.arena.free = [1] := by decide +kernel
  have hgarbage : recycled.garbage.toList = [2] := by decide +kernel
  have hsize : recycled.arena.nodes.size = 3 := by decide +kernel
  have hpruning : recycled.config.pruning = .soft 1 := by decide +kernel
  have hnodes : recycled.nodeCount = 2 := by decide +kernel
  obtain ⟨left, stored, hrun'⟩ := hrun
  obtain ⟨-, ⟨-, hslots, -, hleft, -⟩, -, -, hcount⟩ := slots_exact hrun'
  have hnone : recycled.config.pruning ≠ .none := by
    rw [hpruning]
    exact nofun
  rw [hleft hnone, hroot, hfree, hgarbage, hsize] at hslots
  rw [hpruning, hroot, hgarbage, hnodes] at hcount
  refine ⟨⟨left, stored, hrun'⟩, hroot, hfree, hgarbage, fun i => ?_, ?_⟩
  · rw [hslots i]
    simp
  · simpa using hcount.symm

end Tree

end FiveInRow
