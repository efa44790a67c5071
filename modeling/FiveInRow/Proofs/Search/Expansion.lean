import Mathlib.Tactic
import FiveInRow.Proofs.Ranking.Candidates
import FiveInRow.Proofs.Search.Update

/-!
The nodes of a tree that follows a game against their positions. A node gets children when it has
seen enough games, and they are the shortlist of its position; later updates and moves of the root
change neither the children nor the position.

* `Board.along`, `Arena.Linked.along`: the position at the end of a path;
* `Arena.Linked.eq_pos`: moves determine positions, so nodes that are kept keep their positions;
* `Board.Played.color_of_win`, `Tree.Follows.played`: who can have won in the position of a node;
* `Tree.Stocked`: the invariant: children that are the shortlist, and marks on decided positions;
* `Tree.StocksAll.retains`, `Tree.StocksAll.taught`: what sweeping, moving the root and crediting
  do to it;
* `Tree.StocksAll.updateWith`, `Tree.StocksAll.advance`: updates and moves of the root keep it.
-/

namespace FiveInRow

/-! ### Positions along a path -/

/-- The board after the moves of a path. A move without a cell is none, and one that the board
refuses is skipped. -/
def Board.along : Board → List (Option Cell × Option Color) → Board
  | b, [] => b
  | b, (none, _) :: rest => b.along rest
  | b, (some c, color) :: rest => (b.attempt c color).2.along rest

namespace Arena

variable {x y : Arena} {p q : NodeId → Board} {i r id : ℕ} {ids : List NodeId}

/-- **The position of a node is the one at the end of its path.** -/
lemma Linked.along (h : x.Linked p) (hpath : (i :: ids).IsChain x.Child)
    (hlast : (i :: ids).getLast? = some id) :
    (p i).along (ids.map fun j => (x.get j).move) = p id := by
  induction ids generalizing i with
  | nil =>
      obtain rfl : i = id := Option.some.inj hlast
      rfl
  | cons j ids ih =>
      rw [List.isChain_cons_cons] at hpath
      rw [List.getLast?_cons_cons] at hlast
      obtain ⟨-, hcolor, c, hcell, ha, hpos⟩ := h i j hpath.1
      rw [List.map_cons, Node.move, hcell, hcolor, Board.along, Board.attempt_eq, if_pos ha, ← hpos]
      exact ih hpath.2 hlast

/-- **Moves determine positions.** Two stores with the same links and moves below a node agree on
the positions there, if they agree on the node's. -/
lemma Linked.eq_pos (hx : x.Linked p) (hy : y.Linked q) (hr : q r = p r)
    (hlinks : ∀ i j, x.Below r i → x.Child i j → y.Child i j)
    (hmoves : ∀ i, x.Below r i → (y.get i).move = (x.get i).move) (hi : x.Below r i) :
    q i = p i := by
  induction hi with
  | refl => exact hr
  | @tail i j hbelow hchild ih =>
      obtain ⟨-, -, c, hcell, -, hpos⟩ := hx i j hchild
      obtain ⟨-, -, c', hcell', -, hpos'⟩ := hy i j (hlinks i j hbelow hchild)
      have hmove := Prod.mk.inj (hmoves j (hbelow.tail hchild))
      have hcolor := (Prod.mk.inj (hmoves i hbelow)).2
      obtain rfl : c' = c := Option.some.inj (hcell'.symm.trans (hmove.1.trans hcell))
      rw [hpos', hpos, ih, hcolor]

end Arena

namespace Tree

variable {t t' : Tree} {b : Board} {a : Arrival} {pos pos' : NodeId → Board}
  {left ids : List NodeId} {stored i : ℕ} {value : Float32} {games : ℕ} {color : Color}

/-- The position of a node was played, and the node is its last move. -/
lemma Follows.played (h : t.Follows b pos) (hp : b.Played) (hi : t.arena.Below t.root i) :
    (pos i).Played ∧ (pos i).last?.map (·.color) = (t.node i).color := by
  induction hi with
  | refl =>
      rw [h.start]
      exact ⟨hp, h.color.symm⟩
  | @tail i j _ hchild ih =>
      obtain ⟨-, hcolor, c, -, ha, hpos⟩ := h.linked i j hchild
      rw [hpos, Board.last?_place]
      exact ⟨ih.1.place _ ha, hcolor.symm⟩

/-! ### Children and shortlists -/

/-- A node with children has seen enough games in a position that is not decided, and the children
are the shortlist of the position for the colour that is next. Without children it has not seen
enough, unless the game ended there. It is marked exactly if it was visited and its position is
won. -/
structure Stocked (t : Tree) (pos : NodeId → Board) (i : NodeId) : Prop where
  expanded : (t.node i).children ≠ [] →
    (pos i).status = .inProgress ∧ t.config.threshold ≤ (t.node i).games ∧
      (t.node i).children.map (fun j => (t.node j).move) =
        ((pos i).shortlist (some (Color.after (t.node i).color))).map fun c =>
          (some c, some (Color.after (t.node i).color))
  waiting : (t.node i).children = [] → (pos i).status = .inProgress →
    (t.node i).visits = 0 ∨ (t.node i).games < t.config.threshold
  decisive_iff : (t.node i).decisive = true ↔
    0 < (t.node i).visits ∧ ∃ color, (pos i).status = .win color

/-- All nodes of a tree are stocked. -/
def StocksAll (t : Tree) (pos : NodeId → Board) : Prop :=
  ∀ i, t.arena.Below t.root i → t.Stocked pos i

/-- A node that was never visited and has no children is stocked in any position. -/
lemma stocked_blank {cell : Option Cell} {color : Option Color} {parent : Option NodeId}
    (hnode : t.node i = { cell, color, parent }) : t.Stocked pos i := by
  refine ⟨fun hne => ?_, fun _ _ => .inl ?_, ?_⟩
  · rw [hnode] at hne
    exact absurd rfl hne
  · rw [hnode]
  · rw [hnode]
    exact ⟨nofun, fun h => absurd h.1 (Nat.lt_irrefl 0)⟩

/-- A tree of one new node is stocked. -/
lemma stocksAll_of_lone {cell : Option Cell} {color : Option Color}
    (hroot : t.rootNode = { cell, color }) (pos : NodeId → Board) : t.StocksAll pos := by
  intro i hi
  obtain rfl := eq_root_of_bare (by rw [hroot]) hi
  exact stocked_blank hroot

/-- Nodes that are retained with their positions stay stocked. -/
lemma StocksAll.retains (h : t.StocksAll pos) (hr : t'.Retains t)
    (hpos : ∀ i, t'.arena.Below t'.root i → pos' i = pos i) : t'.StocksAll pos' := by
  intro i hi
  obtain ⟨hi', parent, hnode⟩ := hr.node i hi
  obtain ⟨hexpanded, hwaiting, hdecisive⟩ := h i hi'
  have hmoves : ∀ j ∈ (t'.node i).children, (t'.node j).move = (t.node j).move := by
    intro j hj
    obtain ⟨-, parent', hnode'⟩ := hr.node j (hi.tail hj)
    rw [hnode']
    rfl
  refine ⟨fun hne => ?_, ?_, ?_⟩
  · rw [List.map_congr_left hmoves, hpos i hi, hr.config]
    rw [hnode] at hne ⊢
    exact hexpanded hne
  · rw [hpos i hi, hr.config, hnode]
    exact hwaiting
  · rw [hpos i hi, hnode]
    exact hdecisive

/-! ### Updates -/

/-- An update takes no child away. -/
lemma Taught.child {j : ℕ} (ht : t'.Taught t a value games ids) (hi : t.arena.Below t.root i)
    (hchild : t.arena.Child i j) : t'.arena.Child i j := by
  show j ∈ (t'.node i).children
  by_cases hil : i = a.leaf
  · subst hil
    have hgrows : t.grows a games = false := by
      have hmem : j ∈ (t.node a.leaf).children := hchild
      rw [grows, Node.isLeaf, List.isEmpty_eq_false_iff.mpr (List.ne_nil_of_mem hmem),
        Bool.and_false, Bool.false_and]
    rw [ht.leaf, hgrows]
    exact hchild
  · rw [ht.children_eq hi hil]
    exact hchild

/-- The moves of an old node's old children are what they were. -/
lemma Taught.map_move (ht : t'.Taught t a value games ids) (hi : t.arena.Below t.root i) :
    (t.node i).children.map (fun j => (t'.node j).move) =
      (t.node i).children.map fun j => (t.node j).move :=
  List.map_congr_left fun _ hj => ht.move_eq (hi.tail hj)

/-- A leaf gets children in a position that is not decided, once it has seen enough games. -/
lemma Arrives.grows_iff (ha : t.Arrives pos a) : t.grows a games = true ↔
    (pos a.leaf).status = .inProgress ∧
      t.config.threshold ≤ (t.node a.leaf).games + games := by
  rw [grows, Node.isLeaf, ha.leaf, ha.board, List.isEmpty_nil, Bool.and_true, Bool.and_eq_true,
    Bool.not_eq_true', Board.isOver_eq_false_iff, decide_eq_true_eq]

/-- The moves that a leaf gets as children are the shortlist of its position. -/
lemma Taught.map_move_born (ht : t'.Taught t a value games ids) (ha : t.Arrives pos a)
    (hgrows : t.grows a games = true) : ids.map (fun j => (t'.node j).move) =
      ((pos a.leaf).shortlist (some (Color.after (t.node a.leaf).color))).map fun c =>
        (some c, some (Color.after (t.node a.leaf).color)) := by
  have hborn : ids.map t'.node = t.replies a.leaf a.board := ht.born.trans (if_pos hgrows)
  calc ids.map (fun j => (t'.node j).move)
      = (ids.map t'.node).map Node.move := by
        rw [List.map_map]
        rfl
    _ = (t.replies a.leaf (pos a.leaf)).map Node.move := by rw [hborn, ha.board]
    _ = _ := by
        rw [replies, List.map_map]
        rfl

/-- **The leaf of a walk** gets the shortlist of its position once it has seen enough games, and it
is marked if its position is won. -/
lemma Stocked.leaf (h : t.Stocked pos a.leaf) (ha : t.Arrives pos a)
    (ht : t'.Taught t a value games ids) (hpos : pos' a.leaf = pos a.leaf) :
    t'.Stocked pos' a.leaf := by
  have hmoves := ht.map_move_born ha
  refine ⟨fun hne => ?_, fun hnone hs => ?_, ?_⟩
  · -- there are children now, so the leaf has grown
    have hgrown : t.grows a games = true := by
      by_contra hno
      rw [ht.leaf, if_neg hno, ha.leaf] at hne
      exact hne rfl
    obtain ⟨hrun, hgames⟩ := ha.grows_iff.mp hgrown
    rw [hpos, ht.config, ht.leaf, if_pos hgrown]
    exact ⟨hrun, hgames, hmoves hgrown⟩
  · -- there are none, so it has not, since no shortlist of a running game is empty
    rw [hpos] at hs
    refine .inr (Nat.lt_of_not_le fun hle => ?_)
    rw [ht.leaf, ht.config] at hle
    have hgrown : t.grows a games = true := ha.grows_iff.mpr ⟨hs, hle⟩
    rw [ht.leaf, if_pos hgrown] at hnone
    have hempty := hmoves hgrown
    rw [show ids = [] from hnone, List.map_nil, eq_comm, List.map_eq_nil_iff, ← ha.board] at hempty
    exact ha.played.shortlist_ne_nil (by rw [ha.board, hs]) _ hempty
  · have hmark : (t'.node a.leaf).decisive =
        ((t.node a.leaf).decisive || (pos a.leaf).status.winner?.isSome) := by
      rw [ht.leaf, ha.board]
    have hvisits : (t'.node a.leaf).visits = (t.node a.leaf).visits + 1 := by
      rw [ht.leaf]
      rfl
    rw [hpos, hmark, hvisits, Bool.or_eq_true, h.decisive_iff]
    cases (pos a.leaf).status with
    | inProgress => simp [Status.winner?]
    | draw => simp [Status.winner?]
    | win color => simp [Status.winner?]

/-- **A node that a walk went on from** has its children already. -/
lemma Stocked.above (h : t.Stocked pos i) (ht : t'.Taught t a value games ids)
    (hi : t.arena.Below t.root i) (hia : i ∈ a.above) (hchildren : (t.node i).children ≠ [])
    (hpos : pos' i = pos i) : t'.Stocked pos' i := by
  obtain ⟨hrun, hgames, hmoves⟩ := h.expanded hchildren
  have hcolor : (t'.node i).color = (t.node i).color := congrArg Prod.snd (ht.move_eq hi)
  have hsame : (t'.node i).children = (t.node i).children := by
    rw [ht.above i hia]
    rfl
  refine ⟨fun _ => ⟨?_, ?_, ?_⟩, fun hnone => ?_, ?_⟩
  · rw [hpos, hrun]
  · rw [ht.config, ht.above i hia]
    exact hgames.trans (Nat.le_add_right _ _)
  · rw [hsame, hcolor, hpos, ht.map_move hi, hmoves]
  · exact absurd (hsame.symm.trans hnone) hchildren
  · have hdecisive : (t'.node i).decisive = (t.node i).decisive := by
      rw [ht.above i hia]
      rfl
    rw [hdecisive, h.decisive_iff, hpos, hrun]
    exact iff_of_false (fun ⟨_, _, hw⟩ => nomatch hw) fun ⟨_, _, hw⟩ => nomatch hw

/-- A node off the walk stays as it was. -/
lemma Stocked.other (h : t.Stocked pos i) (ht : t'.Taught t a value games ids)
    (hi : t.arena.Below t.root i) (hnode : t'.node i = t.node i) (hpos : pos' i = pos i) :
    t'.Stocked pos' i := by
  refine ⟨?_, ?_, ?_⟩
  · rw [hnode, hpos, ht.config, ht.map_move hi]
    exact h.expanded
  · rw [hnode, hpos, ht.config]
    exact h.waiting
  · rw [hnode, hpos]
    exact h.decisive_iff

/-- **A credited update keeps all nodes stocked.** -/
lemma StocksAll.taught (h : t.StocksAll pos) (ho : t.Orderly left stored) (ha : t.Arrives pos a)
    (ht : t'.Taught t a value games ids)
    (hpos : ∀ i, t.arena.Below t.root i → pos' i = pos i) : t'.StocksAll pos' := by
  intro i hi
  by_cases hids : i ∈ ids
  · obtain ⟨c, color, hnode⟩ := ht.of_mem hids
    exact stocked_blank hnode
  have hold := (ht.below i hi).resolve_left hids
  by_cases hil : i = a.leaf
  · subst hil
    exact (h _ hold).leaf ha ht (hpos _ hold)
  by_cases hia : i ∈ a.above
  · have hchildren : (t.node i).children ≠ [] := by
      intro hnone
      have hone : (t.node i).children.countP (· ∈ a.path) = if i ∈ a.above then 1 else 0 :=
        ho.forest.countP_upward List.mem_cons_self ha.upward ha.top i
      rw [hnone, if_pos hia] at hone
      cases hone
    exact (h i hold).above ht hold hia hchildren (hpos i hold)
  · have hpath : i ∉ a.path := fun hmem => (Arrival.mem_path_iff.mp hmem).elim hil hia
    exact (h i hold).other ht hold (ht.other i hold hpath) (hpos i hold)

/-- **Every update keeps all nodes stocked**, on the board that the tree follows. -/
lemma StocksAll.updateWith (h : t.StocksAll pos) (ho : t.Orderly left stored)
    (hf : t.Follows b pos) (hp : b.Played) (judge : Judge) :
    ∃ pos', (t.updateWith judge b).state.Follows b pos' ∧
      (t.updateWith judge b).state.StocksAll pos' := by
  obtain ⟨hsweep, hagrees⟩ := ho.sweep
  have hswept : t.sweep.2.StocksAll pos := h.retains hagrees.retains fun _ _ => rfl
  have hf' := hf.sweep
  rcases updateWith_cases judge t b with ⟨-, -, rng, hstate⟩ | ⟨value, games, -, hsome, -⟩
  · rw [hstate]
    refine ⟨pos, hf'.of_alike (.refl _) rfl rfl, fun i hi => ?_⟩
    exact ⟨(hswept i hi).expanded, (hswept i hi).waiting, (hswept i hi).decisive_iff⟩
  · obtain ⟨ids, ht⟩ := ho.taught_updateWith hsome
    obtain ⟨⟨pos', hfollows⟩, -⟩ := hf.update hp judge
    have harrives : t.sweep.2.Arrives pos (t.walk b) := hf'.descend hp t.sweep.2.rng
    have hroot : pos' t.sweep.2.root = pos t.sweep.2.root := by
      rw [hf'.start, ← ht.root, hfollows.start]
    refine ⟨pos', hfollows, hswept.taught hsweep harrives ht fun i hi => ?_⟩
    exact hf'.linked.eq_pos hfollows.linked hroot (fun i j hi hij => ht.child hi hij)
      (fun i hi => ht.move_eq hi) hi

/-! ### Moves of the root -/

/-- **Moving the root keeps all nodes stocked.** -/
lemma StocksAll.advance (h : t.StocksAll pos) (ho : t.Orderly left stored)
    (hf : t.Follows b pos) (c : Cell) :
    ∃ pos', (t.advance c).state.Follows (b.place c b.sideToMove) pos' ∧
      (t.advance c).state.StocksAll pos' := by
  obtain ⟨pos', hfollows⟩ := hf.advance c
  refine ⟨pos', hfollows, ?_⟩
  cases hid : t.childAt? c with
  | none => exact stocksAll_of_lone (ho.rootNode_advance hid) pos'
  | some id =>
      have hretains := ho.retains_advance hid
      have hroot : (t.advance c).state.root = id := by
        rw [(ho.advance c).2.root, moved, hid]
      have hstart : pos (t.advance c).state.root = pos' (t.advance c).state.root := by
        rw [hfollows.start, hroot]
        exact (hf.detach hid).1.start
      refine h.retains hretains fun i hi => ?_
      refine (hfollows.linked.eq_pos hf.linked hstart (fun i j hi hij => ?_) (fun i hi => ?_)
        hi).symm
      · obtain ⟨-, parent, hnode⟩ := hretains.node i hi
        have hmem : j ∈ ((t.advance c).state.node i).children := hij
        rw [hnode] at hmem
        exact hmem
      · obtain ⟨-, parent, hnode⟩ := hretains.node i hi
        show (t.node i).move = ((t.advance c).state.node i).move
        rw [hnode]
        rfl

end Tree

end FiveInRow
