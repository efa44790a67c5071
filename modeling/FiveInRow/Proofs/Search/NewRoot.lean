import Mathlib.Tactic
import FiveInRow.Proofs.Search.Freeing
import FiveInRow.Proofs.Search.Statistics

/-!
Moving the root, node by node. The children of a node are different moves, so at most one of them is
the move that was played. Its tree becomes the whole tree and stays as it was, whatever is freed of
the rest, and whenever it is freed.

* `Tree.Distinct`, `Tree.Run.distinct`: the children of a node are different moves, in any run;
* `Tree.Distinct.childAt?_eq_some_iff`: so a move has one child at most;
* `Tree.Succeeds`, `Tree.Orderly.succeeds_advance`: what moving the root to a child keeps;
* `Tree.Orderly.not_below_child`, `Tree.Orderly.not_below_advance`: what moving the root drops;
* `Tree.Orderly.sweeps`: any number of sweeps keeps the tree;
* `Tree.reroot_exact`: what moving the root does to the nodes.
-/

namespace FiveInRow

namespace Tree

variable {t t' s : Tree} {b : Board} {a : Arrival} {c : Cell} {left ids : List NodeId}
  {stored id i : ℕ} {value : Float32} {games : ℕ}

/-! ### Different moves -/

/-- The children of every node of the tree are moves on different cells. -/
def Distinct (t : Tree) : Prop :=
  ∀ i, t.arena.Below t.root i → ((t.node i).children.map fun j => (t.node j).cell).Nodup

/-- A tree of one new node. -/
lemma distinct_of_bare (hbare : t.rootNode.children = []) : t.Distinct := by
  intro i hi
  obtain rfl := eq_root_of_bare hbare hi
  rw [← rootNode, hbare]
  exact List.nodup_nil

/-- Nodes that are retained keep their children. -/
lemma Distinct.retains (h : t.Distinct) (hr : t'.Retains t) : t'.Distinct := by
  intro i hi
  obtain ⟨hi', parent, hnode⟩ := hr.node i hi
  have hcells : ∀ j ∈ (t'.node i).children, (t'.node j).cell = (t.node j).cell := by
    intro j hj
    obtain ⟨-, parent', hnode'⟩ := hr.node j (hi.tail hj)
    rw [hnode']
  rw [List.map_congr_left hcells, hnode]
  exact h i hi'

/-- **A leaf's new children are the moves of a shortlist**, and no other node gets any. -/
lemma Distinct.taught (h : t.Distinct) (ht : t'.Taught t a value games ids) : t'.Distinct := by
  intro i hi
  by_cases hids : i ∈ ids
  · obtain ⟨c, color, hnode⟩ := ht.of_mem hids
    rw [hnode]
    exact List.nodup_nil
  have hold := (ht.below i hi).resolve_left hids
  have hcells : (t.node i).children.map (fun j => (t'.node j).cell) =
      (t.node i).children.map fun j => (t.node j).cell :=
    List.map_congr_left fun j hj => congrArg Prod.fst (ht.move_eq (hold.tail hj))
  by_cases hil : i = a.leaf
  · subst hil
    cases hgrows : t.grows a games with
    | false =>
        rw [ht.leaf, hgrows, if_neg Bool.false_ne_true, hcells]
        exact h _ hold
    | true =>
        have hborn : ids.map t'.node = t.replies a.leaf a.board := ht.born.trans (if_pos hgrows)
        have hmoves : ids.map (fun j => (t'.node j).cell) =
            (a.board.shortlist (some (Color.after (t.node a.leaf).color))).map some := by
          calc ids.map (fun j => (t'.node j).cell)
              = (ids.map t'.node).map Node.cell := by rw [List.map_map]; rfl
            _ = _ := by rw [hborn, replies, List.map_map]; rfl
        rw [ht.leaf, hgrows, if_pos rfl, hmoves]
        exact (a.board.shortlist_nodup _).map (Option.some_injective _)
  · rw [ht.children_eq hold hil, hcells]
    exact h i hold

lemma Distinct.updateWith (h : t.Distinct) (ho : t.Orderly left stored) (judge : Judge)
    (b : Board) : (t.updateWith judge b).state.Distinct := by
  have hswept := h.retains ho.sweep.2.retains
  rcases updateWith_cases judge t b with ⟨-, -, rng, hstate⟩ | ⟨value, games, -, hsome, -⟩
  · rw [hstate]
    exact hswept
  · obtain ⟨ids, ht⟩ := ho.taught_updateWith hsome
    exact hswept.taught ht

/-- **Every call keeps the moves apart.** -/
lemma Distinct.after (h : t.Distinct) (ho : t.Orderly left stored) (k : Call) :
    (t.after k).Distinct := by
  cases k with
  | update b => exact h.updateWith ho t.playouts b
  | judged judge b => exact h.updateWith ho judge b
  | sweep => exact h.retains ho.sweep.2.retains
  | advance x y =>
      rw [Tree.after, advanceTo]
      cases Cell.ofCoordinates x y with
      | error e => exact h
      | ok c =>
          dsimp only
          cases hid : t.childAt? c with
          | some id => exact h.retains (ho.retains_advance hid)
          | none => exact distinct_of_bare (by rw [ho.rootNode_advance hid])

lemma Run.distinct (h : Run t left stored) : t.Distinct := by
  induction h with
  | start b side config rng =>
      obtain ⟨cell, color, hroot⟩ := exists_rootNode_ofBoard b side config rng
      exact distinct_of_bare (by rw [hroot])
  | call k h ih => exact ih.after h.orderly k

/-- **A move has one child at most**: the child that is found is the only one on its cell. -/
lemma Distinct.childAt?_eq_some_iff (h : t.Distinct) :
    t.childAt? c = some id ↔ id ∈ t.rootNode.children ∧ (t.node id).cell = some c := by
  constructor
  · intro hid
    have hfound := List.find?_some hid
    exact ⟨List.mem_of_find?_eq_some hid, of_decide_eq_true hfound⟩
  · rintro ⟨hmem, hcell⟩
    cases hfound : t.childAt? c with
    | none =>
        have hnone := List.find?_eq_none.mp hfound id hmem
        exact absurd (decide_eq_true hcell) hnone
    | some id' =>
        have hcell' : (t.node id').cell = some c :=
          of_decide_eq_true (List.find?_some hfound :)
        have hmem' : id' ∈ t.rootNode.children := List.mem_of_find?_eq_some hfound
        rw [List.inj_on_of_nodup_map (h t.root .refl) hmem' hmem (hcell'.trans hcell.symm)]

/-! ### What is kept and what is dropped -/

/-- The tree below the node `id` of the tree `t` is the whole tree `t'`. Only its root is changed,
which has lost its parent. -/
structure Succeeds (t' t : Tree) (id : NodeId) : Prop where
  root : t'.root = id
  rootNode : t'.rootNode = { t.node id with parent := none }
  below_iff : ∀ i, t'.arena.Below t'.root i ↔ t.arena.Below id i
  node : ∀ i, t.arena.Below id i → i ≠ id → t'.node i = t.node i

lemma Succeeds.agrees (h : s.Succeeds t id) (ha : t'.Agrees s) : t'.Succeeds t id where
  root := ha.root.trans h.root
  rootNode := by
    rw [Tree.rootNode, ha.root, ha.node s.root .refl]
    exact h.rootNode
  below_iff i := ha.below_iff.trans (h.below_iff i)
  node i hi hne := (ha.node i ((h.below_iff i).mpr hi)).trans (h.node i hi hne)

/-- Cutting a child off takes nothing from the tree below it. -/
lemma Orderly.succeeds_moved (h : t.Orderly left stored) (hid : t.childAt? c = some id) :
    (t.moved c).Succeeds t id := by
  have hmem : t.arena.Child t.root id := List.mem_of_find?_eq_some hid
  have hmoved : t.moved c = { t.detach t.root id with root := id } := by rw [moved, hid]
  obtain ⟨-, -, hself⟩ := h.forest.toTidy.cut hmem
  have hroot : ∀ i, t.arena.Below id i → i ≠ t.root := fun i hi heq =>
    h.grove_root.not_below_parent hmem (heq ▸ hi)
  rw [hmoved]
  refine ⟨rfl, hself, fun i => ?_, fun i hi hne => ?_⟩
  · refine Arena.below_congr_children fun i hi => ?_
    exact (t.arena.children_cut t.root id i).trans (if_neg (hroot i hi))
  · show ((t.arena.modify t.root _).modify id _).get i = t.arena.get i
    rw [Arena.get_modify_of_ne hne, Arena.get_modify_of_ne (hroot i hi)]

/-- **Moving the root to a child** keeps the tree below the child. -/
lemma Orderly.succeeds_advance (h : t.Orderly left stored) (hid : t.childAt? c = some id) :
    (t.advance c).state.Succeeds t id :=
  (h.succeeds_moved hid).agrees (h.advance c).2

/-- **The old root and the other children's trees are dropped.** -/
lemma Orderly.not_below_child (h : t.Orderly left stored) (hid : id ∈ t.rootNode.children) :
    ¬ t.arena.Below id t.root ∧
      ∀ j ∈ t.rootNode.children, j ≠ id → ∀ i, t.arena.Below j i → ¬ t.arena.Below id i := by
  refine ⟨h.grove_root.not_below_parent hid, fun j hj hne => ?_⟩
  have hsymm : Std.Symm t.arena.Apart := ⟨fun _ _ hapart => hapart.symm⟩
  exact (h.grove_root.pairwise_children t.root).forall hj hid hne

/-- **Moving the root to another move** drops everything: the new root's slot was not in use. -/
lemma Orderly.not_below_advance (h : t.Orderly left stored) (hid : t.childAt? c = none)
    (hi : t.arena.Below t.root i) :
    ¬ (t.advance c).state.arena.Below (t.advance c).state.root i := by
  have hroot : (t.advance c).state.root =
      (t.arena.alloc { cell := some c, color := some (Color.after t.rootNode.color) }).1 := by
    rw [(h.advance c).2.root, moved, hid]
  intro hbelow
  have heq := eq_root_of_bare (by rw [h.rootNode_advance hid]) hbelow
  obtain ⟨hlt, hfree⟩ := h.used hi
  rw [hroot] at heq
  rcases (t.arena.slots_alloc _).1 with hmem | hlast
  · exact hfree (heq ▸ hmem)
  · exact hlt.ne (heq.trans hlast)

/-! ### Sweeping later -/

/-- **Any number of sweeps** keeps the tree. -/
lemma Orderly.sweeps (h : t.Orderly left stored) (n : ℕ) :
    ((fun s : Tree => s.sweep.2)^[n] t).Orderly left stored ∧
      ((fun s : Tree => s.sweep.2)^[n] t).Agrees t := by
  induction n with
  | zero => exact ⟨h, .refl t⟩
  | succ n ih =>
      rw [Function.iterate_succ_apply']
      exact ⟨ih.1.sweep.1, ih.1.sweep.2.trans ih.2⟩

/-- **Moving the root keeps the chosen tree and drops everything else**, after any run of calls with
any boards and any pruning. If a child of the root is the move, it becomes the root and loses its
parent; the nodes below it stay below it and keep all that they hold, and neither the old root nor
any node below another child is among them. If no child is the move, the root is a new node with the
move and the colour that is next, without children and without statistics, and no old node is below
it. Later sweeps, however many, touch nothing of the tree. -/
theorem reroot_exact (h : Run t left stored) {x y : ℤ} (hxy : OnBoard x y) :
    ∃ c t', Cell.ofCoordinates x y = .ok c ∧ (t.advanceTo x y).state = t' ∧
      (t.advanceTo x y).result = .ok () ∧
      (∀ id ∈ t.rootNode.children, (t.node id).cell = some c →
        t'.Succeeds t id ∧ ¬ t'.arena.Below t'.root t.root ∧
        ∀ j ∈ t.rootNode.children, j ≠ id → ∀ i, t.arena.Below j i →
          ¬ t'.arena.Below t'.root i) ∧
      ((∀ id ∈ t.rootNode.children, (t.node id).cell ≠ some c) →
        t'.rootNode =
          { cell := some c
            color := some (Color.after t.rootNode.color)
            visits := 0
            games := 0
            score := 0
            decisive := false
            children := []
            parent := none } ∧
        ∀ i, t.arena.Below t.root i → ¬ t'.arena.Below t'.root i) ∧
      ∀ n, ((fun s : Tree => s.sweep.2)^[n] t').Agrees t' ∧
        ∀ i, ((fun s : Tree => s.sweep.2)^[n] t').arena.Below t'.root i ↔
          t'.arena.Below t'.root i := by
  have ho := h.orderly
  have hd := h.distinct
  obtain ⟨c, hc⟩ := Option.isSome_iff_exists.mp ((Cell.at?_isSome_iff x y).mpr hxy)
  have hcell : Cell.ofCoordinates x y = .ok c := by rw [Cell.ofCoordinates, hc]
  have hstate : (t.advanceTo x y).state = (t.advance c).state := by rw [advanceTo, hcell]
  refine ⟨c, (t.advance c).state, hcell, hstate, by rw [advanceTo, hcell],
    fun id hmem hid => ?_, fun hnone => ?_, fun n => ?_⟩
  · have hsucceeds := ho.succeeds_advance (hd.childAt?_eq_some_iff.mpr ⟨hmem, hid⟩)
    obtain ⟨hroot, hothers⟩ := ho.not_below_child hmem
    refine ⟨hsucceeds, (hsucceeds.below_iff _).not.mpr hroot, fun j hj hne i hi => ?_⟩
    exact (hsucceeds.below_iff i).not.mpr (hothers j hj hne i hi)
  · have hunexplored : t.childAt? c = none := by
      rw [Option.eq_none_iff_forall_ne_some]
      intro id hid
      obtain ⟨hmem, hid⟩ := hd.childAt?_eq_some_iff.mp hid
      exact hnone id hmem hid
    exact ⟨ho.rootNode_advance hunexplored, fun i hi => ho.not_below_advance hunexplored hi⟩
  · obtain ⟨-, hagrees⟩ := (ho.advance c).1.sweeps n
    refine ⟨hagrees, fun i => ?_⟩
    rw [← hagrees.below_iff, hagrees.root]

/-- Moving the root to the middle makes the child the root; a move next to it was not explored. -/
theorem reroot_exact_sprouted :
    (∃ left stored, Run sprouted left stored) ∧ OnBoard 9 9 ∧ OnBoard 9 10 ∧
    ∃ id, sprouted.rootNode.children = [id] ∧
      (sprouted.advanceTo 9 9).state.Succeeds sprouted id ∧
      ¬ (sprouted.advanceTo 9 9).state.arena.Below id sprouted.root ∧
      (sprouted.advanceTo 9 10).state.rootNode = { cell := some ⟨199⟩, color := some .black } := by
  obtain ⟨ledger, id, hkept, -, -, hcolor, hchildren, hchild, -⟩ := sprouted_spec
  obtain ⟨left, stored, hrun⟩ := hkept.run
  have hmem : id ∈ sprouted.rootNode.children := hchildren ▸ List.mem_singleton_self id
  have hcell : (sprouted.node id).cell = some Cell.center := by
    rw [hchild]
    rfl
  have hmiddle : OnBoard 9 9 := by decide
  have hbelow : OnBoard 9 10 := by decide
  obtain ⟨c, t', hc, rfl, -, hexplored, -⟩ := reroot_exact hrun hmiddle
  obtain ⟨c', t'', hc', rfl, -, -, hunexplored, -⟩ := reroot_exact hrun hbelow
  obtain rfl : Cell.center = c := Except.ok.inj hc
  obtain rfl : (⟨199⟩ : Cell) = c' := Except.ok.inj hc'
  obtain ⟨hsucceeds, hroot, -⟩ := hexplored id hmem hcell
  obtain ⟨hfresh, -⟩ := hunexplored fun j hj => by
    rw [hchildren, List.mem_singleton] at hj
    rw [hj, hcell]
    decide
  rw [hsucceeds.root] at hroot
  rw [hcolor] at hfresh
  exact ⟨⟨left, stored, hrun⟩, hmiddle, hbelow, id, hchildren, hsucceeds, hroot, hfresh⟩

end Tree

end FiveInRow
