import Mathlib.Tactic
import FiveInRow.Proofs.Search.Walk

/-!
Moving the root. A move that was explored brings its position along, another one gets a new node;
either way the tree follows the game on the board after the move, and the old root is left behind.

* `Arena.cut`, `Arena.Tidy.cut`: a child cut off its parent, with the subtree below it;
* `Tree.follows_ofBoard`: a new tree follows the game on its board;
* `Tree.Follows.abandon`: the old root is nobody's child, so it can be left behind in any way;
* `Tree.Follows.advance`: the tree follows an accepted move.
-/

namespace FiveInRow

namespace Arena

variable {a : Arena} {held : List NodeId} {parent child : ℕ}

lemma tidy_empty : Tidy empty [] where
  once x := by simp [refs, parents, empty]
  exists_slot x h := by simp [refs, parents, empty] at h

lemma linked_empty (pos : NodeId → Board) : empty.Linked pos := by
  intro i j hj
  rw [get_of_size_le (Nat.zero_le i)] at hj
  cases hj

/-- A new node without children stands for any position. -/
lemma Linked.alloc {pos : NodeId → Board} (h : a.Linked pos) (ht : Tidy a held) {n : Node}
    (hn : n.children = []) (b : Board) :
    (a.alloc n).2.Linked (Function.update pos (a.alloc n).1 b) := by
  obtain ⟨htidy, hself, hother⟩ := ht.alloc hn
  have hbare : ((a.alloc n).2.get (a.alloc n).1).children = [] := by rw [hself, hn]
  have hfresh : Tidy (a.alloc n).2 ([(a.alloc n).1] ++ held) := htidy
  have hthins : Thins (a.alloc n).2 a :=
    thins_of_fresh hfresh (fun i hi => by rw [List.mem_singleton.mp hi, hbare])
      fun i hi => hother i (List.ne_of_not_mem_cons hi)
  refine (h.thins hthins).congr fun i j hj => ⟨?_, ?_⟩
  · refine Function.update_of_ne ?_ _ _
    rintro rfl
    rw [hbare] at hj
    cases hj
  · refine Function.update_of_ne ?_ _ _
    rintro rfl
    exact (htidy.of_mem_held List.mem_cons_self).2 i hj

/-- A node without one of its children. -/
def drop (child : NodeId) (n : Node) : Node :=
  { n with children := n.children.filter (· ≠ child) }

/-- A node without its parent. -/
def orphan (n : Node) : Node := { n with parent := none }

/-- The store after a child was cut off its parent. -/
def cut (a : Arena) (parent child : NodeId) : Arena :=
  (a.modify parent (drop child)).modify child orphan

/-- A node that lets go of a child hands it to the holder. -/
lemma Tidy.drop (h : Tidy a (parent :: held)) (hc : child ∈ (a.get parent).children) :
    Tidy (a.modify parent (drop child)) (child :: parent :: held) := by
  have hslot := h.lt_size_of_held List.mem_cons_self
  refine h.mono size_modify.ge fun x => ?_
  have hparents := parents_modify hslot (Arena.drop child) x
  have hfree : (a.modify parent (Arena.drop child)).free = a.free := rfl
  rw [refs, refs, hfree, List.count_cons]
  rw [Arena.drop] at hparents
  by_cases hx : child = x
  · subst hx
    have hone := List.count_pos_iff.mpr hc
    have hnone : ((a.get parent).children.filter (· ≠ child)).count child = 0 := by
      rw [List.count_eq_zero]
      simp
    rw [hnone] at hparents
    rw [if_pos BEq.rfl]
    omega
  · have hsame : ((a.get parent).children.filter (· ≠ child)).count x =
        (a.get parent).children.count x :=
      List.count_filter (by simpa using Ne.symm hx)
    rw [hsame] at hparents
    rw [if_neg (by simpa using hx)]
    omega

/-- **Cutting a child off** hands it to the holder, takes one link away, and keeps the child but for
its parent. -/
lemma Tidy.cut (h : Tidy a (parent :: held)) (hc : child ∈ (a.get parent).children) :
    Tidy (a.cut parent child) (child :: parent :: held) ∧ Thins (a.cut parent child) a ∧
      (a.cut parent child).get child = orphan (a.get child) := by
  have hne : child ≠ parent := by
    intro heq
    rw [heq] at hc
    exact (h.of_mem_held List.mem_cons_self).2 parent hc
  have htidy := (h.drop hc).modify child fun n => (rfl : (orphan n).children = n.children)
  have hthins : Thins (a.modify parent (Arena.drop child)) a :=
    thins_modify (fun n => ⟨rfl, rfl⟩) (fun n => List.filter_subset_self _) (.inl fun n => rfl)
  have hthins' : Thins (a.cut parent child) (a.modify parent (Arena.drop child)) :=
    thins_modify (fun n => ⟨rfl, rfl⟩) (fun n => List.Subset.refl _)
      (.inr (htidy.of_mem_held List.mem_cons_self).2)
  have hslot : child < (a.modify parent (Arena.drop child)).nodes.size := by
    rw [size_modify]
    exact h.lt_size_of_child hc
  refine ⟨htidy, hthins'.trans hthins, ?_⟩
  rw [Arena.cut, get_modify_self hslot, get_modify_of_ne hne]

end Arena

namespace Tree

variable {t : Tree} {b : Board} {pos : NodeId → Board} {c : Cell} {color : Color}

/-- **A new tree follows the game** on its board. -/
lemma follows_ofBoard (b : Board) (side : Option Color) (config : Config) :
    ∃ pos, (ofBoard b side config).Follows b pos := by
  have hchildren : (rootOf b).children = [] := by
    rw [rootOf]
    split <;> rfl
  obtain ⟨htidy, hself, -⟩ := Arena.tidy_empty.alloc hchildren
  have hlinked := (Arena.linked_empty fun _ => b).alloc Arena.tidy_empty hchildren b
  refine ⟨_, htidy, hlinked, Function.update_self .., ?_, ?_, ?_⟩
  · show ((Arena.empty.alloc (rootOf b)).2.get (Arena.empty.alloc (rootOf b)).1).cell = _
    rw [hself, rootOf]
    cases b.last? <;> rfl
  · show ((Arena.empty.alloc (rootOf b)).2.get (Arena.empty.alloc (rootOf b)).1).color = _
    rw [hself, rootOf]
    cases b.last? <;> rfl
  · show ((Arena.empty.alloc (rootOf b)).2.get (Arena.empty.alloc (rootOf b)).1).parent = _
    rw [hself, rootOf]
    cases b.last? <;> rfl

/-- **An old root can be left behind** in any way. -/
lemma Follows.abandon {old : NodeId} (h : t.Follows b pos)
    (htidy : t.arena.Tidy (old :: t.root :: t.garbage.toList)) : (t.abandon old).Follows b pos := by
  rw [Tree.abandon]
  split
  · exact h
  · have hstack : t.arena.Tidy ([old] ++ t.root :: t.garbage.toList) := htidy
    obtain ⟨htidy', hthins, hget⟩ := hstack.freeStack 0
    have hroot : (t.arena.freeTree old).2.get t.root = t.rootNode := hget t.root List.mem_cons_self
    refine ⟨htidy', h.linked.thins hthins, h.start, ?_, ?_, ?_⟩
    · exact (congrArg Node.cell hroot).trans h.cell
    · exact (congrArg Node.color hroot).trans h.color
    · exact (congrArg Node.parent hroot).trans h.parent
  · have hqueue : t.arena.Tidy (t.root :: (t.garbage.push old).toList) := by
      rw [Queue.toList_push]
      refine htidy.subperm (List.Perm.subperm ?_)
      exact (List.perm_append_singleton old (t.root :: t.garbage.toList))
    exact ⟨hqueue, h.linked, h.start, h.cell, h.color, h.parent⟩

/-- An explored move: its node, cut off the old root, stands for the position after the move. -/
lemma Follows.detach {id : NodeId} (h : t.Follows b pos) (hid : t.childAt? c = some id) :
    ({ t.detach t.root id with root := id } : Tree).Follows (b.place c b.sideToMove) pos ∧
      (t.arena.cut t.root id).Tidy (t.root :: id :: t.garbage.toList) := by
  have hmem : id ∈ (t.arena.get t.root).children := List.mem_of_find?_eq_some hid
  have hfound := List.find?_some hid
  have hcell : (t.arena.get id).cell = some c := of_decide_eq_true hfound
  obtain ⟨-, hcolor, c', hc', -, hpos⟩ := h.linked t.root id hmem
  obtain rfl : c = c' := Option.some.inj (hcell.symm.trans hc')
  have hside : Color.after (t.arena.get t.root).color = b.sideToMove := congrArg Color.after h.color
  rw [hside] at hcolor hpos
  obtain ⟨htidy, hthins, hself⟩ := h.tidy.cut hmem
  refine ⟨⟨?_, h.linked.thins hthins, ?_, ?_, ?_, ?_⟩, ?_⟩
  · exact htidy.subperm ((List.sublist_cons_self t.root _).cons_cons id).subperm
  · rw [hpos, h.start]
  · rw [Board.last?_place]
    exact (congrArg Node.cell hself).trans hcell
  · rw [Board.last?_place]
    exact (congrArg Node.color hself).trans hcolor
  · exact congrArg Node.parent hself
  · exact htidy.subperm (List.Perm.swap id t.root _).subperm

/-- **A tree follows an accepted move.** -/
lemma Follows.advance (h : t.Follows b pos) (c : Cell) :
    ∃ pos', (t.advance c).state.Follows (b.place c b.sideToMove) pos' := by
  rw [Tree.advance]
  cases hid : t.childAt? c with
  | some id =>
      obtain ⟨hfollows, htidy⟩ := h.detach hid
      exact ⟨pos, hfollows.abandon htidy⟩
  | none =>
      have hside : Color.after t.rootNode.color = b.sideToMove := congrArg Color.after h.color
      have hbare : ({ cell := some c, color := some b.sideToMove } : Node).children = [] := rfl
      obtain ⟨htidy, hself, -⟩ := h.tidy.alloc hbare
      have hlinked := h.linked.alloc h.tidy hbare (b.place c b.sideToMove)
      dsimp only
      rw [hside]
      have hswap := htidy.subperm (List.Perm.swap _ t.root _).subperm
      refine ⟨_, Follows.abandon ⟨?_, hlinked, Function.update_self .., ?_, ?_, ?_⟩ hswap⟩
      · exact htidy.subperm ((List.sublist_cons_self t.root _).cons_cons _).subperm
      · rw [Board.last?_place]
        exact congrArg Node.cell hself
      · rw [Board.last?_place]
        exact congrArg Node.color hself
      · exact congrArg Node.parent hself

end Tree

end FiveInRow
