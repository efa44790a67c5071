import Mathlib.Tactic
import FiveInRow.Proofs.Search.Reroot
import FiveInRow.Proofs.Search.Walk

/-!
The store of nodes as a forest. Every slot is free or in the tree below exactly one root. That no
slot is lost follows from the count of references, once no link can lead back to where it came from.

* `Arena.Child`, `Arena.Below`, `Arena.treeSize`: a link, the nodes of a tree, and how many they
  are;
* `Arena.Forest`: the invariant: every slot is referred to exactly once, and every child knows its
  parent and is younger;
* `Arena.Forest.exists_root`, `Arena.Tidy.eq_of_below`: every used slot is below one root, and below
  no other one;
* `Arena.Forest.live_eq`: the number of used slots is the size of all trees together;
* `Arena.Forest.alloc`, `Arena.Forest.grow`, `Arena.Forest.cut`, `Arena.Forest.release`: what the
  operations on the store do to its trees;
* `Arena.Forest.freeStack`, `Arena.Forest.freeQueued`: freeing leaves the other trees as they were.
-/

namespace FiveInRow

namespace Arena

variable {a b : Arena} {roots held : List NodeId} {i j r r' x id : ℕ}

/-- Node `j` is a child of node `i`. -/
def Child (a : Arena) (i j : NodeId) : Prop := j ∈ (a.get i).children

/-- Node `j` is node `i` or hangs somewhere below it. -/
def Below (a : Arena) : NodeId → NodeId → Prop := Relation.ReflTransGen a.Child

/-- The number of nodes of the tree below `r`, with `r` itself. -/
noncomputable def treeSize (a : Arena) (r : NodeId) : ℕ := Set.ncard {x | a.Below r x}

/-- A store is a forest with the given roots. Every slot is referred to exactly once: as a root, as
a free slot or as a child. A free slot has no children, a child knows its parent, and some ranking
of the nodes grows along every link. -/
structure Forest (a : Arena) (roots : List NodeId) : Prop extends Tidy a roots where
  used : ∀ x < a.nodes.size, x ∈ roots ∨ x ∈ a.free ∨ ∃ i, a.Child i x
  bare : ∀ x ∈ a.free, (a.get x).children = []
  parent : ∀ i j, a.Child i j → (a.get j).parent = some i
  rank : ∃ rank : NodeId → ℕ, ∀ i j, a.Child i j → rank i < rank j

/-! ### Trees and references -/

lemma Below.mono (h : ∀ i j, b.Child i j → a.Child i j) (hb : b.Below r x) : a.Below r x :=
  Relation.ReflTransGen.mono h _ _ hb

lemma Alike.child_iff (h : Alike b a) : b.Child i j ↔ a.Child i j := by
  rw [Child, Child, (h.node i).2.1]

lemma Alike.below_iff (h : Alike b a) : b.Below r x ↔ a.Below r x :=
  ⟨Below.mono fun _ _ => h.child_iff.mp, Below.mono fun _ _ => h.child_iff.mpr⟩

/-- A slot that is listed once among all children is the child of one node. -/
lemma eq_of_child (h : a.parents x ≤ 1) (hi : a.Child i x) (hj : a.Child j x) : i = j := by
  by_contra hne
  have hsub : ({i, j} : Finset ℕ) ⊆ Finset.range a.nodes.size := by
    intro k hk
    rw [Finset.mem_insert, Finset.mem_singleton] at hk
    rcases hk with rfl | rfl
    · exact Finset.mem_range.mpr (lt_size_of_mem_children hi)
    · exact Finset.mem_range.mpr (lt_size_of_mem_children hj)
  have htwo : (a.get i).children.count x + (a.get j).children.count x ≤ a.parents x := by
    rw [← Finset.sum_pair (f := fun k => (a.get k).children.count x) hne]
    exact Finset.sum_le_sum_of_subset hsub
  have hi' := List.count_pos_iff.mpr hi
  have hj' := List.count_pos_iff.mpr hj
  omega

lemma count_child_le (hi : a.Child i x) : (a.get i).children.count x ≤ a.parents x := by
  have hmem := Finset.mem_range.mpr (lt_size_of_mem_children hi)
  exact Finset.single_le_sum (f := fun k => (a.get k).children.count x)
    (fun _ _ => Nat.zero_le _) hmem

lemma Tidy.parents_le (h : Tidy a held) (x : ℕ) : a.parents x ≤ 1 := by
  have honce := h.once x
  rw [refs] at honce
  omega

/-- A slot is the child of one node at most. -/
lemma Tidy.eq_of_child (h : Tidy a held) (hi : a.Child i x) (hj : a.Child j x) : i = j :=
  Arena.eq_of_child (h.parents_le x) hi hj

/-- A child occurs once among the children of its parent. -/
lemma Tidy.count_child (h : Tidy a held) (hi : a.Child i x) : (a.get i).children.count x = 1 :=
  le_antisymm ((count_child_le hi).trans (h.parents_le x)) (List.count_pos_iff.mpr hi)

/-- A child is not free. -/
lemma Tidy.not_free_of_child (h : Tidy a held) (hi : a.Child i x) : x ∉ a.free := by
  intro hfree
  have honce := h.once x
  have hpos := parents_pos hi
  have hcount := List.count_pos_iff.mpr hfree
  rw [refs] at honce
  omega

/-- The nodes of a tree are in slots that are in use. -/
lemma Tidy.used_of_below (h : Tidy a roots) (hr : r ∈ roots) (hx : a.Below r x) :
    x < a.nodes.size ∧ x ∉ a.free := by
  cases hx with
  | refl => exact ⟨h.lt_size_of_held hr, (h.of_mem_held hr).1⟩
  | tail _ hchild => exact ⟨h.lt_size_of_child hchild, h.not_free_of_child hchild⟩

/-- **No node is in two trees.** -/
lemma Tidy.eq_of_below (h : Tidy a roots) (hr : r ∈ roots) (hr' : r' ∈ roots) (hx : a.Below r x)
    (hx' : a.Below r' x) : r = r' := by
  have hroot : ∀ {p q}, p ∈ roots → ¬ a.Child q p := fun hp => (h.of_mem_held hp).2 _
  induction hx with
  | refl =>
      cases hx' with
      | refl => rfl
      | tail _ hchild => exact absurd hchild (hroot hr)
  | tail _ hchild ih =>
      cases hx' with
      | refl => exact absurd hchild (hroot hr')
      | tail hbelow' hchild' =>
          rw [h.eq_of_child hchild' hchild] at hbelow'
          exact ih hbelow'

lemma Tidy.free_nodup (h : Tidy a held) : a.free.Nodup := by
  rw [List.nodup_iff_count_le_one]
  intro x
  have honce := h.once x
  rw [refs] at honce
  omega

lemma Tidy.held_nodup (h : Tidy a held) : held.Nodup := by
  rw [List.nodup_iff_count_le_one]
  intro x
  have honce := h.once x
  rw [refs] at honce
  omega

namespace Forest

/-- **No slot is lost**: a slot that is not free is in one of the trees. -/
lemma exists_root (h : Forest a roots) (hx : x < a.nodes.size) (hfree : x ∉ a.free) :
    ∃ r ∈ roots, a.Below r x := by
  obtain ⟨rank, hrank⟩ := h.rank
  -- induction on the rank: the walk from child to parent ends, and it ends on a root
  induction hn : rank x using Nat.strong_induction_on generalizing x with
  | _ n ih =>
      rcases h.used x hx with hroot | hfree' | ⟨p, hp⟩
      · exact ⟨x, hroot, .refl⟩
      · exact absurd hfree' hfree
      · have hpfree : p ∉ a.free := by
          intro hpf
          rw [Child, h.bare p hpf] at hp
          cases hp
        have hlt : rank p < n := hn ▸ hrank p x hp
        obtain ⟨r, hr, hbelow⟩ := ih (rank p) hlt (lt_size_of_mem_children hp) hpfree rfl
        exact ⟨r, hr, hbelow.tail hp⟩

/-- The slots are the free ones and those of the trees. -/
lemma lt_size_iff (h : Forest a roots) :
    x < a.nodes.size ↔ x ∈ a.free ∨ ∃ r ∈ roots, a.Below r x := by
  constructor
  · intro hx
    by_cases hfree : x ∈ a.free
    · exact .inl hfree
    · exact .inr (h.exists_root hx hfree)
  · rintro (hfree | ⟨r, hr, hbelow⟩)
    · exact h.lt_size_of_free hfree
    · exact (h.used_of_below hr hbelow).1

/-- **The slots in use are the nodes of all trees together.** -/
lemma live_eq (h : Forest a roots) : a.live = (roots.map a.treeSize).sum := by
  classical
  let nodes : NodeId → Finset ℕ := fun r => (Finset.range a.nodes.size).filter (a.Below r)
  have hsize : ∀ r ∈ roots, a.treeSize r = (nodes r).card := by
    intro r hr
    rw [treeSize, ← Set.ncard_coe_finset]
    congr 1
    ext x
    rw [Finset.mem_coe, Finset.mem_filter, Finset.mem_range]
    exact ⟨fun hx => ⟨(h.used_of_below hr hx).1, hx⟩, fun hx => hx.2⟩
  have hdisjoint : Disjoint a.free.toFinset (roots.toFinset.biUnion nodes) := by
    rw [Finset.disjoint_left]
    intro x hfree hx
    obtain ⟨r, hr, hx⟩ := Finset.mem_biUnion.mp hx
    exact (h.used_of_below (List.mem_toFinset.mp hr) (Finset.mem_filter.mp hx).2).2
      (List.mem_toFinset.mp hfree)
  have hapart : (roots.toFinset : Set ℕ).PairwiseDisjoint nodes := by
    intro r hr r' hr' hne
    refine Finset.disjoint_left.mpr fun x hx hx' => hne ?_
    exact h.eq_of_below (List.mem_toFinset.mp hr) (List.mem_toFinset.mp hr')
      (Finset.mem_filter.mp hx).2 (Finset.mem_filter.mp hx').2
  have hunion : Finset.range a.nodes.size = a.free.toFinset ∪ roots.toFinset.biUnion nodes := by
    ext x
    simp only [nodes, Finset.mem_range, Finset.mem_union, List.mem_toFinset, Finset.mem_biUnion,
      Finset.mem_filter]
    constructor
    · intro hx
      exact (h.lt_size_iff.mp hx).imp_right fun ⟨r, hr, hb⟩ => ⟨r, hr, hx, hb⟩
    · rintro (hx | ⟨r, hr, hx, -⟩)
      · exact h.lt_size_iff.mpr (.inl hx)
      · exact hx
  have hcount : a.nodes.size = a.free.length + (roots.map a.treeSize).sum := by
    rw [← Finset.card_range a.nodes.size, hunion, Finset.card_union_of_disjoint hdisjoint,
      Finset.card_biUnion hapart, List.toFinset_card_of_nodup h.free_nodup,
      List.sum_toFinset _ h.held_nodup, List.map_congr_left hsize]
  rw [live]
  omega

end Forest

/-! ### Operations on the store -/

lemma not_child_empty (i j : ℕ) : ¬ empty.Child i j := by
  rw [Child, get_of_size_le (Nat.zero_le i)]
  exact List.not_mem_nil

lemma forest_empty : Forest empty [] where
  toTidy := tidy_empty
  used x hx := absurd hx (Nat.not_lt_zero x)
  bare _ hx := absurd hx List.not_mem_nil
  parent i j hj := absurd hj (not_child_empty i j)
  rank := ⟨id, fun i j hj => absurd hj (not_child_empty i j)⟩

namespace Forest

/-- Roots may be listed in any order. -/
lemma perm {roots' : List NodeId} (h : Forest a roots) (hp : roots.Perm roots') :
    Forest a roots' where
  toTidy := h.toTidy.subperm hp.symm.subperm
  used x hx := (h.used x hx).imp_left hp.mem_iff.mp
  bare := h.bare
  parent := h.parent
  rank := h.rank

/-- Links that are left are as good as before. -/
lemma of_thins (h : Forest a roots) (ht : Thins b a) (htidy : Tidy b held)
    (hused : ∀ x < b.nodes.size, x ∈ held ∨ x ∈ b.free ∨ ∃ i, b.Child i x)
    (hbare : ∀ x ∈ b.free, (b.get x).children = []) : Forest b held where
  toTidy := htidy
  used := hused
  bare := hbare
  parent i j hj := by
    obtain ⟨hj', -, -, -, hparent⟩ := ht i j hj
    rw [hparent, h.parent i j hj']
  rank := by
    obtain ⟨rank, hrank⟩ := h.rank
    exact ⟨rank, fun i j hj => hrank i j (ht i j hj).1⟩

/-- What the search learns has no part in the forest. -/
lemma of_alike (h : Forest a roots) (hb : Alike b a) : Forest b roots := by
  refine h.of_thins hb.thins (hb.tidy h.toTidy) (fun x hx => ?_) fun x hx => ?_
  · rw [hb.size] at hx
    simpa only [hb.free, hb.child_iff] using h.used x hx
  · rw [hb.free] at hx
    rw [(hb.node x).2.1, h.bare x hx]

end Forest

/-- **A new node is a tree of its own.** -/
lemma Forest.alloc (h : Forest a roots) {n : Node} (hn : n.children = []) :
    Forest (a.alloc n).2 ((a.alloc n).1 :: roots) := by
  obtain ⟨htidy, hself, hother⟩ := h.toTidy.alloc hn
  have hfresh : Tidy (a.alloc n).2 ([(a.alloc n).1] ++ roots) := htidy
  have hthins : Thins (a.alloc n).2 a := by
    refine thins_of_fresh hfresh (fun i hi => ?_) fun i hi => ?_
    · rw [List.mem_singleton.mp hi, hself, hn]
    · exact hother i (List.ne_of_not_mem_cons hi)
  obtain ⟨hslot, -, hfree', hsize, hfree⟩ := a.slots_alloc n
  have hbare : (a.get (a.alloc n).1).children = [] := by
    rcases hslot with hmem | hlast
    · exact h.bare _ hmem
    · rw [get_of_size_le hlast.ge]
      rfl
  refine h.of_thins hthins htidy (fun x hx => ?_) fun x hx => ?_
  · rcases hsize x hx with rfl | hx
    · exact .inl List.mem_cons_self
    · rcases h.used x hx with hroot | hx | ⟨i, hi⟩
      · exact .inl (List.mem_cons_of_mem _ hroot)
      · rcases hfree x hx with rfl | hx
        · exact .inl List.mem_cons_self
        · exact .inr (.inl hx)
      · refine .inr (.inr ⟨i, ?_⟩)
        -- the slot of the new node had no children to lose
        have hne : i ≠ (a.alloc n).1 := by
          rintro rfl
          rw [Child, hbare] at hi
          cases hi
        rwa [Child, hother i hne]
  · rw [hother x fun hxid => (htidy.of_mem_held (hxid ▸ List.mem_cons_self)).1 hx]
    exact h.bare x (hfree' hx)

/-- New nodes are trees of their own. -/
lemma Forest.allocAll (h : Forest a roots) {ns : List Node} (hns : ∀ n ∈ ns, n.children = []) :
    Forest (a.allocAll ns).2 ((a.allocAll ns).1 ++ roots) := by
  induction ns generalizing a roots with
  | nil => exact h
  | cons n ns ih =>
      have hnext := ih (h.alloc (hns n List.mem_cons_self)) fun m hm =>
        hns m (List.mem_cons_of_mem _ hm)
      rw [Arena.allocAll]
      exact hnext.perm List.perm_middle

/-- Where no slot is free, new nodes take slots behind all others. -/
lemma size_allocAll (hfree : a.free = []) (ns : List Node) :
    (a.allocAll ns).2.free = [] ∧
      (a.allocAll ns).2.nodes.size = a.nodes.size + (a.allocAll ns).1.length := by
  induction ns generalizing a with
  | nil => exact ⟨hfree, rfl⟩
  | cons n ns ih =>
      have halloc : a.alloc n = (a.nodes.size, { a with nodes := a.nodes.push n }) := by
        rw [Arena.alloc, hfree]
      have hpush : (a.alloc n).2.nodes.size = a.nodes.size + 1 := by
        rw [halloc]
        exact Array.size_push ..
      obtain ⟨hfree', hsize⟩ := ih (a := (a.alloc n).2) (by rw [halloc]; exact hfree)
      rw [Arena.allocAll]
      refine ⟨hfree', hsize.trans ?_⟩
      rw [hpush, List.length_cons]
      omega

/-- After an adoption every link is new, from the leaf to one of the nodes, or it is as it was. -/
lemma Tidy.child_adopt {ids : List NodeId} {leaf : NodeId} (h : Tidy a (ids ++ roots))
    (hslot : leaf < a.nodes.size) (hids : ∀ j ∈ ids, (a.get j).children = [])
    (hj : (a.modify leaf fun n => { n with children := ids }).Child i j) :
    i = leaf ∧ j ∈ ids ∨ i ∉ ids ∧ j ∉ ids ∧ a.Child i j := by
  rw [Child] at hj
  by_cases hi : i = leaf
  · rw [hi, get_modify_self hslot] at hj
    exact .inl ⟨hi, hj⟩
  · rw [get_modify_of_ne hi] at hj
    refine .inr ⟨fun hi' => ?_, fun hj' => ?_, hj⟩
    · rw [hids i hi'] at hj
      cases hj
    · exact (h.of_mem_held (List.mem_append_left _ hj')).2 i hj

/-- **A leaf may adopt new nodes** that know it as their parent. -/
lemma Forest.adopt {ids : List NodeId} {leaf : NodeId} (h : Forest a (ids ++ roots))
    (hslot : leaf < a.nodes.size) (hfree : leaf ∉ a.free) (hnew : leaf ∉ ids)
    (hleaf : (a.get leaf).children = [])
    (hids : ∀ j ∈ ids, (a.get j).children = [] ∧ (a.get j).parent = some leaf) :
    Forest (a.modify leaf fun n => { n with children := ids }) roots := by
  obtain ⟨rank, hrank⟩ := h.rank
  have hbare : ∀ j ∈ ids, (a.get j).children = [] := fun j hj => (hids j hj).1
  have hparent : ∀ j, ((a.modify leaf fun n => { n with children := ids }).get j).parent =
      (a.get j).parent := by
    intro j
    obtain ⟨children, hj⟩ := a.get_modify_children leaf ids j
    rw [hj]
  refine ⟨h.toTidy.adopt hslot hleaf, fun x hx => ?_, fun x hx => ?_, fun i j hj => ?_,
    fun j => if j ∈ ids then rank leaf + 1 else rank j, fun i j hj => ?_⟩
  · rw [size_modify] at hx
    rcases h.used x hx with hroot | hx | ⟨i, hi⟩
    · rcases List.mem_append.mp hroot with hid | hroot
      · refine .inr (.inr ⟨leaf, ?_⟩)
        rw [Child, get_modify_self hslot]
        exact hid
      · exact .inl hroot
    · exact .inr (.inl hx)
    · refine .inr (.inr ⟨i, ?_⟩)
      have hne : i ≠ leaf := by
        rintro rfl
        rw [Child, hleaf] at hi
        cases hi
      rwa [Child, get_modify_of_ne hne]
  · have hne : x ≠ leaf := fun heq => hfree (heq ▸ hx)
    rw [get_modify_of_ne hne]
    exact h.bare x hx
  · rw [hparent]
    rcases h.child_adopt hslot hbare hj with ⟨rfl, hmem⟩ | ⟨-, -, hij⟩
    · exact (hids j hmem).2
    · exact h.parent i j hij
  · dsimp only
    rcases h.child_adopt hslot hbare hj with ⟨rfl, hmem⟩ | ⟨hi, hmem, hij⟩
    · rw [if_neg hnew, if_pos hmem]
      exact Nat.lt_succ_self _
    · rw [if_neg hi, if_neg hmem]
      exact hrank i j hij

/-- **A leaf gets new children.** -/
lemma Forest.grow {ns : List Node} {leaf : NodeId} (h : Forest a roots)
    (hslot : leaf < a.nodes.size) (hfree : leaf ∉ a.free) (hleaf : (a.get leaf).children = [])
    (hns : ∀ n ∈ ns, n.children = [] ∧ n.parent = some leaf) :
    Forest ((a.allocAll ns).2.modify leaf fun n => { n with children := (a.allocAll ns).1 })
      roots := by
  have hbare : ∀ n ∈ ns, n.children = [] := fun n hn => (hns n hn).1
  obtain ⟨-, hmap, hother⟩ := h.toTidy.allocAll hbare
  obtain ⟨hslots, hsize, hfewer⟩ := a.slots_allocAll ns
  have hnew : leaf ∉ (a.allocAll ns).1 := by
    intro hmem
    rcases hslots leaf hmem with hmem | hmem
    · exact hfree hmem
    · exact Nat.not_lt.mpr hmem hslot
  refine (h.allocAll hbare).adopt (hslot.trans_le hsize) (fun hmem => hfree (hfewer hmem)) hnew ?_
    fun j hj => ?_
  · rw [hother leaf hnew, hleaf]
  · have hmem := List.mem_map_of_mem (f := (a.allocAll ns).2.get) hj
    rw [hmap] at hmem
    exact hns _ hmem

/-- The children after a child was cut off. -/
lemma children_cut (a : Arena) (parent child i : ℕ) :
    ((a.cut parent child).get i).children =
      if i = parent then (a.get i).children.filter (· ≠ child) else (a.get i).children := by
  have horphan : ((a.cut parent child).get i).children =
      ((a.modify parent (drop child)).get i).children := by
    rcases (a.modify parent (drop child)).get_modify_cases child orphan i with h | ⟨-, h⟩
    · rw [Arena.cut, h]
    · rw [Arena.cut, h, orphan]
  rw [horphan]
  split_ifs with hi
  · subst hi
    rcases lt_or_ge i a.nodes.size with hlt | hge
    · rw [get_modify_self hlt, drop]
    · rw [get_of_size_le hge, get_of_size_le (by rwa [size_modify])]
      rfl
  · rw [get_modify_of_ne hi]

/-- **A child that is cut off becomes a root.** -/
lemma Forest.cut {parent child : NodeId} (h : Forest a (parent :: held))
    (hc : a.Child parent child) : Forest (a.cut parent child) (child :: parent :: held) := by
  obtain ⟨htidy, hthins, -⟩ := h.toTidy.cut hc
  refine h.of_thins hthins htidy (fun x hx => ?_) fun x hx => ?_
  · rw [Arena.cut, size_modify, size_modify] at hx
    rcases h.used x hx with hroot | hx | ⟨i, hi⟩
    · exact .inl (List.mem_cons_of_mem _ hroot)
    · exact .inr (.inl hx)
    · by_cases hxc : x = child
      · exact .inl (hxc ▸ List.mem_cons_self)
      · refine .inr (.inr ⟨i, ?_⟩)
        rw [Child, children_cut]
        split_ifs
        · exact List.mem_filter.mpr ⟨hi, decide_eq_true hxc⟩
        · exact hi
  · rw [children_cut, h.bare x hx]
    split_ifs <;> rfl

/-- **Releasing a root** makes its children roots. -/
lemma Forest.release (h : Forest a (id :: held)) :
    Forest (a.release id).2 ((a.release id).1 ++ held) := by
  have hid := h.lt_size_of_held List.mem_cons_self
  obtain ⟨htidy, hthins, -⟩ := h.toTidy.release
  have hself : (a.release id).2.get id = { a.get id with children := [], parent := none } :=
    get_modify_self hid
  have hother : ∀ i, i ≠ id → (a.release id).2.get i = a.get i := fun i hi => get_modify_of_ne hi
  refine h.of_thins hthins htidy (fun x hx => ?_) fun x hx => ?_
  · rw [Arena.release, size_modify] at hx
    rcases h.used x hx with hroot | hx | ⟨i, hi⟩
    · rcases List.mem_cons.mp hroot with rfl | hroot
      · exact .inr (.inl List.mem_cons_self)
      · exact .inl (List.mem_append_right _ hroot)
    · exact .inr (.inl (List.mem_cons_of_mem _ hx))
    · by_cases hi' : i = id
      · exact .inl (List.mem_append_left _ (hi' ▸ hi))
      · exact .inr (.inr ⟨i, by rwa [Child, hother i hi']⟩)
  · by_cases hxid : x = id
    · rw [hxid, hself]
    · rw [hother x hxid]
      rcases List.mem_cons.mp hx with heq | hx
      · exact absurd heq hxid
      · exact h.bare x hx

/-- A tree has the same nodes in a store in which they have the same children. -/
lemma below_congr_children (h : ∀ i, a.Below r i → (b.get i).children = (a.get i).children) :
    b.Below r x ↔ a.Below r x := by
  constructor
  · intro hx
    induction hx with
    | refl => exact .refl
    | tail _ hchild ih =>
        rw [Child, h _ ih] at hchild
        exact ih.tail hchild
  · intro hx
    induction hx with
    | refl => exact .refl
    | tail hbelow hchild ih =>
        refine ih.tail ?_
        rwa [Child, h _ hbelow]

/-- A tree looks the same in a store that has the same nodes in it. -/
lemma below_congr (h : ∀ i, a.Below r i → b.get i = a.get i) : b.Below r x ↔ a.Below r x :=
  below_congr_children fun i hi => by rw [h i hi]

/-- Freeing keeps a forest, and it leaves the trees alone that are held. -/
lemma forest_keptByRelease (a : Arena) (held : List NodeId) :
    KeptByRelease fun b stack =>
      Forest b (stack ++ held) ∧ ∀ r ∈ held, ∀ i, a.Below r i → b.get i = a.get i where
  perm := fun ⟨hforest, hget⟩ hperm => ⟨hforest.perm (hperm.append_right held), hget⟩
  release := by
    rintro b id stack ⟨hforest, hget⟩
    rw [List.cons_append] at hforest
    have hforest' := hforest.release
    rw [← List.append_assoc] at hforest'
    refine ⟨hforest', fun r hr i hi => ?_⟩
    -- the node that is freed is a root, so it is in none of the trees that are held
    have hheld : r ∈ id :: (stack ++ held) := List.mem_cons_of_mem _ (List.mem_append_right _ hr)
    have hne : i ≠ id := by
      rintro rfl
      have hbelow := (below_congr (hget r hr)).mpr hi
      have heq := hforest.eq_of_below List.mem_cons_self hheld .refl hbelow
      have hnodup := List.nodup_cons.mp hforest.held_nodup
      exact hnodup.1 (heq ▸ List.mem_append_right _ hr)
    have hsame : (b.release id).2.get i = b.get i := get_modify_of_ne hne
    rw [hsame, hget r hr i hi]

/-- **Freeing a stack of trees** leaves the forest of the others. -/
lemma Forest.freeStack {stack : List NodeId} (h : Forest a (stack ++ held)) (freed : ℕ) :
    Forest (a.freeStack stack freed).2 held ∧
      ∀ r ∈ held, ∀ i, a.Below r i → (a.freeStack stack freed).2.get i = a.get i :=
  (forest_keptByRelease a held).freeStack ⟨h, fun _ _ _ _ => rfl⟩ freed

/-- **Freeing from a queue of trees** leaves a forest of the others and of what is left in the
queue. -/
lemma Forest.freeQueued {queue : Queue NodeId} (h : Forest a (queue.toList ++ held))
    (budget : ℕ) :
    Forest (a.freeQueued queue budget).2.2 ((a.freeQueued queue budget).2.1.toList ++ held) ∧
      ∀ r ∈ held, ∀ i, a.Below r i → (a.freeQueued queue budget).2.2.get i = a.get i :=
  (forest_keptByRelease a held).freeQueued ⟨h, fun _ _ _ _ => rfl⟩ budget 0

end Arena

end FiveInRow
