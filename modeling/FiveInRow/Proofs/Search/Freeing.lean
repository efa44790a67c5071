import Mathlib.Algebra.Order.Floor.Div
import Mathlib.Tactic
import FiveInRow.Proofs.Search.Calls

/-!
Freeing at once and freeing in rounds. One takes the nodes of a tree depth first, the other takes
them from a queue, breadth first and a few in a round. Either way a node is freed after its parent
and before its children, so one step is the same for both, and so is what they free in the end.

* `Arena.Grove`: nodes whose trees are in use and have nothing in common;
* `Arena.Freed`, `Arena.Clears`: what freeing some slots makes of a store, and what is left to free;
* `Arena.Grove.clears_release`, `Arena.clears_keptByRelease`: one step, in which a node is freed and
  its children take its place, and any number of steps;
* `Arena.Grove.sum_treeSize`, `Arena.Clears.sum_treeSize`: what is freed and what is left add up;
* `Arena.Grove.freeQueued`, `Arena.Grove.rounds`: one round and several;
* `Arena.Clears.frame`: the other trees stay as they were;
* `Arena.freeTrees`, `Arena.Grove.freeTrees`: one tree after the other, each at once;
* `Arena.Clears.agree`: the order of freeing does not matter;
* `Tree.freeing_exact`: both free the same nodes, in rounds that honour their budget.
-/

namespace FiveInRow

namespace Arena

variable {a b c : Arena} {roots roots' rest stack stack' held released released' : List NodeId}
  {queue : Queue NodeId} {i j r r' x id : ℕ}

/-- Node `x` is in one of the trees below `roots`. -/
def Under (a : Arena) (roots : List NodeId) (x : NodeId) : Prop := ∃ r ∈ roots, a.Below r x

/-- The trees below two nodes have no node in common. -/
def Apart (a : Arena) (r r' : NodeId) : Prop := ∀ x, a.Below r x → ¬ a.Below r' x

/-- A store whose child lists form a forest and whose free slots are distinct slots, and distinct
nodes of it whose trees are in use and have nothing in common. These nodes may have parents, and
there may be other trees. -/
structure Grove (a : Arena) (roots : List NodeId) : Prop where
  once : ∀ x, a.parents x ≤ 1
  acyclic : ∀ i, ¬ Relation.TransGen a.Child i i
  free_nodup : a.free.Nodup
  free_lt : ∀ x ∈ a.free, x < a.nodes.size
  apart : roots.Pairwise a.Apart
  used : ∀ x, a.Under roots x → x < a.nodes.size ∧ x ∉ a.free

/-- The store `b` is the store `a` with the slots `released` freed: the nodes in them lose their
children and their parent, and nothing else changes. -/
structure Freed (a b : Arena) (released : List NodeId) : Prop where
  size : b.nodes.size = a.nodes.size
  free : b.free = released ++ a.free
  bared : ∀ i ∈ released, b.get i = { a.get i with children := [], parent := none }
  kept : ∀ i, i ∉ released → b.get i = a.get i

/-- From the store `a` with the trees below `roots` the nodes `released` are freed, which gives the
store `b`; what is left of the trees hangs below `stack` there. -/
structure Clears (a : Arena) (roots : List NodeId) (b : Arena) (stack released : List NodeId) :
    Prop extends Freed a b released where
  grove : b.Grove stack
  under_iff : ∀ x, a.Under roots x ↔ x ∈ released ∨ b.Under stack x

/-! ### Trees apart -/

lemma under_cons : a.Under (r :: roots) x ↔ a.Below r x ∨ a.Under roots x := by
  simp only [Under, List.mem_cons, or_and_right, exists_or, exists_eq_left]

lemma under_append : a.Under (roots ++ roots') x ↔ a.Under roots x ∨ a.Under roots' x := by
  simp only [Under, List.mem_append, or_and_right, exists_or]

lemma under_of_mem (h : r ∈ roots) : a.Under roots r := ⟨r, h, .refl⟩

lemma Apart.symm (h : a.Apart r r') : a.Apart r' r := fun x hx hx' => h x hx' hx

namespace Grove

lemma of_perm (h : a.Grove roots) (hp : roots.Perm roots') : a.Grove roots' where
  once := h.once
  acyclic := h.acyclic
  free_nodup := h.free_nodup
  free_lt := h.free_lt
  apart := hp.pairwise h.apart fun hr => hr.symm
  used := fun x ⟨r, hr, hx⟩ => h.used x ⟨r, hp.mem_iff.mpr hr, hx⟩

lemma tail (h : a.Grove (id :: rest)) : a.Grove rest where
  once := h.once
  acyclic := h.acyclic
  free_nodup := h.free_nodup
  free_lt := h.free_lt
  apart := (List.pairwise_cons.mp h.apart).2
  used x hx := h.used x (under_cons.mpr (.inr hx))

/-- Of two nodes above the same node one is above the other. -/
lemma below_or_below (h : a.Grove roots) (hx : a.Below r x) (hx' : a.Below r' x) :
    a.Below r r' ∨ a.Below r' r := by
  have hunique : Relator.RightUnique (Function.swap a.Child) := fun _ _ _ hi hj =>
    eq_of_child (h.once _) hi hj
  have htotal := Relation.ReflTransGen.total_of_right_unique hunique hx.swap hx'.swap
  exact htotal.symm.imp (fun hb => hb.swap) fun hb => hb.swap

lemma not_below_parent (h : a.Grove roots) (hc : a.Child i j) : ¬ a.Below j i :=
  fun hb => h.acyclic i (.head' hc hb)

/-- A child is below no other child of its parent. -/
lemma eq_of_siblings (h : a.Grove roots) (hj : a.Child i j) (hx : a.Child i x)
    (hb : a.Below j x) : j = x := by
  cases hb with
  | refl => rfl
  | tail hp hchild =>
      rw [eq_of_child (h.once x) hchild hx] at hp
      exact absurd hp (h.not_below_parent hj)

/-- **The trees below the children of a node have nothing in common.** -/
lemma pairwise_children (h : a.Grove roots) (i : ℕ) : (a.get i).children.Pairwise a.Apart := by
  have hnodup : (a.get i).children.Nodup := by
    rw [List.nodup_iff_count_le_one]
    intro x
    by_cases hx : a.Child i x
    · exact (count_child_le hx).trans (h.once x)
    · rw [List.count_eq_zero.mpr hx]
      exact Nat.zero_le 1
  refine hnodup.imp_of_mem fun hj hk hne x hjx hkx => hne ?_
  rcases h.below_or_below hjx hkx with hb | hb
  · exact h.eq_of_siblings hj hk hb
  · exact (h.eq_of_siblings hk hj hb).symm

end Grove

/-! ### One step -/

lemma child_release_iff (hid : id < a.nodes.size) :
    (a.release id).2.Child i j ↔ i ≠ id ∧ a.Child i j := by
  by_cases hi : i = id
  · subst hi
    have hself : (a.release i).2.get i = { a.get i with children := [], parent := none } :=
      get_modify_self hid
    rw [Child, hself]
    exact ⟨fun hj => absurd hj List.not_mem_nil, fun hj => absurd rfl hj.1⟩
  · have hother : (a.release id).2.get i = a.get i := get_modify_of_ne hi
    rw [Child, hother]
    exact ⟨fun hj => ⟨hi, hj⟩, fun hj => hj.2⟩

/-- A tree without the freed node is as it was. -/
lemma below_release_iff (h : ¬ a.Below r id) : (a.release id).2.Below r x ↔ a.Below r x := by
  refine below_congr fun i hi => get_modify_of_ne ?_
  rintro rfl
  exact h hi

namespace Grove

lemma lt_size (h : a.Grove (id :: rest)) : id < a.nodes.size :=
  (h.used id (under_of_mem List.mem_cons_self)).1

/-- The trees below the children of a root and below the other roots do not contain the root. -/
lemma not_below_head (h : a.Grove (id :: rest)) (hr : r ∈ (a.release id).1 ++ rest) :
    ¬ a.Below r id := by
  rcases List.mem_append.mp hr with hchild | hrest
  · exact h.not_below_parent hchild
  · exact fun hb => (List.pairwise_cons.mp h.apart).1 r hrest id .refl hb

/-- **A root is freed**: what is left of its tree hangs below its children. -/
lemma under_release_iff (h : a.Grove (id :: rest)) :
    a.Under (id :: rest) x ↔ x = id ∨ (a.release id).2.Under ((a.release id).1 ++ rest) x := by
  have hbelow : (a.release id).2.Under ((a.release id).1 ++ rest) x ↔
      a.Under ((a.release id).1 ++ rest) x := by
    refine exists_congr fun r => and_congr_right fun hr => ?_
    exact below_release_iff (h.not_below_head hr)
  have hhead : a.Below id x ↔ x = id ∨ a.Under (a.release id).1 x := by
    rw [Below, Relation.ReflTransGen.cases_head_iff, eq_comm]
    rfl
  rw [hbelow, under_cons, under_append, hhead, or_assoc]

lemma release (h : a.Grove (id :: rest)) :
    (a.release id).2.Grove ((a.release id).1 ++ rest) := by
  have hid := h.lt_size
  have hfewer : ∀ i j, (a.release id).2.Child i j → a.Child i j := fun i j hij =>
    ((child_release_iff hid).mp hij).2
  obtain ⟨hother, hrest⟩ := List.pairwise_cons.mp h.apart
  refine ⟨fun x => ?_, fun i hi => h.acyclic i (.mono hfewer i i hi), ?_, fun x hx => ?_, ?_,
    fun x hx => ?_⟩
  · have hparents := parents_modify hid (fun n => { n with children := [], parent := none }) x
    have honce := h.once x
    rw [List.count_nil] at hparents
    show (a.modify id fun n => { n with children := [], parent := none }).parents x ≤ 1
    omega
  · exact List.nodup_cons.mpr ⟨(h.used id (under_of_mem List.mem_cons_self)).2, h.free_nodup⟩
  · rw [Arena.release, size_modify]
    rcases List.mem_cons.mp hx with rfl | hx
    · exact hid
    · exact h.free_lt x hx
  · have hapart : ((a.release id).1 ++ rest).Pairwise a.Apart := by
      refine List.pairwise_append.mpr ⟨h.pairwise_children id, hrest, fun j hj r hr x hjx => ?_⟩
      exact hother r hr x (.head hj hjx)
    exact hapart.imp fun hr x hx hx' => hr x (hx.mono hfewer) (hx'.mono hfewer)
  · obtain ⟨hlt, hfree⟩ := h.used x (h.under_release_iff.mpr (.inr hx))
    refine ⟨by rwa [Arena.release, size_modify], List.not_mem_cons_of_ne_of_not_mem ?_ hfree⟩
    obtain ⟨r, hr, hx⟩ := hx
    rintro rfl
    exact h.not_below_head hr (hx.mono hfewer)

/-- **One step**: a node is freed, and its children take its place. -/
lemma clears_release (h : a.Grove (id :: rest)) :
    a.Clears (id :: rest) (a.release id).2 ((a.release id).1 ++ rest) [id] where
  size := size_modify
  free := rfl
  bared i hi := by
    rw [List.mem_singleton.mp hi]
    exact get_modify_self h.lt_size
  kept i hi := get_modify_of_ne (List.ne_of_not_mem_cons hi)
  grove := h.release
  under_iff x := by rw [h.under_release_iff, List.mem_singleton]

end Grove

/-! ### Several steps -/

namespace Clears

lemma refl (h : a.Grove roots) : a.Clears roots a roots [] where
  size := rfl
  free := rfl
  bared _ hi := absurd hi List.not_mem_nil
  kept _ _ := rfl
  grove := h
  under_iff _ := ⟨.inr, fun hx => hx.resolve_left List.not_mem_nil⟩

/-- What was freed first stays as it was freed. -/
lemma trans (h : a.Clears roots b stack released) (h' : b.Clears stack c stack' released') :
    a.Clears roots c stack' (released' ++ released) where
  size := h'.size.trans h.size
  free := by rw [h'.free, h.free, List.append_assoc]
  bared i hi := by
    by_cases hi' : i ∈ released'
    · rw [h'.bared i hi']
      by_cases hi'' : i ∈ released
      · rw [h.bared i hi'']
      · rw [h.kept i hi'']
    · rw [h'.kept i hi', h.bared i ((List.mem_append.mp hi).resolve_left hi')]
  kept i hi := by
    rw [List.mem_append, not_or] at hi
    rw [h'.kept i hi.1, h.kept i hi.2]
  grove := h'.grove
  under_iff x := by
    rw [h.under_iff, h'.under_iff, List.mem_append]
    tauto

lemma of_perm (h : a.Clears roots b stack released) (hp : stack.Perm stack') :
    a.Clears roots b stack' released where
  toFreed := h.toFreed
  grove := h.grove.of_perm hp
  under_iff x := by
    rw [h.under_iff]
    exact or_congr_right (exists_congr fun r => and_congr_left fun _ => hp.mem_iff)

lemma nodup (h : a.Clears roots b stack released) : released.Nodup := by
  have hnodup := h.grove.free_nodup
  rw [h.free] at hnodup
  exact hnodup.of_append_left

/-- What is left was not freed. -/
lemma not_mem_released (h : a.Clears roots b stack released) (hx : b.Under stack x) :
    x ∉ released := by
  have hfree := (h.grove.used x hx).2
  rw [h.free, List.mem_append, not_or] at hfree
  exact hfree.1

lemma live_add (h : a.Clears roots b stack released) : b.live + released.length = a.live := by
  have hlt : b.free.toFinset ⊆ Finset.range b.nodes.size := fun x hx =>
    Finset.mem_range.mpr (h.grove.free_lt x (List.mem_toFinset.mp hx))
  have hle := Finset.card_le_card hlt
  rw [List.toFinset_card_of_nodup h.grove.free_nodup, Finset.card_range, h.size, h.free,
    List.length_append] at hle
  rw [live, live, h.size, h.free, List.length_append]
  omega

end Clears

/-- Freeing one node at a time, in whatever order, clears the trees. -/
lemma clears_keptByRelease (a : Arena) (roots : List NodeId) :
    KeptByRelease fun b stack => ∃ released, a.Clears roots b stack released where
  perm := fun ⟨released, h⟩ hp => ⟨released, h.of_perm hp⟩
  release := fun ⟨_, h⟩ => ⟨_, h.trans h.grove.clears_release⟩

/-! ### Counting -/

/-- The count of a stack that is freed is the number of slots that become free. -/
lemma count_freeStack (a : Arena) (stack : List NodeId) (freed : ℕ) :
    (a.freeStack stack freed).1 + a.free.length =
      freed + (a.freeStack stack freed).2.free.length := by
  induction a, stack, freed using Arena.freeStack.induct with
  | case1 a freed => rw [Arena.freeStack]
  | case2 a freed id rest released ih =>
      have hfree : (a.release id).2.free.length = a.free.length + 1 := rfl
      subst released
      rw [Arena.freeStack]
      omega

/-- So is the count of a round. The round ends when its budget or the queue is used up. -/
lemma count_freeQueuedFrom (a : Arena) (queue : Queue NodeId) (budget freed : ℕ) :
    (a.freeQueuedFrom queue budget freed).1 + a.free.length =
        freed + (a.freeQueuedFrom queue budget freed).2.2.free.length ∧
      (a.freeQueuedFrom queue budget freed).1 ≤ freed + budget ∧
      ((a.freeQueuedFrom queue budget freed).1 = freed + budget ∨
        (a.freeQueuedFrom queue budget freed).2.1.toList = []) := by
  induction budget generalizing a queue freed with
  | zero => exact ⟨rfl, le_rfl, .inl rfl⟩
  | succ budget ih =>
      rw [freeQueuedFrom]
      cases hpop : queue.pop? with
      | none =>
          have hnil := queue.pop?_eq_none_iff.mp hpop
          exact ⟨rfl, Nat.le_add_right _ _, .inr hnil⟩
      | some popped =>
          obtain ⟨id, rest⟩ := popped
          have hfree : (a.release id).2.free.length = a.free.length + 1 := rfl
          obtain ⟨hcount, hle, hend⟩ :=
            ih (a.release id).2 (rest.pushAll (a.release id).1) (freed + 1)
          dsimp only
          refine ⟨by omega, by omega, hend.imp_left fun heq => by omega⟩

lemma Grove.finite_under (h : a.Grove roots) : {x | a.Under roots x}.Finite :=
  (Set.finite_lt_nat a.nodes.size).subset fun x hx => (h.used x hx).1

/-- **The nodes of trees that have nothing in common** are counted tree by tree. -/
lemma Grove.sum_treeSize (h : a.Grove roots) :
    (roots.map a.treeSize).sum = {x | a.Under roots x}.ncard := by
  induction roots with
  | nil =>
      have hempty : {x | a.Under [] x} = ∅ := by
        ext x
        simp [Under]
      rw [hempty, Set.ncard_empty]
      rfl
  | cons r rest ih =>
      have hunion : {x | a.Under (r :: rest) x} = {x | a.Below r x} ∪ {x | a.Under rest x} := by
        ext x
        exact under_cons
      have hdisjoint : Disjoint {x | a.Below r x} {x | a.Under rest x} := by
        refine Set.disjoint_left.mpr fun x hx ⟨r', hr', hx'⟩ => ?_
        exact (List.pairwise_cons.mp h.apart).1 r' hr' x hx hx'
      have hfinite : {x | a.Below r x}.Finite :=
        h.finite_under.subset fun x hx => under_cons.mpr (.inl hx)
      rw [hunion, Set.ncard_union_eq hdisjoint hfinite h.tail.finite_under, ← ih h.tail,
        List.map_cons, List.sum_cons, treeSize]

/-- No nodes are left exactly if no tree is left. -/
lemma Grove.sum_treeSize_eq_zero_iff (h : a.Grove roots) :
    (roots.map a.treeSize).sum = 0 ↔ roots = [] := by
  constructor
  · intro hzero
    rw [h.sum_treeSize, Set.ncard_eq_zero h.finite_under] at hzero
    refine List.eq_nil_iff_forall_not_mem.mpr fun r hr => ?_
    have hmem : r ∈ {x | a.Under roots x} := under_of_mem hr
    rw [hzero] at hmem
    exact hmem
  · rintro rfl
    rfl

/-- **What is freed and what is left add up.** -/
lemma Clears.sum_treeSize (h : a.Clears roots b stack released) (ha : a.Grove roots) :
    (roots.map a.treeSize).sum = released.length + (stack.map b.treeSize).sum := by
  have hunion : {x | a.Under roots x} = ↑released.toFinset ∪ {x | b.Under stack x} := by
    ext x
    rw [Set.mem_union, Finset.mem_coe, List.mem_toFinset]
    exact h.under_iff x
  have hdisjoint : Disjoint (↑released.toFinset : Set ℕ) {x | b.Under stack x} := by
    refine Set.disjoint_right.mpr fun x hx hmem => h.not_mem_released hx ?_
    exact List.mem_toFinset.mp hmem
  rw [ha.sum_treeSize, h.grove.sum_treeSize, hunion,
    Set.ncard_union_eq hdisjoint (Finset.finite_toSet _) h.grove.finite_under,
    Set.ncard_coe_finset, List.toFinset_card_of_nodup h.nodup]

/-! ### Rounds -/

/-- **One round** frees as many nodes as the budget allows, or all. -/
lemma Grove.freeQueued (h : a.Grove queue.toList) (budget : ℕ) :
    ∃ released, a.Clears queue.toList (a.freeQueued queue budget).2.2
        (a.freeQueued queue budget).2.1.toList released ∧
      (a.freeQueued queue budget).1 = released.length ∧
      released.length = min budget (queue.toList.map a.treeSize).sum := by
  obtain ⟨released, hclears⟩ :=
    (clears_keptByRelease a queue.toList).freeQueued ⟨[], .refl h⟩ budget 0
  obtain ⟨hcount, hle, hend⟩ := a.count_freeQueuedFrom queue budget 0
  have hsum := hclears.sum_treeSize h
  have hlength : (a.freeQueuedFrom queue budget 0).1 = released.length := by
    rw [hclears.free, List.length_append] at hcount
    omega
  refine ⟨released, hclears, hlength, ?_⟩
  rw [← hclears.grove.sum_treeSize_eq_zero_iff] at hend
  omega

/-- A round, as a step of the queue and the store. -/
def round (budget : ℕ) (s : Queue NodeId × Arena) : Queue NodeId × Arena :=
  (s.2.freeQueued s.1 budget).2

/-- **Several rounds** free as many nodes as their budgets allow together, or all. -/
lemma Grove.rounds (h : a.Grove queue.toList) (budget k : ℕ) :
    ∃ released, a.Clears queue.toList ((round budget)^[k] (queue, a)).2
        ((round budget)^[k] (queue, a)).1.toList released ∧
      released.length = min (budget * k) (queue.toList.map a.treeSize).sum := by
  induction k with
  | zero => exact ⟨[], .refl h, by rw [Nat.mul_zero, Nat.zero_min]; rfl⟩
  | succ k ih =>
      obtain ⟨released, hclears, hlength⟩ := ih
      rw [Function.iterate_succ_apply']
      generalize (round budget)^[k] (queue, a) = s at *
      obtain ⟨released', hclears', -, hlength'⟩ := hclears.grove.freeQueued budget
      have hsum := hclears.sum_treeSize h
      refine ⟨released' ++ released, hclears.trans hclears', ?_⟩
      rw [List.length_append, Nat.mul_succ]
      omega

/-! ### At once -/

/-- **The other trees stay as they were.** -/
lemma Clears.frame (h : a.Clears roots b stack released) (ha : a.Grove (roots ++ held)) :
    a.Clears (roots ++ held) b (stack ++ held) released ∧
      ∀ r ∈ held, ∀ x, b.Below r x ↔ a.Below r x := by
  obtain ⟨-, hheld, hcross⟩ := List.pairwise_append.mp ha.apart
  have hkept : ∀ r ∈ held, ∀ x, a.Below r x → x ∉ released := fun r hr x hx hmem => by
    obtain ⟨r', hr', hx'⟩ := (h.under_iff x).mpr (.inl hmem)
    exact hcross r' hr' r hr x hx' hx
  have hbelow : ∀ r ∈ held, ∀ x, b.Below r x ↔ a.Below r x := fun r hr x =>
    below_congr fun i hi => h.kept i (hkept r hr i hi)
  have hunder : ∀ x, b.Under held x ↔ a.Under held x := fun x =>
    exists_congr fun r => and_congr_right fun hr => hbelow r hr x
  refine ⟨⟨h.toFreed, ⟨h.grove.once, h.grove.acyclic, h.grove.free_nodup, h.grove.free_lt, ?_,
    fun x hx => ?_⟩, fun x => ?_⟩, hbelow⟩
  · refine List.pairwise_append.mpr ⟨h.grove.apart, ?_, fun s hs r hr x hx hx' => ?_⟩
    · refine hheld.imp_of_mem fun hr hr' hapart x hx hx' => ?_
      exact hapart x ((hbelow _ hr x).mp hx) ((hbelow _ hr' x).mp hx')
    · obtain ⟨r', hr', hx''⟩ := (h.under_iff x).mpr (.inr ⟨s, hs, hx⟩)
      exact hcross r' hr' r hr x hx'' ((hbelow r hr x).mp hx')
  · rcases under_append.mp hx with hx | ⟨r, hr, hx⟩
    · exact h.grove.used x hx
    · rw [hbelow r hr] at hx
      obtain ⟨hlt, hfree⟩ := ha.used x (under_append.mpr (.inr ⟨r, hr, hx⟩))
      rw [h.size, h.free]
      exact ⟨hlt, List.not_mem_append (hkept r hr x hx) hfree⟩
  · rw [under_append, under_append, h.under_iff, hunder, or_assoc]

/-- Free trees one after the other, each at once. The result counts the nodes of each. -/
def freeTrees (a : Arena) : List NodeId → List ℕ × Arena
  | [] => ([], a)
  | r :: roots =>
    let (freed, a) := a.freeTree r
    let (counts, a) := a.freeTrees roots
    (freed :: counts, a)

/-- **A tree that is freed at once** is freed as a whole, and the count is its size. -/
lemma Grove.freeTree (h : a.Grove (r :: roots)) :
    (a.freeTree r).1 = a.treeSize r ∧
      ∃ released, a.Clears (r :: roots) (a.freeTree r).2 roots released ∧
        ∀ r' ∈ roots, (a.freeTree r).2.treeSize r' = a.treeSize r' := by
  have hr : a.Grove [r] :=
    ⟨h.once, h.acyclic, h.free_nodup, h.free_lt, List.pairwise_singleton _ r, fun x hx =>
      h.used x (under_append.mpr (.inl hx))⟩
  obtain ⟨released, hclears⟩ := (clears_keptByRelease a [r]).freeStack ⟨[], .refl hr⟩ 0
  obtain ⟨hframe, hbelow⟩ := hclears.frame (show a.Grove ([r] ++ roots) from h)
  refine ⟨?_, released, hframe, fun r' hr' => ?_⟩
  · have hcount := a.count_freeStack [r] 0
    have hsum := hclears.sum_treeSize hr
    rw [hclears.free, List.length_append] at hcount
    simp only [List.map_cons, List.map_nil, List.sum_cons, List.sum_nil] at hsum
    rw [Arena.freeTree]
    omega
  · exact congrArg Set.ncard (Set.ext fun x => hbelow r' hr' x)

/-- **Trees that are freed one after the other** are freed as a whole, with exact counts. -/
lemma Grove.freeTrees (h : a.Grove roots) :
    (a.freeTrees roots).1 = roots.map a.treeSize ∧
      ∃ released, a.Clears roots (a.freeTrees roots).2 [] released := by
  induction roots generalizing a with
  | nil => exact ⟨rfl, [], .refl h⟩
  | cons r roots ih =>
      obtain ⟨hcount, released, hclears, hsizes⟩ := h.freeTree
      obtain ⟨hcounts, released', hclears'⟩ := ih hclears.grove
      refine ⟨?_, released' ++ released, hclears.trans hclears'⟩
      rw [List.map_cons, ← hcount, ← List.map_congr_left hsizes, ← hcounts]
      rfl

/-- **The order of freeing does not matter**: stores from which the same trees are freed as a whole
agree up to the order of the free slots. -/
lemma Clears.agree (h : a.Clears roots b [] released) (h' : a.Clears roots c [] released') :
    b.free.Perm c.free ∧ ∀ i, b.get i = c.get i := by
  have hmem : ∀ x, x ∈ released ↔ x ∈ released' := by
    have hnone : ∀ (s : Arena) (x : ℕ), ¬ s.Under [] x := fun s x ⟨r, hr, _⟩ =>
      List.not_mem_nil hr
    intro x
    have hiff := (h.under_iff x).symm.trans (h'.under_iff x)
    rwa [or_iff_left (hnone b x), or_iff_left (hnone c x)] at hiff
  refine ⟨?_, fun i => ?_⟩
  · rw [h.free, h'.free]
    exact ((List.perm_ext_iff_of_nodup h.nodup h'.nodup).mpr hmem).append_right a.free
  · by_cases hi : i ∈ released
    · rw [h.bared i hi, h'.bared i ((hmem i).mp hi)]
    · rw [h.kept i hi, h'.kept i (mt (hmem i).mpr hi)]

/-- Some roots of a forest are a grove. -/
lemma Forest.grove (h : a.Forest (roots ++ held)) : a.Grove roots where
  once := h.parents_le
  acyclic := by
    obtain ⟨rank, hrank⟩ := h.rank
    intro i hi
    have hlt : ∀ j, Relation.TransGen a.Child i j → rank i < rank j := by
      intro j hj
      induction hj with
      | single hij => exact hrank i _ hij
      | tail _ hjk ih => exact ih.trans (hrank _ _ hjk)
    exact (hlt i hi).false
  free_nodup := h.free_nodup
  free_lt x hx := h.lt_size_of_free hx
  apart := by
    have hnodup := h.held_nodup.of_append_left
    refine hnodup.imp_of_mem fun hr hr' hne x hx hx' => hne ?_
    exact h.eq_of_below (List.mem_append_left _ hr) (List.mem_append_left _ hr') hx hx'
  used := fun x ⟨r, hr, hx⟩ => h.used_of_below (List.mem_append_left _ hr) hx

end Arena

namespace Tree

variable {t : Tree} {left : List NodeId} {stored budget : ℕ}

/-- What is queued has nothing in common. -/
lemma Orderly.grove (h : t.Orderly left stored) : t.arena.Grove t.garbage.toList := by
  have hforest : t.arena.Forest (t.garbage.toList ++ t.root :: left) :=
    h.forest.perm List.perm_middle.symm
  exact hforest.grove

lemma Orderly.grove_root (h : t.Orderly left stored) : t.arena.Grove [t.root] :=
  Arena.Forest.grove (show t.arena.Forest ([t.root] ++ (t.garbage.toList ++ left)) from h.forest)

/-- **Freeing in rounds is freeing at once, and every round honours its budget.** Let distinct nodes
of a store be queued, whose trees are in use and have nothing in common. A round frees as many nodes
as its budget allows, or all; it returns their number, by which the number of slots in use falls.
No node is freed twice or outside of the trees. The nodes of the trees that were not freed are those
of the trees that are left in the queue, which again have nothing in common, and all other nodes
keep all that they hold. With a budget the queue is empty from that round on that divides the nodes
by the budget and rounds up. Then the same slots are free, and the store shows the same nodes, as if
each tree had been freed at once, which counts the nodes of each.

So sweeping under soft pruning frees as many of the queued nodes as the budget allows, or all, and
no node of the tree. -/
theorem freeing_exact :
    (∀ (a : Arena) (queue : Queue NodeId), a.Grove queue.toList →
      (∀ budget, ∃ released, released.Nodup ∧
        a.Clears queue.toList (a.freeQueued queue budget).2.2
          (a.freeQueued queue budget).2.1.toList released ∧
        (a.freeQueued queue budget).1 = released.length ∧
        released.length = min budget (queue.toList.map a.treeSize).sum ∧
        (a.freeQueued queue budget).2.2.live + released.length = a.live ∧
        ((a.freeQueued queue budget).2.1.toList.map
            (a.freeQueued queue budget).2.2.treeSize).sum =
          (queue.toList.map a.treeSize).sum - min budget (queue.toList.map a.treeSize).sum) ∧
      (∀ budget, 0 < budget → ∀ k,
        (((Arena.round budget)^[k] (queue, a)).1.toList = [] ↔
          (queue.toList.map a.treeSize).sum ⌈/⌉ budget ≤ k) ∧
        (((Arena.round budget)^[k] (queue, a)).1.toList = [] →
          ((Arena.round budget)^[k] (queue, a)).2.free.Perm (a.freeTrees queue.toList).2.free ∧
          ∀ i, ((Arena.round budget)^[k] (queue, a)).2.get i =
            (a.freeTrees queue.toList).2.get i)) ∧
      (a.freeTrees queue.toList).1 = queue.toList.map a.treeSize) ∧
    ∀ (t : Tree) (left : List NodeId) (stored budget : ℕ), Run t left stored →
      t.config.pruning = .soft budget →
      t.sweep.1 = min budget (t.garbage.toList.map t.arena.treeSize).sum ∧
      t.sweep.2.nodeCount + t.sweep.1 = t.nodeCount ∧
      ∀ i, t.arena.Below t.root i → i ∉ t.sweep.2.arena.free ∧ t.sweep.2.node i = t.node i := by
  refine ⟨fun a queue h => ⟨fun budget => ?_, fun budget hpos k => ?_, h.freeTrees.1⟩,
    fun t left stored budget hrun hsoft => ?_⟩
  · obtain ⟨released, hclears, hcount, hlength⟩ := h.freeQueued budget
    have hsum := hclears.sum_treeSize h
    exact ⟨released, hclears.nodup, hclears, hcount, hlength, hclears.live_add, by omega⟩
  · obtain ⟨released, hclears, hlength⟩ := h.rounds budget k
    have hsum := hclears.sum_treeSize h
    refine ⟨?_, fun hnil => ?_⟩
    · rw [ceilDiv_le_iff_le_mul hpos, ← hclears.grove.sum_treeSize_eq_zero_iff]
      omega
    · rw [hnil] at hclears
      obtain ⟨-, released', hclears'⟩ := h.freeTrees
      exact hclears.agree hclears'
  · have horderly := hrun.orderly
    obtain ⟨released, hclears, hcount, hlength⟩ := horderly.grove.freeQueued budget
    obtain ⟨hswept, hagrees⟩ := horderly.sweep
    have hcount' : t.sweep.1 = released.length := by rw [sweep, hsoft, hcount]
    have hlive : t.sweep.2.nodeCount = (t.arena.freeQueued t.garbage budget).2.2.live := by
      rw [sweep, hsoft]
      rfl
    refine ⟨hcount'.trans hlength, ?_, fun i hi => ⟨?_, hagrees.node i hi⟩⟩
    · rw [hlive, hcount', hclears.live_add, nodeCount]
    · exact (hswept.used (hagrees.below_iff.mpr hi)).2

/-- A store with one tree: a root with two children, one of which has a child. -/
def family : Arena :=
  let a := (Arena.empty.alloc Node.blank).2
  let b := (a.allocAll [Node.reply 0 .black ⟨0⟩, Node.reply 0 .black ⟨1⟩]).2.modify 0 fun n =>
    { n with children := [1, 2] }
  (b.allocAll [Node.reply 1 .white ⟨1⟩]).2.modify 1 fun n => { n with children := [3] }

/-- Three moves that nobody explored; their roots are still queued. -/
def passed : Tree :=
  [Call.advance 9 9, .advance 3 4, .advance 5 5].foldl after
    (fresh (some .black) { pruning := .soft 2 })

/-- Two rounds with a budget of three free the four nodes of the family; and of three roots that are
queued two are swept. -/
theorem freeing_exact_family :
    family.Grove [0] ∧
    (∃ released, family.Clears [0] (family.freeQueued ⟨[0], []⟩ 3).2.2 [3] released ∧
      released.length = 3) ∧
    ((Arena.round 3)^[2] (⟨[0], []⟩, family)).1.toList = [] ∧
    ((Arena.round 3)^[2] (⟨[0], []⟩, family)).2.free.Perm (family.freeTrees [0]).2.free ∧
    (family.freeTrees [0]).1 = [4] ∧
    (∃ left stored, Run passed left stored) ∧ passed.sweep.1 = 2 ∧
      2 ≤ (passed.garbage.toList.map passed.arena.treeSize).sum ∧
      passed.sweep.2.nodeCount + 2 = passed.nodeCount := by
  have hforest : family.Forest [0] := by
    have hroot := Arena.forest_empty.alloc (show Node.blank.children = [] from rfl)
    have hpair : ∀ n ∈ [Node.reply 0 .black ⟨0⟩, Node.reply 0 .black ⟨1⟩],
        n.children = [] ∧ n.parent = some 0 := by decide
    have hlone : ∀ n ∈ [Node.reply 1 .white ⟨1⟩], n.children = [] ∧ n.parent = some 1 := by decide
    exact (hroot.grow (by decide) (by decide) rfl hpair).grow (by decide) (by decide) rfl hlone
  have hgrove : family.Grove [0] := (hforest : family.Forest ([0] ++ [])).grove
  have hsum : ([0].map family.treeSize).sum = 4 := by
    rw [← hforest.live_eq]
    decide
  obtain ⟨hround, hrounds, hcounts⟩ := freeing_exact.1 family ⟨[0], []⟩ hgrove
  obtain ⟨released, -, hclears, -, hlength, -⟩ := hround 3
  obtain ⟨hempty, hagree⟩ := hrounds 3 (by decide) 2
  have hnil := hempty.mpr (by rw [show (Queue.mk [0] []).toList = [0] from rfl, hsum]; decide)
  have hstart : Run (fresh (some .black) { pruning := .soft 2 }) [] 1 :=
    .start Board.empty (some .black) { pruning := .soft 2 } (Xoshiro.ofSeed 0)
  obtain ⟨left, stored, hrun⟩ : ∃ left stored, Run passed left stored := hstart.calls _
  have hswept : passed.sweep.1 = 2 := by decide +kernel
  obtain ⟨hfreed, hcount, -⟩ := freeing_exact.2 passed left stored 2 hrun (by decide +kernel)
  rw [hswept] at hfreed hcount
  refine ⟨hgrove, ⟨released, ?_, ?_⟩, hnil, (hagree hnil).1, ?_, ⟨left, stored, hrun⟩, hswept, ?_,
    hcount⟩
  · exact hclears
  · rw [hlength]
    exact congrArg (min 3) hsum
  · rw [show [4] = [0].map family.treeSize by simpa using hsum.symm]
    exact hcounts
  · omega

end Tree

end FiveInRow
