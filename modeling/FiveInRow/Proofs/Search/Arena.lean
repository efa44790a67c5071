import Mathlib.Tactic
import FiveInRow.Search.Arena

/-!
The store of nodes as a set of trees. Slots are used again, so everything rests on one count: a slot
is referred to at most once, by a holder outside the store, as a free slot or as a child.

* `Arena.refs`, `Arena.Tidy`: that count, and a store in which it never exceeds one;
* `Arena.Thins`: a store whose links are all links of another one, between the same moves;
* `Arena.Tidy.alloc`, `Arena.Tidy.allocAll`: new nodes land in slots that nobody refers to;
* `Arena.Tidy.release`: freeing a slot hands its children to the holder;
* `Arena.KeptByRelease`: what freeing one node keeps, freeing a stack or from a queue keeps;
* `Arena.Tidy.freeStack`, `Arena.Tidy.freeQueued`: what freeing leaves of the store.
-/

namespace FiveInRow

namespace Arena

variable {a b c : Arena} {id i x : ℕ} {held stack : List NodeId} {f : Node → Node}

/-! ### Reading a slot -/

lemma get_of_size_le (h : a.nodes.size ≤ i) : a.get i = Node.blank := by
  rw [get, Array.getElem?_eq_none h]
  rfl

lemma lt_size_of_mem_children (h : x ∈ (a.get i).children) : i < a.nodes.size := by
  by_contra hi
  rw [get_of_size_le (Nat.le_of_not_lt hi)] at h
  cases h

@[simp] lemma size_modify : (a.modify id f).nodes.size = a.nodes.size := by
  rw [modify, Array.size_modify]

lemma get_modify_self (h : id < a.nodes.size) : (a.modify id f).get id = f (a.get id) := by
  rw [get, get, modify, Array.getElem?_modify, if_pos rfl, Array.getElem?_eq_getElem h]
  rfl

lemma get_modify_of_ne (h : i ≠ id) : (a.modify id f).get i = a.get i := by
  rw [get, get, modify, Array.getElem?_modify, if_neg (Ne.symm h)]

/-- Changing a slot changes that slot, or nothing. -/
lemma get_modify_cases (a : Arena) (id : ℕ) (f : Node → Node) (i : ℕ) :
    (a.modify id f).get i = a.get i ∨ i = id ∧ (a.modify id f).get i = f (a.get i) := by
  by_cases hi : i = id
  · subst hi
    rcases lt_or_ge i a.nodes.size with hlt | hge
    · exact .inr ⟨rfl, get_modify_self hlt⟩
    · left
      rw [get_of_size_le hge, get_of_size_le (by rwa [size_modify])]
  · exact .inl (get_modify_of_ne hi)

/-- Giving a node other children changes nothing else about any node. -/
lemma get_modify_children (a : Arena) (id : ℕ) (ids : List NodeId) (i : ℕ) :
    ∃ children, (a.modify id fun n => { n with children := ids }).get i =
      { a.get i with children } := by
  rcases a.get_modify_cases id (fun n => { n with children := ids }) i with h | ⟨-, h⟩
  · exact ⟨_, h⟩
  · exact ⟨_, h⟩

/-! ### Counting references -/

/-- How many nodes have a slot as a child. -/
def parents (a : Arena) (x : ℕ) : ℕ :=
  ∑ i ∈ Finset.range a.nodes.size, (a.get i).children.count x

/-- How often a slot is referred to: by a holder, as a free slot, and as a child. -/
def refs (a : Arena) (held : List NodeId) (x : ℕ) : ℕ :=
  held.count x + a.free.count x + a.parents x

/-- Every slot is referred to at most once, and every slot that is referred to exists. -/
structure Tidy (a : Arena) (held : List NodeId) : Prop where
  once : ∀ x, a.refs held x ≤ 1
  exists_slot : ∀ x, 0 < a.refs held x → x < a.nodes.size

/-- When one slot changes, only its children are counted anew. -/
lemma parents_add_count (hsize : b.nodes.size = a.nodes.size) (hid : id < a.nodes.size)
    (hget : ∀ i, i ≠ id → b.get i = a.get i) (x : ℕ) :
    b.parents x + (a.get id).children.count x = a.parents x + (b.get id).children.count x := by
  have hmem : id ∈ Finset.range a.nodes.size := Finset.mem_range.mpr hid
  have hothers : ∑ i ∈ (Finset.range a.nodes.size).erase id, (b.get i).children.count x =
      ∑ i ∈ (Finset.range a.nodes.size).erase id, (a.get i).children.count x :=
    Finset.sum_congr rfl fun i hi => by rw [hget i (Finset.ne_of_mem_erase hi)]
  have ha : (a.get id).children.count x +
      ∑ i ∈ (Finset.range a.nodes.size).erase id, (a.get i).children.count x = a.parents x :=
    Finset.add_sum_erase _ (fun i => (a.get i).children.count x) hmem
  have hb : (b.get id).children.count x +
      ∑ i ∈ (Finset.range a.nodes.size).erase id, (b.get i).children.count x = b.parents x := by
    rw [parents, hsize]
    exact Finset.add_sum_erase _ (fun i => (b.get i).children.count x) hmem
  omega

lemma parents_modify (hid : id < a.nodes.size) (f : Node → Node) (x : ℕ) :
    (a.modify id f).parents x + (a.get id).children.count x =
      a.parents x + (f (a.get id)).children.count x := by
  rw [← get_modify_self (f := f) hid]
  exact parents_add_count size_modify hid (fun i hi => get_modify_of_ne hi) x

lemma parents_pos (h : x ∈ (a.get i).children) : 0 < a.parents x := by
  have hi := Finset.mem_range.mpr (lt_size_of_mem_children h)
  calc 0 < (a.get i).children.count x := List.count_pos_iff.mpr h
    _ ≤ a.parents x :=
      Finset.single_le_sum (f := fun i => (a.get i).children.count x) (fun _ _ => Nat.zero_le _) hi

namespace Tidy

/-- A slot that is held is not free, and it is nobody's child. -/
lemma of_mem_held (h : Tidy a held) (hx : x ∈ held) : x ∉ a.free ∧ ∀ i, x ∉ (a.get i).children := by
  have honce := h.once x
  have hpos := List.count_pos_iff.mpr hx
  rw [refs] at honce
  refine ⟨fun hfree => ?_, fun i hi => ?_⟩
  · have := List.count_pos_iff.mpr hfree
    omega
  · have := parents_pos hi
    omega

lemma lt_size_of_held (h : Tidy a held) (hx : x ∈ held) : x < a.nodes.size := by
  have hpos := List.count_pos_iff.mpr hx
  exact h.exists_slot x (by rw [refs]; omega)

lemma lt_size_of_free (h : Tidy a held) (hx : x ∈ a.free) : x < a.nodes.size := by
  have hpos := List.count_pos_iff.mpr hx
  exact h.exists_slot x (by rw [refs]; omega)

lemma lt_size_of_child (h : Tidy a held) (hx : x ∈ (a.get i).children) : x < a.nodes.size := by
  have hpos := parents_pos hx
  exact h.exists_slot x (by rw [refs]; omega)

/-- What is referred to no more often than in a tidy store is tidy. -/
lemma mono {held' : List NodeId} (h : Tidy a held) (hsize : a.nodes.size ≤ b.nodes.size)
    (hrefs : ∀ x, b.refs held' x ≤ a.refs held x) : Tidy b held' where
  once x := (hrefs x).trans (h.once x)
  exists_slot x hx := (h.exists_slot x (hx.trans_le (hrefs x))).trans_le hsize

/-- Holders may be reordered and may let go. -/
lemma subperm {held' : List NodeId} (h : Tidy a held) (hsub : held'.Subperm held) :
    Tidy a held' :=
  h.mono le_rfl fun x => by
    have := hsub.count_le x
    rw [refs, refs]
    omega

/-- A change that keeps the children keeps the count. -/
lemma modify (h : Tidy a held) (id : ℕ) (hf : ∀ n, (f n).children = n.children) :
    Tidy (a.modify id f) held := by
  refine h.mono size_modify.ge fun x => ?_
  have hparents : (a.modify id f).parents x = a.parents x := by
    rw [parents, parents, size_modify]
    refine Finset.sum_congr rfl fun i _ => ?_
    rcases a.get_modify_cases id f i with hi | ⟨-, hi⟩
    · rw [hi]
    · rw [hi, hf]
  have hfree : (a.modify id f).free = a.free := rfl
  rw [refs, refs, hfree, hparents]

/-- A node without children may adopt nodes that were held. -/
lemma adopt {ids : List NodeId} (h : Tidy a (ids ++ held)) (hid : id < a.nodes.size)
    (hleaf : (a.get id).children = []) :
    Tidy (a.modify id fun n => { n with children := ids }) held := by
  refine h.mono size_modify.ge fun x => ?_
  have hparents : (a.modify id fun n => { n with children := ids }).parents x +
      (a.get id).children.count x = a.parents x + ids.count x := parents_modify hid _ x
  rw [hleaf, List.count_nil] at hparents
  have hfree : (a.modify id fun n => { n with children := ids }).free = a.free := rfl
  rw [refs, refs, hfree, List.count_append]
  omega

end Tidy

/-! ### New nodes -/

/-- A new node takes the slot that was freed last, or the one behind all others. -/
lemma alloc_cases (a : Arena) (n : Node) :
    (∃ id free, a.free = id :: free ∧ a.alloc n = (id, ⟨a.nodes.setIfInBounds id n, free⟩)) ∨
      a.free = [] ∧ a.alloc n = (a.nodes.size, { a with nodes := a.nodes.push n }) := by
  rw [alloc]
  cases a.free with
  | nil => exact .inr ⟨rfl, rfl⟩
  | cons id free => exact .inl ⟨id, free, rfl, rfl⟩

/-- The slot of a new node is in use from then on, and no other slot changes its use. -/
lemma slots_alloc (a : Arena) (n : Node) :
    ((a.alloc n).1 ∈ a.free ∨ (a.alloc n).1 = a.nodes.size) ∧
      a.nodes.size ≤ (a.alloc n).2.nodes.size ∧ (a.alloc n).2.free ⊆ a.free ∧
      (∀ x < (a.alloc n).2.nodes.size, x = (a.alloc n).1 ∨ x < a.nodes.size) ∧
      ∀ x ∈ a.free, x = (a.alloc n).1 ∨ x ∈ (a.alloc n).2.free := by
  rcases a.alloc_cases n with ⟨id, free, hfree, halloc⟩ | ⟨hfree, halloc⟩
  · rw [halloc, hfree, Array.size_setIfInBounds]
    exact ⟨.inl List.mem_cons_self, le_rfl, List.subset_cons_self id free, fun x hx => .inr hx,
      fun x hx => List.mem_cons.mp hx⟩
  · rw [halloc, Array.size_push]
    exact ⟨.inr rfl, Nat.le_succ _, List.Subset.refl _,
      fun x hx => (Nat.lt_succ_iff_lt_or_eq.mp hx).symm, fun x hx => .inr hx⟩

/-- A new node is found in its slot, and the other nodes are where they were. -/
lemma Tidy.get_alloc (h : Tidy a held) (n : Node) :
    (a.alloc n).2.get (a.alloc n).1 = n ∧
      ∀ i, i ≠ (a.alloc n).1 → (a.alloc n).2.get i = a.get i := by
  rcases a.alloc_cases n with ⟨id, free, hfree, halloc⟩ | ⟨-, halloc⟩
  · have hslot : id < a.nodes.size := h.lt_size_of_free (hfree ▸ List.mem_cons_self)
    rw [halloc]
    refine ⟨?_, fun i hi => ?_⟩
    · rw [get, Array.getElem?_setIfInBounds_self_of_lt hslot]
      rfl
    · rw [get, get, Array.getElem?_setIfInBounds_ne (Ne.symm hi)]
  · rw [halloc]
    refine ⟨?_, fun i hi => ?_⟩
    · rw [get, Array.getElem?_push, if_pos rfl]
      rfl
    · rw [get, get, Array.getElem?_push, if_neg hi]

/-- **A new node lands in a slot that nobody refers to.** -/
lemma Tidy.alloc (h : Tidy a held) {n : Node} (hn : n.children = []) :
    Tidy (a.alloc n).2 ((a.alloc n).1 :: held) ∧ (a.alloc n).2.get (a.alloc n).1 = n ∧
      ∀ i, i ≠ (a.alloc n).1 → (a.alloc n).2.get i = a.get i := by
  obtain ⟨hself, hother⟩ := h.get_alloc n
  refine ⟨?_, hself, hother⟩
  rcases a.alloc_cases n with ⟨id, free, hfree, halloc⟩ | ⟨-, halloc⟩
  · -- the reference from the free list becomes the holder's
    rw [halloc] at hself hother ⊢
    have hsize : (a.nodes.setIfInBounds id n).size = a.nodes.size := Array.size_setIfInBounds
    have hslot : id < a.nodes.size := h.lt_size_of_free (hfree ▸ List.mem_cons_self)
    refine h.mono hsize.ge fun x => ?_
    have hparents := parents_add_count hsize hslot hother x
    rw [hself, hn, List.count_nil] at hparents
    rw [refs, refs, hfree, List.count_cons, List.count_cons]
    dsimp only at hparents ⊢
    omega
  · -- nothing refers to a slot behind all others
    rw [halloc] at hself hother ⊢
    have hsize : (a.nodes.push n).size = a.nodes.size + 1 := Array.size_push ..
    have hparents : ∀ x, parents { a with nodes := a.nodes.push n } x = a.parents x := by
      intro x
      rw [parents, hsize, Finset.sum_range_succ, hself, hn, List.count_nil, Nat.add_zero]
      refine Finset.sum_congr rfl fun i hi => ?_
      rw [hother i (Finset.mem_range.mp hi).ne]
    have hrefs : ∀ x, refs { a with nodes := a.nodes.push n } (a.nodes.size :: held) x =
        a.refs held x + if x = a.nodes.size then 1 else 0 := by
      intro x
      rw [refs, refs, hparents, List.count_cons]
      simp only [beq_iff_eq, eq_comm (a := a.nodes.size)]
      omega
    refine ⟨fun x => ?_, fun x hx => ?_⟩
    · have honce := h.once x
      have hslot := h.exists_slot x
      rw [hrefs]
      split_ifs with hxs
      · omega
      · omega
    · have hslot := h.exists_slot x
      rw [hrefs] at hx
      rw [hsize]
      split_ifs at hx with hxs
      · omega
      · omega

/-- **New nodes land in slots that nobody refers to**, each in one of its own. -/
lemma Tidy.allocAll (h : Tidy a held) {ns : List Node} (hns : ∀ n ∈ ns, n.children = []) :
    Tidy (a.allocAll ns).2 ((a.allocAll ns).1 ++ held) ∧
      (a.allocAll ns).1.map (a.allocAll ns).2.get = ns ∧
      ∀ i, i ∉ (a.allocAll ns).1 → (a.allocAll ns).2.get i = a.get i := by
  induction ns generalizing a held with
  | nil => exact ⟨h, rfl, fun i _ => rfl⟩
  | cons n ns ih =>
      obtain ⟨htidy, hself, hother⟩ := h.alloc (hns n List.mem_cons_self)
      obtain ⟨htidy', hmap, hother'⟩ := ih htidy fun m hm => hns m (List.mem_cons_of_mem _ hm)
      have hfresh : (a.alloc n).1 ∉ ((a.alloc n).2.allocAll ns).1 := by
        intro hmem
        have honce := htidy'.once (a.alloc n).1
        have hcount := List.count_pos_iff.mpr hmem
        rw [refs, List.count_append, List.count_cons_self] at honce
        omega
      rw [Arena.allocAll]
      refine ⟨htidy'.mono le_rfl fun x => ?_, ?_, fun i hi => ?_⟩
      · simp only [refs, List.count_append, List.count_cons, List.cons_append]
        omega
      · rw [List.map_cons, hmap, hother' _ hfresh, hself]
      · have hne := List.ne_of_not_mem_cons hi
        have hrest := List.not_mem_of_not_mem_cons hi
        exact (hother' i hrest).trans (hother i hne)

/-- New nodes take free slots or slots behind all others. -/
lemma slots_allocAll (a : Arena) (ns : List Node) :
    (∀ id ∈ (a.allocAll ns).1, id ∈ a.free ∨ a.nodes.size ≤ id) ∧
      a.nodes.size ≤ (a.allocAll ns).2.nodes.size ∧ (a.allocAll ns).2.free ⊆ a.free := by
  induction ns generalizing a with
  | nil => exact ⟨fun id hid => absurd hid List.not_mem_nil, le_rfl, List.Subset.refl _⟩
  | cons n ns ih =>
      obtain ⟨hslot, hsize, hfree, -⟩ := a.slots_alloc n
      obtain ⟨hslots, hsize', hfree'⟩ := ih (a.alloc n).2
      rw [Arena.allocAll]
      refine ⟨fun id hid => ?_, hsize.trans hsize', List.Subset.trans hfree' hfree⟩
      rcases List.mem_cons.mp hid with rfl | hid
      · exact hslot.imp_right Eq.ge
      · exact (hslots id hid).imp (fun hf => hfree hf) fun hs => hsize.trans hs

/-- A slot that is held or somebody's child is not used for a new node. -/
lemma Tidy.not_mem_allocAll (h : Tidy a held) (hx : x ∈ held ∨ ∃ i, x ∈ (a.get i).children)
    (ns : List Node) : x ∉ (a.allocAll ns).1 := by
  intro hmem
  have honce := h.once x
  have hexists := h.exists_slot x
  have hpos : 0 < held.count x + a.parents x := by
    rcases hx with hheld | ⟨i, hi⟩
    · have := List.count_pos_iff.mpr hheld
      omega
    · have := parents_pos hi
      omega
  rw [refs] at honce hexists
  rcases (a.slots_allocAll ns).1 x hmem with hfree | hsize
  · have := List.count_pos_iff.mpr hfree
    omega
  · omega

/-! ### Fewer links -/

/-- The links of `b` are links of `a`, from a node of the same colour to a node with the same move
and the same parent. -/
def Thins (b a : Arena) : Prop :=
  ∀ i j, j ∈ (b.get i).children →
    j ∈ (a.get i).children ∧ (b.get i).color = (a.get i).color ∧
      (b.get j).cell = (a.get j).cell ∧ (b.get j).color = (a.get j).color ∧
      (b.get j).parent = (a.get j).parent

lemma Thins.refl (a : Arena) : Thins a a :=
  fun _ _ h => ⟨h, rfl, rfl, rfl, rfl⟩

lemma Thins.trans (hcb : Thins c b) (hba : Thins b a) : Thins c a := by
  intro i j hj
  obtain ⟨hj', hi, hcell, hcolor, hparent⟩ := hcb i j hj
  obtain ⟨hj'', hi', hcell', hcolor', hparent'⟩ := hba i j hj'
  exact ⟨hj'', hi.trans hi', hcell.trans hcell', hcolor.trans hcolor', hparent.trans hparent'⟩

/-- A change that keeps the move of a node, adds no child, and either keeps the parent or meets
nobody's child, only takes links away. -/
lemma thins_modify (hmove : ∀ n, (f n).cell = n.cell ∧ (f n).color = n.color)
    (hchildren : ∀ n, (f n).children ⊆ n.children)
    (hparent : (∀ n, (f n).parent = n.parent) ∨ ∀ i, id ∉ ((a.modify id f).get i).children) :
    Thins (a.modify id f) a := by
  have hkeep : ∀ i, ((a.modify id f).get i).cell = (a.get i).cell ∧
      ((a.modify id f).get i).color = (a.get i).color := by
    intro i
    rcases a.get_modify_cases id f i with h | ⟨-, h⟩
    · rw [h]
      exact ⟨rfl, rfl⟩
    · rw [h]
      exact hmove _
  intro i j hj
  refine ⟨?_, (hkeep i).2, (hkeep j).1, (hkeep j).2, ?_⟩
  · rcases a.get_modify_cases id f i with h | ⟨-, h⟩
    · rwa [h] at hj
    · rw [h] at hj
      exact hchildren _ hj
  · rcases a.get_modify_cases id f j with h | ⟨rfl, h⟩
    · rw [h]
    · rcases hparent with hp | hp
      · rw [h, hp]
      · exact absurd hj (hp i)

/-- New nodes without children take no part in any link. -/
lemma thins_of_fresh {ids : List NodeId} (hb : Tidy b (ids ++ held))
    (hnew : ∀ i ∈ ids, (b.get i).children = []) (hother : ∀ i, i ∉ ids → b.get i = a.get i) :
    Thins b a := by
  intro i j hj
  have hi : i ∉ ids := by
    intro hi
    rw [hnew i hi] at hj
    cases hj
  have hj' : j ∉ ids := fun hmem => (hb.of_mem_held (List.mem_append_left _ hmem)).2 i hj
  rw [hother i hi] at hj ⊢
  rw [hother j hj']
  exact ⟨hj, rfl, rfl, rfl, rfl⟩

/-! ### Freeing -/

/-- **Freeing a slot hands its children to the holder.** Nothing else is lost. -/
lemma Tidy.release (h : Tidy a (id :: held)) :
    Tidy (a.release id).2 ((a.release id).1 ++ held) ∧ Thins (a.release id).2 a ∧
      ∀ i ∈ held, (a.release id).2.get i = a.get i := by
  have hid := h.lt_size_of_held List.mem_cons_self
  have hparents := parents_modify hid fun n => { n with children := [], parent := none }
  have htidy : Tidy (a.release id).2 ((a.release id).1 ++ held) := by
    refine h.mono size_modify.ge fun x => ?_
    have hx := hparents x
    rw [List.count_nil] at hx
    show ((a.get id).children ++ held).count x + (id :: a.free).count x +
        (a.modify id fun n => { n with children := [], parent := none }).parents x ≤
      (id :: held).count x + a.free.count x + a.parents x
    rw [List.count_append, List.count_cons, List.count_cons]
    omega
  refine ⟨htidy, thins_modify (fun n => ⟨rfl, rfl⟩) (fun n => List.nil_subset _)
    (.inr fun i hi => ?_), fun i hi => ?_⟩
  · -- the freed slot is nobody's child
    have hfree : id ∈ (a.release id).2.free := List.mem_cons_self
    have honce := htidy.once id
    have hcount := List.count_pos_iff.mpr hfree
    have hpos : 0 < (a.release id).2.parents id := parents_pos hi
    rw [refs] at honce
    omega
  · refine get_modify_of_ne ?_
    rintro rfl
    have honce := h.once i
    have hcount := List.count_pos_iff.mpr hi
    rw [refs, List.count_cons_self] at honce
    omega

/-- What holds of a store and the nodes to be freed from it, in whatever order, and is kept when one
of them is freed and its children are to be freed in its place. -/
structure KeptByRelease (P : Arena → List NodeId → Prop) : Prop where
  perm : ∀ {a stack stack'}, P a stack → stack.Perm stack' → P a stack'
  release : ∀ {a id stack}, P a (id :: stack) → P (a.release id).2 ((a.release id).1 ++ stack)

namespace KeptByRelease

variable {P : Arena → List NodeId → Prop}

/-- Freeing a stack leaves nothing to be freed. -/
lemma freeStack (hP : KeptByRelease P) (h : P a stack) (freed : ℕ) :
    P (a.freeStack stack freed).2 [] := by
  induction a, stack, freed using Arena.freeStack.induct with
  | case1 a freed =>
      rw [Arena.freeStack]
      exact h
  | case2 a freed id rest released ih =>
      rw [Arena.freeStack]
      exact ih (hP.perm (hP.release h) ((List.reverse_perm _).symm.append_right rest))

/-- Freeing from a queue leaves in the queue what is still to be freed. -/
lemma freeQueued {queue : Queue NodeId} (hP : KeptByRelease P) (h : P a queue.toList)
    (budget freed : ℕ) :
    P (a.freeQueuedFrom queue budget freed).2.2
      (a.freeQueuedFrom queue budget freed).2.1.toList := by
  induction budget generalizing a queue freed with
  | zero => exact h
  | succ budget ih =>
      rw [freeQueuedFrom]
      cases hpop : queue.pop? with
      | none => exact h
      | some popped =>
          obtain ⟨id, rest⟩ := popped
          rw [Queue.toList_of_pop? hpop] at h
          have hnext : P (a.release id).2 (rest.pushAll (a.release id).1).toList := by
            rw [Queue.toList_pushAll]
            exact hP.perm (hP.release h) List.perm_append_comm
          exact ih hnext (freed + 1)

end KeptByRelease

/-- Freeing keeps a store tidy, takes links away, and leaves the nodes alone that are held. -/
lemma tidy_keptByRelease (a : Arena) (held : List NodeId) :
    KeptByRelease fun b stack =>
      Tidy b (stack ++ held) ∧ Thins b a ∧ ∀ i ∈ held, b.get i = a.get i where
  perm := fun ⟨htidy, hrest⟩ hperm => ⟨htidy.subperm (hperm.symm.append_right held).subperm, hrest⟩
  release := by
    rintro b id stack ⟨htidy, hthins, hget⟩
    rw [List.cons_append] at htidy
    obtain ⟨htidy', hthins', hget'⟩ := htidy.release
    rw [← List.append_assoc] at htidy'
    exact ⟨htidy', hthins'.trans hthins, fun i hi =>
      (hget' i (List.mem_append_right _ hi)).trans (hget i hi)⟩

/-- **Freeing a stack of nodes** frees what hangs on them and nothing that is held elsewhere. -/
lemma Tidy.freeStack (h : Tidy a (stack ++ held)) (freed : ℕ) :
    Tidy (a.freeStack stack freed).2 held ∧ Thins (a.freeStack stack freed).2 a ∧
      ∀ i ∈ held, (a.freeStack stack freed).2.get i = a.get i :=
  (tidy_keptByRelease a held).freeStack ⟨h, Thins.refl a, fun _ _ => rfl⟩ freed

/-- **Freeing from a queue** leaves in the queue what is still to be freed. -/
lemma Tidy.freeQueued {queue : Queue NodeId} (h : Tidy a (queue.toList ++ held))
    (budget freed : ℕ) :
    Tidy (a.freeQueuedFrom queue budget freed).2.2
        ((a.freeQueuedFrom queue budget freed).2.1.toList ++ held) ∧
      Thins (a.freeQueuedFrom queue budget freed).2.2 a ∧
      ∀ i ∈ held, (a.freeQueuedFrom queue budget freed).2.2.get i = a.get i :=
  (tidy_keptByRelease a held).freeQueued ⟨h, Thins.refl a, fun _ _ => rfl⟩ budget freed

end Arena

end FiveInRow
