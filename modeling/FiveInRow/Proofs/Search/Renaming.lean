import Mathlib.Tactic
import FiveInRow.Proofs.Search.Calls

/-!
Stores up to the names of their slots. Two stores may put the same nodes into different slots, and
one may have more nodes than the other; what counts is that some nodes of one are those of the other
under other names, and that no link leads out of them.

* `Node.Renamed`: two nodes that differ only in the names of the children and in the parents;
* `Arena.Renames`: the nodes of a set are those of another store under other names;
* `Arena.Renames.modify`, `Arena.Renames.learn`, `Arena.Renames.cut`: changing a node and its image;
* `Arena.Renames.allocAll`: new nodes are the same in whatever slots they land.
-/

namespace FiveInRow

/-- Node `m` is node `n` with other names for the children; the parents are not compared. -/
structure Node.Renamed (f : NodeId → NodeId) (n m : Node) : Prop where
  cell : m.cell = n.cell
  color : m.color = n.color
  visits : m.visits = n.visits
  games : m.games = n.games
  score : m.score = n.score
  decisive : m.decisive = n.decisive
  children : m.children = n.children.map f

/-- Only the names of the children matter. -/
lemma Node.Renamed.congr {f f' : NodeId → NodeId} {n m : Node} (h : Node.Renamed f n m)
    (hf : ∀ j ∈ n.children, f' j = f j) : Node.Renamed f' n m :=
  { h with children := h.children.trans (List.map_congr_left hf).symm }

lemma Node.Renamed.average {f : NodeId → NodeId} {n m : Node} (h : Node.Renamed f n m) :
    m.average = n.average := by
  rw [Node.average, Node.average, h.visits, h.score]

lemma Node.Renamed.credit {f : NodeId → NodeId} {n m : Node} (h : Node.Renamed f n m)
    (side : Option Color) (value : Float32) (games : ℕ) :
    Node.Renamed f (n.credit side value games) (m.credit side value games) where
  cell := h.cell
  color := h.color
  visits := congrArg (· + 1) h.visits
  games := congrArg (· + games) h.games
  score := by rw [Node.credit, Node.credit, h.color, h.score]
  decisive := h.decisive
  children := h.children

namespace Arena

variable {a b a' b' : Arena} {f : NodeId → NodeId} {P Q : Set NodeId} {held held' : List NodeId}
  {i r : ℕ}

/-- A slot that exists and is not free. -/
def Uses (a : Arena) (i : NodeId) : Prop := i < a.nodes.size ∧ i ∉ a.free

/-- The nodes `P` of one store and their images in another one are the same up to the names of the
slots. The images are different slots, all are in use, and no link leads out of `P`. -/
structure Renames (f : NodeId → NodeId) (P : Set NodeId) (a b : Arena) : Prop where
  inj : Set.InjOn f P
  closed : ∀ i ∈ P, ∀ j, a.Child i j → j ∈ P
  used : ∀ i ∈ P, a.Uses i ∧ b.Uses (f i)
  node : ∀ i ∈ P, Node.Renamed f (a.get i) (b.get (f i))

/-- A new node lands in a slot that is not in use. -/
lemma fresh_alloc (a : Arena) (n : Node) : ¬ a.Uses (a.alloc n).1 := by
  rintro ⟨hsize, hfree⟩
  rcases (a.slots_alloc n).1 with hmem | hlast
  · exact hfree hmem
  · exact hsize.ne hlast

/-- A slot in use stays in use when a node is stored. -/
lemma uses_alloc (a : Arena) (n : Node) (h : a.Uses i) : (a.alloc n).2.Uses i := by
  obtain ⟨-, hsize, hfree, -⟩ := a.slots_alloc n
  exact ⟨h.1.trans_le hsize, fun hmem => h.2 (hfree hmem)⟩

namespace Renames

lemma child (h : Renames f P a b) (hi : i ∈ P) {j : ℕ} (hj : a.Child i j) :
    b.Child (f i) (f j) := by
  rw [Child, (h.node i hi).children]
  exact List.mem_map_of_mem hj

lemma mem_of_below (h : Renames f P a b) (hr : r ∈ P) (hi : a.Below r i) : i ∈ P := by
  induction hi with
  | refl => exact hr
  | tail _ hchild ih => exact h.closed _ ih _ hchild

/-- The image of a tree is a tree. -/
lemma below (h : Renames f P a b) (hr : r ∈ P) (hi : a.Below r i) : b.Below (f r) (f i) := by
  induction hi with
  | refl => exact .refl
  | tail hbelow hchild ih => exact ih.tail (h.child (h.mem_of_below hr hbelow) hchild)

/-- Fewer nodes are the same, too, if no link leads out of them. -/
lemma mono (h : Renames f P a b) (hsub : Q ⊆ P) (hclosed : ∀ i ∈ Q, ∀ j, a.Child i j → j ∈ Q) :
    Renames f Q a b where
  inj := h.inj.mono hsub
  closed := hclosed
  used i hi := h.used i (hsub hi)
  node i hi := h.node i (hsub hi)

/-- The tree below one of the nodes is the same. -/
lemma tree (h : Renames f P a b) (hr : r ∈ P) : Renames f {i | a.Below r i} a b :=
  h.mono (fun _ hi => h.mem_of_below hr hi) fun _ hi _ hj => Relation.ReflTransGen.tail hi hj

/-- Only the nodes that are compared matter. -/
lemma congr (h : Renames f P a b) (ha : ∀ i ∈ P, a'.get i = a.get i ∧ a'.Uses i)
    (hb : ∀ i ∈ P, b'.get (f i) = b.get (f i) ∧ b'.Uses (f i)) : Renames f P a' b' where
  inj := h.inj
  closed i hi j hj := by
    rw [Child, (ha i hi).1] at hj
    exact h.closed i hi j hj
  used i hi := ⟨(ha i hi).2, (hb i hi).2⟩
  node i hi := by
    rw [(ha i hi).1, (hb i hi).1]
    exact h.node i hi

/-- **A node and its image may be changed in the same way.** -/
lemma modify (h : Renames f P a b) (hi : i ∈ P) {g g' : Node → Node}
    (hg : Node.Renamed f (g (a.get i)) (g' (b.get (f i))))
    (hchildren : ∀ j ∈ (g (a.get i)).children, j ∈ P) :
    Renames f P (a.modify i g) (b.modify (f i) g') := by
  have ha : (a.modify i g).get i = g (a.get i) := get_modify_self (h.used i hi).1.1
  have hb : (b.modify (f i) g').get (f i) = g' (b.get (f i)) := get_modify_self (h.used i hi).2.1
  have hne : ∀ k ∈ P, k ≠ i → f k ≠ f i := fun k hk hki heq => hki (h.inj hk hi heq)
  refine ⟨h.inj, fun k hk j hj => ?_, fun k hk => ?_, fun k hk => ?_⟩
  · by_cases hki : k = i
    · subst hki
      rw [Child, ha] at hj
      exact hchildren j hj
    · rw [Child, get_modify_of_ne hki] at hj
      exact h.closed k hk j hj
  · rw [Uses, Uses, size_modify, size_modify]
    exact h.used k hk
  · by_cases hki : k = i
    · subst hki
      rw [ha, hb]
      exact hg
    · rw [get_modify_of_ne hki, get_modify_of_ne (hne k hk hki)]
      exact h.node k hk

/-- Learning the same about a node and its image keeps them the same. -/
lemma learn (h : Renames f P a b) (hi : i ∈ P) {g : Node → Node}
    (hg : ∀ {n m}, Node.Renamed f n m → Node.Renamed f (g n) (g m))
    (hkeep : ∀ n, (g n).children = n.children) :
    Renames f P (a.modify i g) (b.modify (f i) g) := by
  refine h.modify hi (hg (h.node i hi)) fun j hj => ?_
  rw [hkeep] at hj
  exact h.closed i hi j hj

/-- A node and its image may get the same children. -/
lemma adopt (h : Renames f P a b) (hi : i ∈ P) {ids : List NodeId} (hids : ∀ j ∈ ids, j ∈ P) :
    Renames f P (a.modify i fun n => { n with children := ids })
      (b.modify (f i) fun n => { n with children := ids.map f }) :=
  h.modify hi { h.node i hi with children := rfl } hids

/-- A child and its image may be cut off. -/
lemma cut (h : Renames f P a b) (hi : i ∈ P) {child : ℕ} (hchild : a.Child i child) :
    Renames f P (a.cut i child) (b.cut (f i) (f child)) := by
  have hdrop : Renames f P (a.modify i (drop child)) (b.modify (f i) (drop (f child))) := by
    refine h.modify hi { h.node i hi with children := ?_ } fun j hj =>
      h.closed i hi j (List.mem_of_mem_filter hj)
    rw [drop, drop, (h.node i hi).children, List.filter_map]
    refine congrArg (List.map f) (List.filter_congr fun j hj => ?_)
    have hsame : f j = f child ↔ j = child :=
      h.inj.eq_iff (h.closed i hi j hj) (h.closed i hi child hchild)
    simp [hsame]
  have hmem := h.closed i hi child hchild
  exact hdrop.modify hmem { hdrop.node child hmem with } (hdrop.closed child hmem)

/-- **A new node that differs only in its parent** is the same, whatever slot it lands in. -/
lemma alloc (h : Renames f P a b) (ha : Tidy a held) (hb : Tidy b held') {n : Node}
    (hn : n.children = []) (parent : Option NodeId) :
    Set.EqOn (Function.update f (a.alloc n).1 (b.alloc { n with parent }).1) f P ∧
      Renames (Function.update f (a.alloc n).1 (b.alloc { n with parent }).1)
        (insert (a.alloc n).1 P) (a.alloc n).2 (b.alloc { n with parent }).2 := by
  obtain ⟨htidy, hself, hother⟩ := ha.alloc hn
  obtain ⟨htidy', hself', hother'⟩ := hb.alloc (n := { n with parent }) hn
  have hfresh := fresh_alloc a n
  have hfresh' := fresh_alloc b { n with parent }
  have hkeep := fun i => uses_alloc a n (i := i)
  have hkeep' := fun i => uses_alloc b { n with parent } (i := i)
  generalize (b.alloc { n with parent }).1 = new' at *
  generalize (b.alloc { n with parent }).2 = b₁ at *
  generalize (a.alloc n).1 = new at *
  generalize (a.alloc n).2 = a₁ at *
  have hne : ∀ i ∈ P, i ≠ new := fun i hi heq => hfresh (heq ▸ (h.used i hi).1)
  have hne' : ∀ i ∈ P, f i ≠ new' := fun i hi heq => hfresh' (heq ▸ (h.used i hi).2)
  have hold : Set.EqOn (Function.update f new new') f P := fun i hi =>
    Function.update_of_ne (hne i hi) _ _
  refine ⟨hold, ?_, ?_, ?_, ?_⟩
  · rw [Set.injOn_insert fun hmem => hne new hmem rfl]
    refine ⟨(Set.EqOn.injOn_iff hold).mpr h.inj, ?_⟩
    rw [Function.update_self, Set.EqOn.image_eq hold]
    rintro ⟨i, hi, heq⟩
    exact hne' i hi heq
  · rintro i (rfl | hi) j hj
    · rw [Child, hself, hn] at hj
      cases hj
    · rw [Child, hother i (hne i hi)] at hj
      exact Set.mem_insert_of_mem _ (h.closed i hi j hj)
  · rintro i (rfl | hi)
    · rw [Function.update_self]
      exact ⟨⟨htidy.lt_size_of_held List.mem_cons_self, (htidy.of_mem_held List.mem_cons_self).1⟩,
        htidy'.lt_size_of_held List.mem_cons_self, (htidy'.of_mem_held List.mem_cons_self).1⟩
    · rw [hold hi]
      exact ⟨hkeep i (h.used i hi).1, hkeep' (f i) (h.used i hi).2⟩
  · rintro i (rfl | hi)
    · rw [Function.update_self, hself, hself']
      exact ⟨rfl, rfl, rfl, rfl, rfl, rfl, by rw [hn]; rfl⟩
    · rw [hold hi, hother i (hne i hi), hother' (f i) (hne' i hi)]
      exact (h.node i hi).congr fun j hj => hold (h.closed i hi j hj)

/-- **New nodes that differ only in their parents** are the same, whatever slots they land in. The
names of the other nodes stay. -/
lemma allocAll (h : Renames f P a b) (ha : Tidy a held) (hb : Tidy b held') {ns : List Node}
    (hns : ∀ n ∈ ns, n.children = []) (parent : Option NodeId) :
    ∃ f', Set.EqOn f' f P ∧
      (b.allocAll (ns.map fun n => { n with parent })).1 = (a.allocAll ns).1.map f' ∧
      Renames f' (P ∪ {i | i ∈ (a.allocAll ns).1}) (a.allocAll ns).2
        (b.allocAll (ns.map fun n => { n with parent })).2 := by
  induction ns generalizing a b f P held held' with
  | nil =>
      have hnone : P ∪ {i | i ∈ (a.allocAll []).1} = P := by
        ext i
        simp [Arena.allocAll]
      rw [hnone]
      exact ⟨f, fun _ _ => rfl, rfl, h⟩
  | cons n ns ih =>
      have hn := hns n List.mem_cons_self
      obtain ⟨hsame, hnew⟩ := h.alloc ha hb hn parent
      obtain ⟨htidy, -, -⟩ := ha.alloc hn
      obtain ⟨htidy', -, -⟩ := hb.alloc (n := { n with parent }) hn
      obtain ⟨f', hsame', hids, hrest⟩ := ih hnew htidy htidy' fun m hm =>
        hns m (List.mem_cons_of_mem n hm)
      refine ⟨f', fun i hi => ?_, ?_, ?_⟩
      · rw [hsame' (Set.mem_insert_of_mem _ hi), hsame hi]
      · rw [List.map_cons, Arena.allocAll, Arena.allocAll, List.map_cons,
          hsame' (Set.mem_insert _ P), Function.update_self]
        exact congrArg _ hids
      · have hset : P ∪ {i | i ∈ (a.allocAll (n :: ns)).1} =
            insert (a.alloc n).1 P ∪ {i | i ∈ ((a.alloc n).2.allocAll ns).1} := by
          rw [Arena.allocAll]
          ext i
          simp only [Set.mem_union, Set.mem_insert_iff, Set.mem_ofPred, List.mem_cons]
          tauto
        rw [hset]
        exact hrest

end Renames

end Arena

end FiveInRow
