import Mathlib.Tactic
import FiveInRow.Proofs.Search.Calls

/-!
One update, node by node, on a tree in order and with any board. The walk goes along parents, so it
passes through no node twice; the nodes on it are credited, the leaf may be marked and may get
children, and no other node of the tree changes.

* `Tree.walk`, `Tree.Arrival.path`: the walk of an update and the nodes on it;
* `Arena.Forest.nodup_upward`, `Arena.Forest.countP_upward`: no node is passed twice, and of the
  children of a node one is passed, if the walk went on from there;
* `Tree.outcome?`, `Tree.updateWith_cases`: what an update credits, and the two ways it can end;
* `Tree.Credited`, `Tree.Taught`, `Tree.Orderly.taught_updateWith`: what a credited update makes of
  the nodes;
* `Tree.CreditsUp`, `Tree.Orderly.creditsUp_updateWith`: crediting along the links to the parents is
  crediting the walk;
* `Tree.Retains`: a tree all of whose nodes are nodes of another one, as sweeping and moving the
  root leave it.
-/

namespace FiveInRow

namespace Arena

variable {a : Arena} {roots above : List NodeId} {root leaf : ℕ}

/-! ### Walks in a forest -/

/-- **A walk towards the root passes through no node twice**: ranks fall on the way. -/
lemma Forest.nodup_upward (h : a.Forest roots) (hup : above.IsChain fun i j => a.Child j i) :
    above.Nodup := by
  obtain ⟨rank, hrank⟩ := h.rank
  have hfalls : (above.map rank).IsChain (· > ·) := by
    rw [List.isChain_map]
    exact hup.imp fun i j hij => hrank j i hij
  have hpairs := List.pairwise_map.mp (List.isChain_iff_pairwise.mp hfalls)
  exact hpairs.imp fun hlt heq => hlt.ne' (congrArg rank heq)

/-- Members of a list that begins with `leaf` are counted apart from those that are `leaf`. -/
lemma countP_mem_cons {l : List NodeId} (hleaf : leaf ∉ l) (children : List NodeId) :
    children.countP (· ∈ leaf :: l) = children.count leaf + children.countP (· ∈ l) := by
  induction children with
  | nil => rfl
  | cons k children ih =>
      rw [List.countP_cons, List.countP_cons, List.count_cons, ih]
      by_cases hk : k = leaf
      · subst hk
        rw [if_pos (by simp), if_pos (by simp), if_neg (by simpa using hleaf)]
        omega
      · simp only [List.mem_cons, hk, false_or, beq_iff_eq, if_false]
        omega

/-- **Where a walk went on from a node it passes through one of its children**, and through none of
the children of any other node. -/
lemma Forest.countP_upward (h : a.Forest roots) (hroot : root ∈ roots)
    (hup : (leaf :: above).IsChain fun i j => a.Child j i)
    (hlast : (leaf :: above).getLast? = some root) (i : ℕ) :
    (a.get i).children.countP (· ∈ leaf :: above) = if i ∈ above then 1 else 0 := by
  -- induction on the nodes above the leaf: each of them has the one before as its child
  induction above generalizing leaf with
  | nil =>
      obtain rfl : leaf = root := Option.some.inj hlast
      rw [if_neg List.not_mem_nil, List.countP_eq_zero]
      intro j hj hmem
      rw [decide_eq_true_eq, List.mem_singleton] at hmem
      exact (h.of_mem_held hroot).2 i (hmem ▸ hj)
  | cons j above ih =>
      have hnodup := h.nodup_upward hup
      rw [List.isChain_cons_cons] at hup
      rw [List.getLast?_cons_cons] at hlast
      obtain ⟨hleaf, hnodup'⟩ := List.nodup_cons.mp hnodup
      rw [countP_mem_cons hleaf, ih hup.2 hlast]
      by_cases hij : i = j
      · subst hij
        rw [h.count_child hup.1, if_neg (List.nodup_cons.mp hnodup').1, if_pos List.mem_cons_self]
      · have hnone : (a.get i).children.count leaf = 0 := by
          rw [List.count_eq_zero]
          exact fun hmem => hij (h.eq_of_child hmem hup.1)
        simp only [hnone, Nat.zero_add, List.mem_cons, hij, false_or]

end Arena

namespace Tree

variable {t t' s : Tree} {b : Board} {a : Arrival} {left : List NodeId} {stored id : ℕ}
  {value : Float32} {games : ℕ}

/-! ### The walk -/

/-- The walk of an update. What was left behind is swept first. -/
def walk (t : Tree) (b : Board) : Arrival :=
  t.sweep.2.descend b t.sweep.2.root [] t.sweep.2.rng

/-- The nodes of a walk, from the leaf up to the root. -/
def Arrival.path (a : Arrival) : List NodeId := a.leaf :: a.above

lemma Arrival.mem_path_iff {i : ℕ} : i ∈ a.path ↔ i = a.leaf ∨ i ∈ a.above := List.mem_cons

/-- A walk from the root, noted from the leaf upwards. -/
structure FromRoot (t : Tree) (a : Arrival) : Prop where
  upward : a.path.IsChain fun i j => t.arena.Child j i
  top : a.path.getLast? = some t.root

lemma fromRoot_walk (t : Tree) (b : Board) : t.sweep.2.FromRoot (t.walk b) := by
  obtain ⟨hup, hlast⟩ := t.sweep.2.upward_descend b t.sweep.2.rng (.singleton t.sweep.2.root)
  exact ⟨hup, hlast⟩

lemma FromRoot.below (h : t.FromRoot a) {i : ℕ} (hi : i ∈ a.path) : t.arena.Below t.root i :=
  below_of_upward h.upward h.top i hi

lemma FromRoot.of_alike (h : t.FromRoot a) (ha : t'.Alike t) : t'.FromRoot a where
  upward := h.upward.imp fun _ _ hij => ha.arena.child_iff.mpr hij
  top := h.top.trans (congrArg some ha.root.symm)

/-! ### What is credited -/

@[simp] lemma sweep_root (t : Tree) : t.sweep.2.root = t.root := by
  rw [sweep]
  split <;> rfl

@[simp] lemma sweep_side (t : Tree) : t.sweep.2.side = t.side := by
  rw [sweep]
  split <;> rfl

@[simp] lemma sweep_config (t : Tree) : t.sweep.2.config = t.config := by
  rw [sweep]
  split <;> rfl

/-- The value that an update credits and the games behind it. An update of a finished game credits
nothing, and neither does one that fails. -/
def outcome? (judge : Judge) (t : Tree) (b : Board) : Option (Float32 × ℕ) :=
  let a := t.walk b
  if b.isOver then none
  else if a.board.isOver then some ((a.board.status.map some).value t.side, 1)
  else
    match (judge a.board (t.sweep.2.node a.leaf).color (WordSource.next a.rng).1).1 with
    | .ok value => some (value, t.config.games)
    | .error _ => none

/-- The leaf of a walk that won the game remembers it. -/
def marked (t : Tree) (a : Arrival) : Tree :=
  if a.board.status.winner?.isSome then
    { t with arena := t.arena.modify a.leaf fun n => { n with decisive := true } }
  else
    t

/-- **An update credits what it found, or it changes nothing** but what was swept and the state of
the generator; and it credits something exactly if it returns games. -/
lemma updateWith_cases (judge : Judge) (t : Tree) (b : Board) :
    (t.outcome? judge b = none ∧ (∀ g, (t.updateWith judge b).result = .ok g → g = 0) ∧
      ∃ rng, (t.updateWith judge b).state = { t.sweep.2 with rng }) ∨
    ∃ value games rng, t.outcome? judge b = some (value, games) ∧
      (t.updateWith judge b).result = .ok games ∧ games ≠ 0 ∧
      (t.updateWith judge b).state =
        (({ t.sweep.2 with rng } : Tree).marked (t.walk b)).conclude (t.walk b) value games := by
  have hgames : t.config.games ≠ 0 := by
    rw [Config.games]
    omega
  rw [outcome?, updateWith, ← t.sweep_side, ← t.sweep_config, ← walk]
  rw [← t.sweep_config] at hgames
  generalize t.walk b = a
  generalize t.sweep.2 = s at *
  dsimp only
  split_ifs with hover hend hwin
  · exact .inl ⟨rfl, fun g hg => (Except.ok.inj hg).symm, s.rng, rfl⟩
  · exact .inr ⟨_, 1, a.rng, rfl, rfl, Nat.one_ne_zero, by rw [marked, if_pos hwin]⟩
  · exact .inr ⟨_, 1, a.rng, rfl, rfl, Nat.one_ne_zero, by rw [marked, if_neg hwin]⟩
  · have hrun : ¬ a.board.status.winner?.isSome = true := by
      rw [Board.isOver] at hend
      cases hs : a.board.status with
      | inProgress => exact Bool.false_ne_true
      | draw => exact Bool.false_ne_true
      | win color =>
          rw [hs] at hend
          exact absurd rfl hend
    rcases hjudge : judge a.board (s.node a.leaf).color (WordSource.next a.rng).1 with ⟨e, events⟩
    cases e with
    | error e =>
        refine .inl ⟨rfl, fun g hg => ?_, (WordSource.next a.rng).2, rfl⟩
        cases hg
    | ok value =>
        exact .inr ⟨value, s.config.games, (WordSource.next a.rng).2, rfl, rfl, hgames, by
          rw [marked, if_neg hrun]⟩

/-! ### What an update makes of the nodes -/

/-- Whether the leaf of a walk gets children: the game goes on there, it has none yet, and it has
seen enough games with those that are credited. -/
def grows (t : Tree) (a : Arrival) (games : ℕ) : Bool :=
  !a.board.isOver && (t.node a.leaf).isLeaf && t.config.threshold ≤ (t.node a.leaf).games + games

/-- What a credited update makes of a tree `t`. The nodes above the leaf of the walk are credited.
The leaf is credited too, it is marked if the walk won the game, and it may get the nodes `ids` as
children, which are the replies of the shortlist. The other nodes stay as they were. -/
structure Taught (t' t : Tree) (a : Arrival) (value : Float32) (games : ℕ) (ids : List NodeId) :
    Prop where
  root : t'.root = t.root
  side : t'.side = t.side
  config : t'.config = t.config
  below : ∀ i, t'.arena.Below t'.root i → i ∈ ids ∨ t.arena.Below t.root i
  old : ∀ i, t.arena.Below t.root i → i ∉ ids
  born : ids.map t'.node = if t.grows a games then t.replies a.leaf a.board else []
  leaf : t'.node a.leaf =
    { (t.node a.leaf).credit t.side value games with
      decisive := (t.node a.leaf).decisive || a.board.status.winner?.isSome
      children := if t.grows a games then ids else (t.node a.leaf).children }
  above : ∀ i ∈ a.above, t'.node i = (t.node i).credit t.side value games
  other : ∀ i, t.arena.Below t.root i → i ∉ a.path → t'.node i = t.node i

/-- A node that was just stored is a reply. -/
lemma Taught.of_mem {ids : List NodeId} {i : ℕ} (h : t'.Taught t a value games ids)
    (hi : i ∈ ids) : ∃ c color, t'.node i = Node.reply a.leaf color c := by
  have hmem := List.mem_map_of_mem (f := t'.node) hi
  rw [h.born] at hmem
  split_ifs at hmem
  · obtain ⟨c, -, hc⟩ := List.mem_map.mp hmem
    exact ⟨c, _, hc.symm⟩
  · cases hmem

/-- An update leaves the moves of the nodes alone. -/
lemma Taught.move_eq {ids : List NodeId} {i : ℕ} (ht : t'.Taught t a value games ids)
    (hi : t.arena.Below t.root i) : (t'.node i).move = (t.node i).move := by
  by_cases hil : i = a.leaf
  · subst hil
    rw [ht.leaf]
    rfl
  by_cases hia : i ∈ a.above
  · rw [ht.above i hia]
    rfl
  · rw [ht.other i hi fun hmem => (Arrival.mem_path_iff.mp hmem).elim hil hia]

/-- Only the leaf of the walk may get children. -/
lemma Taught.children_eq {ids : List NodeId} {i : ℕ} (ht : t'.Taught t a value games ids)
    (hi : t.arena.Below t.root i) (hne : i ≠ a.leaf) :
    (t'.node i).children = (t.node i).children := by
  by_cases hia : i ∈ a.above
  · rw [ht.above i hia]
    rfl
  · rw [ht.other i hi fun hmem => (Arrival.mem_path_iff.mp hmem).elim hne hia]

lemma alike_marked (t : Tree) (a : Arrival) : (t.marked a).Alike t := by
  rw [marked]
  split_ifs
  · exact ⟨Arena.alike_modify a.leaf fun n => ⟨rfl, rfl, rfl⟩, rfl, rfl, rfl, rfl⟩
  · exact ⟨.refl _, rfl, rfl, rfl, rfl⟩

/-- Only the leaf is marked. -/
lemma node_marked (hslot : a.leaf < t.arena.nodes.size) (i : ℕ) :
    (t.marked a).node i = if i = a.leaf then
      { t.node i with decisive := (t.node i).decisive || a.board.status.winner?.isSome }
    else t.node i := by
  rw [marked]
  split_ifs with hwin hi hi
  · subst hi
    rw [hwin, Bool.or_true]
    exact Arena.get_modify_self hslot
  · exact Arena.get_modify_of_ne hi
  · rw [Bool.eq_false_iff.mpr hwin, Bool.or_false]
  · rfl

/-- On a path without repetition every node is credited once. -/
lemma node_credit {path : List NodeId} (hnodup : path.Nodup)
    (hslot : ∀ i ∈ path, i < t.arena.nodes.size) (value : Float32) (games i : ℕ) :
    (t.credit path value games).node i =
      if i ∈ path then (t.node i).credit t.side value games else t.node i := by
  rw [credit, node, node]
  generalize t.arena = s at hslot
  induction path generalizing s with
  | nil => rw [if_neg List.not_mem_nil, List.foldl_nil]
  | cons j path ih =>
      obtain ⟨hj, hnodup'⟩ := List.nodup_cons.mp hnodup
      rw [List.foldl_cons, ih hnodup' _ fun k hk => by
        rw [Arena.size_modify]
        exact hslot k (List.mem_cons_of_mem j hk)]
      by_cases hij : i = j
      · subst hij
        rw [if_neg hj, if_pos List.mem_cons_self,
          Arena.get_modify_self (hslot i List.mem_cons_self)]
      · rw [Arena.get_modify_of_ne hij]
        simp only [List.mem_cons, hij, false_or]

/-- What a leaf's new children make of the tree. -/
lemma Orderly.node_expand {leaf : NodeId} (h : t.Orderly left stored)
    (hbelow : t.arena.Below t.root leaf) (b : Board) :
    ∃ ids, ids.map (t.expand leaf b).node = t.replies leaf b ∧
      (∀ i, t.arena.Below t.root i → i ∉ ids) ∧
      (t.expand leaf b).node leaf = { t.node leaf with children := ids } ∧
      (∀ i, i ≠ leaf → i ∉ ids → (t.expand leaf b).node i = t.node i) ∧
      ((t.node leaf).children = [] →
        ∀ i, (t.expand leaf b).arena.Below t.root i → i ∈ ids ∨ t.arena.Below t.root i) := by
  have hslot := (h.used hbelow).1
  have hbare : ∀ n ∈ t.replies leaf b, n.children = [] := fun n hn => (of_mem_replies hn).1
  obtain ⟨htidy, hmap, hother⟩ := h.forest.toTidy.allocAll hbare
  have hsize := (t.arena.slots_allocAll (t.replies leaf b)).2.1
  have hold : ∀ i, t.arena.Below t.root i → i ∉ (t.arena.allocAll (t.replies leaf b)).1 := by
    intro i hi
    refine h.forest.not_mem_allocAll ?_ _
    cases hi with
    | refl => exact .inl List.mem_cons_self
    | tail _ hchild => exact .inr ⟨_, hchild⟩
  rw [expand_eq]
  generalize (t.arena.allocAll (t.replies leaf b)).1 = ids at *
  generalize (t.arena.allocAll (t.replies leaf b)).2 = grown at *
  have hself : (grown.modify leaf fun n => { n with children := ids }).get leaf =
      { grown.get leaf with children := ids } := Arena.get_modify_self (hslot.trans_le hsize)
  have hkept : ∀ i, i ≠ leaf →
      (grown.modify leaf fun n => { n with children := ids }).get i = grown.get i := fun i hi =>
    Arena.get_modify_of_ne hi
  refine ⟨ids, ?_, hold, ?_, fun i hi hids => (hkept i hi).trans (hother i hids),
    fun hleaf i hi => ?_⟩
  · rw [← hmap]
    exact List.map_congr_left fun j hj => hkept j fun heq => hold leaf hbelow (heq ▸ hj)
  · exact hself.trans (by rw [hother leaf (hold leaf hbelow)]; rfl)
  · have hids : ∀ j ∈ ids, (grown.get j).children = [] := by
      intro j hj
      have hmem := List.mem_map_of_mem (f := grown.get) hj
      rw [hmap] at hmem
      exact hbare _ hmem
    -- along the path every link is old until a new node is reached, which has no children
    induction hi with
    | refl => exact .inr .refl
    | @tail i j _ hchild ih =>
        rcases htidy.child_adopt (hslot.trans_le hsize) hids hchild with ⟨-, hj⟩ | ⟨hi', -, hij⟩
        · exact .inl hj
        · rw [Arena.Child, hother i hi'] at hij
          exact .inr ((ih.resolve_left hi').tail hij)

/-- Whether two trees have the same nodes below their roots. -/
lemma Alike.below_iff {i : ℕ} (h : t'.Alike t) :
    t'.arena.Below t'.root i ↔ t.arena.Below t.root i := by
  rw [h.root]
  exact h.arena.below_iff

/-- A tree `c` after the nodes of a walk are credited and its leaf is marked. -/
structure Credited (c t : Tree) (a : Arrival) (value : Float32) (games : ℕ) : Prop where
  alike : c.Alike t
  leaf : c.node a.leaf =
    { (t.node a.leaf).credit t.side value games with
      decisive := (t.node a.leaf).decisive || a.board.status.winner?.isSome }
  above : ∀ i ∈ a.above, c.node i = (t.node i).credit t.side value games
  other : ∀ i, i ∉ a.path → c.node i = t.node i

/-- The leaf of a walk is not above itself. -/
lemma Orderly.leaf_not_mem_above (h : t.Orderly left stored) (ha : t.FromRoot a) :
    a.leaf ∉ a.above :=
  (List.nodup_cons.mp (h.forest.nodup_upward ha.upward)).1

lemma Orderly.credited (h : t.Orderly left stored) (ha : t.FromRoot a) (value : Float32)
    (games : ℕ) : ((t.marked a).credit a.path value games).Credited t a value games := by
  have hm := t.alike_marked a
  have hslot : ∀ i ∈ a.path, i < t.arena.nodes.size := fun i hi => (h.used (ha.below hi)).1
  have hslot' : ∀ i ∈ a.path, i < (t.marked a).arena.nodes.size := fun i hi => by
    rw [hm.arena.size]
    exact hslot i hi
  have hcredit := node_credit (h.forest.nodup_upward ha.upward) hslot' value games
  rw [hm.side] at hcredit
  have hmark := node_marked (hslot _ List.mem_cons_self)
  refine ⟨⟨((t.marked a).alike_credit a.path value games).trans hm.arena, hm.root, hm.garbage,
    hm.config, hm.side⟩, ?_, fun i hi => ?_, fun i hi => ?_⟩
  · rw [hcredit, if_pos (Arrival.mem_path_iff.mpr (.inl rfl)), hmark, if_pos rfl, Node.credit,
      Node.credit]
  · have hne : i ≠ a.leaf := fun heq => h.leaf_not_mem_above ha (heq ▸ hi)
    rw [hcredit, if_pos (Arrival.mem_path_iff.mpr (.inr hi)), hmark, if_neg hne]
  · rw [hcredit, if_neg hi, hmark, if_neg (List.ne_of_not_mem_cons hi)]

/-- A leaf that does not get children is done. -/
lemma Credited.taught_of_rests {c : Tree} (hc : c.Credited t a value games)
    (hgrows : t.grows a games = false) : c.Taught t a value games [] where
  root := hc.alike.root
  side := hc.alike.side
  config := hc.alike.config
  below i hi := .inr (hc.alike.below_iff.mp hi)
  old i _ := List.not_mem_nil
  born := by
    rw [hgrows]
    rfl
  leaf := by
    rw [hc.leaf, hgrows]
    rfl
  above := hc.above
  other i _ hi := hc.other i hi

/-- A leaf that gets children gets the replies of the shortlist. -/
lemma Credited.taught_of_grows {c : Tree} (hc : c.Credited t a value games)
    (h : t.Orderly left stored) (ha : t.FromRoot a) (hgrows : t.grows a games = true) :
    ∃ ids, (c.expand a.leaf a.board).Taught t a value games ids := by
  have hbelow := hc.alike.below_iff.mpr (ha.below List.mem_cons_self)
  obtain ⟨ids, hborn, hold, hgrown, hkept, hbelow'⟩ :=
    (h.of_alike hc.alike).node_expand hbelow a.board
  have hbare : (c.node a.leaf).children = [] := by
    rw [grows, Bool.and_eq_true, Bool.and_eq_true, Node.isLeaf, List.isEmpty_iff] at hgrows
    rw [hc.leaf]
    exact hgrows.1.2
  have hold' : ∀ i, t.arena.Below t.root i → i ∉ ids := fun i hi =>
    hold i (hc.alike.below_iff.mpr hi)
  have hreplies : c.replies a.leaf a.board = t.replies a.leaf a.board := by
    rw [replies, replies, hc.leaf]
    rfl
  refine ⟨ids, ⟨hc.alike.root, hc.alike.side, hc.alike.config,
    fun i hi => (hbelow' hbare i hi).imp_right hc.alike.below_iff.mp, hold', ?_, ?_,
    fun i hi => ?_, fun i hb hi => ?_⟩⟩
  · rw [hborn, hreplies, if_pos hgrows]
  · rw [hgrown, hc.leaf, if_pos hgrows]
  · have hne : i ≠ a.leaf := fun heq => h.leaf_not_mem_above ha (heq ▸ hi)
    rw [hkept i hne (hold' i (ha.below (List.mem_cons_of_mem _ hi))), hc.above i hi]
  · rw [hkept i (List.ne_of_not_mem_cons hi) (hold' i hb), hc.other i hi]

/-- **What the last part of an update makes of the nodes.** -/
lemma Orderly.taught_conclude (h : t.Orderly left stored) (ha : t.FromRoot a) (value : Float32)
    (games : ℕ) : ∃ ids, ((t.marked a).conclude a value games).Taught t a value games ids := by
  have hc := h.credited ha value games
  rw [conclude, ← Arrival.path]
  generalize (t.marked a).credit a.path value games = c at *
  have hgrows : (!a.board.isOver && (c.node a.leaf).isLeaf &&
      c.config.threshold ≤ (c.node a.leaf).games) = t.grows a games := by
    rw [hc.leaf, hc.alike.config]
    rfl
  rw [hgrows]
  split_ifs with hgrown
  · exact hc.taught_of_grows h ha hgrown
  · exact ⟨[], hc.taught_of_rests (Bool.eq_false_iff.mpr hgrown)⟩

/-- **What a credited update makes of the nodes.** -/
lemma Orderly.taught_updateWith {judge : Judge} (h : t.Orderly left stored)
    (hcredit : t.outcome? judge b = some (value, games)) :
    ∃ ids, (t.updateWith judge b).state.Taught t.sweep.2 (t.walk b) value games ids := by
  rcases updateWith_cases judge t b with ⟨hnone, -⟩ | ⟨v, g, rng, hsome, -, -, hstate⟩
  · rw [hnone] at hcredit
    cases hcredit
  · obtain ⟨rfl, rfl⟩ := Prod.mk.inj (Option.some.inj (hsome.symm.trans hcredit))
    have hwalk := t.fromRoot_walk b
    have horderly : ({ t.sweep.2 with rng } : Tree).Orderly left stored :=
      h.sweep.1.of_alike (t.sweep.2.alike_reseed rng)
    obtain ⟨ids, ht⟩ := horderly.taught_conclude ⟨hwalk.upward, hwalk.top⟩ v g
    rw [hstate]
    exact ⟨ids, ht.root, ht.side, ht.config, ht.below, ht.old, ht.born, ht.leaf, ht.above, ht.other⟩

/-! ### Crediting along the parents -/

section CreditsUp

variable {side : Option Color} {store store' : Arena}

/-- The loop that credits the node at a cursor and goes on to its parent, until there is none: the
cursor, the store before the loop and the store after it. -/
inductive CreditsUp (side : Option Color) (value : Float32) (games : ℕ) :
    Option NodeId → Arena → Arena → Prop
  | done (store : Arena) : CreditsUp side value games none store store
  | up {id : NodeId} {store store' : Arena}
      (h : CreditsUp side value games
        ((store.modify id (Node.credit side value games)).get id).parent
        (store.modify id (Node.credit side value games)) store') :
      CreditsUp side value games (some id) store store'

/-- Crediting a node leaves all parents alone. -/
lemma parent_modify_credit (store : Arena) (i : NodeId) :
    ((store.modify id (Node.credit side value games)).get i).parent = (store.get i).parent := by
  have halike : (store.modify id (Node.credit side value games)).Alike store :=
    Arena.alike_modify id fun n => ⟨rfl, rfl, rfl⟩
  exact (halike.node i).2.2

/-- A round of the loop. -/
lemma creditsUp_some_iff :
    CreditsUp side value games (some id) store store' ↔
      CreditsUp side value games (store.get id).parent
        (store.modify id (Node.credit side value games)) store' := by
  rw [← parent_modify_credit store]
  constructor
  · rintro (_ | h)
    exact h
  · exact .up

/-- **Along a chain of parents** up to a node that has none, the loop credits the nodes of the chain
one after another, and it ends. -/
lemma creditsUp_iff {path : List NodeId}
    (hup : path.IsChain fun i j => (store.get i).parent = some j)
    (htop : ∀ i, path.getLast? = some i → (store.get i).parent = none) :
    CreditsUp side value games path.head? store store' ↔
      store' = path.foldl (fun a id => a.modify id (Node.credit side value games)) store := by
  induction path generalizing store with
  | nil =>
      constructor
      · rintro ⟨⟩
        rfl
      · rintro rfl
        exact .done _
  | cons id path ih =>
      have hparent : (store.get id).parent = path.head? := by
        cases path with
        | nil => exact htop id rfl
        | cons j path => exact (List.isChain_cons_cons.mp hup).1
      rw [List.head?_cons, creditsUp_some_iff, hparent, List.foldl_cons]
      refine ih (hup.tail.imp fun i j hij => (parent_modify_credit store i).trans hij)
        fun i hi => ?_
      rw [parent_modify_credit]
      refine htop i ?_
      rw [List.getLast?_cons, hi]
      rfl

end CreditsUp

/-- The nodes of a walk are each other's parents up to the root, which has none. -/
lemma Orderly.isChain_parent (h : t.Orderly left stored) (ha : t.FromRoot a) :
    a.path.IsChain (fun i j => (t.node i).parent = some j) ∧ a.path.getLast? = some t.root ∧
      t.rootNode.parent = none :=
  ⟨ha.upward.imp fun i j hij => h.forest.parent j i hij, ha.top, h.top⟩

/-- **Crediting a walk is crediting along the parents**: from the leaf the loop ends, and in no
other way than by crediting the nodes of the walk. -/
lemma Orderly.creditsUp_iff_credit (h : t.Orderly left stored) (ha : t.FromRoot a)
    (value : Float32) (games : ℕ) (store : Arena) :
    CreditsUp t.side value games (some a.leaf) t.arena store ↔
      store = (t.credit a.path value games).arena := by
  obtain ⟨hup, hlast, htop⟩ := h.isChain_parent ha
  show CreditsUp t.side value games a.path.head? t.arena store ↔ _
  refine creditsUp_iff hup fun i hi => ?_
  obtain rfl : t.root = i := Option.some.inj (hlast.symm.trans hi)
  exact htop

/-- **An update credits along the parents**, whatever the board and the judge. -/
lemma Orderly.creditsUp_updateWith {judge : Judge} (h : t.Orderly left stored)
    (hcredit : t.outcome? judge b = some (value, games)) :
    ∃ s : Tree, s.Alike t.sweep.2 ∧
      (t.updateWith judge b).state = s.conclude (t.walk b) value games ∧
      ∀ store, CreditsUp s.side value games (some (t.walk b).leaf) s.arena store ↔
        store = (s.credit (t.walk b).path value games).arena := by
  rcases updateWith_cases judge t b with ⟨hnone, -⟩ | ⟨v, g, rng, hsome, -, -, hstate⟩
  · rw [hnone] at hcredit
    cases hcredit
  · obtain ⟨rfl, rfl⟩ := Prod.mk.inj (Option.some.inj (hsome.symm.trans hcredit))
    have hmarked :=
      (({ t.sweep.2 with rng } : Tree).alike_marked (t.walk b)).trans (t.sweep.2.alike_reseed rng)
    refine ⟨_, hmarked, hstate, fun store => ?_⟩
    exact (h.sweep.1.of_alike hmarked).creditsUp_iff_credit ((t.fromRoot_walk b).of_alike hmarked)
      v g store

/-! ### Other calls -/

/-- The tree below the root of `t'` is part of the one below the root of `t`; only the parent of a
node may have changed. -/
structure Retains (t' t : Tree) : Prop where
  side : t'.side = t.side
  config : t'.config = t.config
  node : ∀ i, t'.arena.Below t'.root i →
    t.arena.Below t.root i ∧ ∃ parent, t'.node i = { t.node i with parent }

lemma Retains.trans {r : Tree} (h : r.Retains s) (h' : s.Retains t) : r.Retains t where
  side := h.side.trans h'.side
  config := h.config.trans h'.config
  node i hi := by
    obtain ⟨hs, parent, hnode⟩ := h.node i hi
    obtain ⟨ht, parent', hnode'⟩ := h'.node i hs
    exact ⟨ht, parent, by rw [hnode, hnode']⟩

lemma Agrees.retains (h : t'.Agrees t) : t'.Retains t where
  side := h.side
  config := h.config
  node i hi := by
    have hi' := h.below_iff.mp hi
    exact ⟨hi', (t.node i).parent, h.node i hi'⟩

/-- An explored move brings its nodes along. -/
lemma Orderly.retains_moved {c : Cell} (h : t.Orderly left stored)
    (hid : t.childAt? c = some id) : (t.moved c).Retains t := by
  have hmem : t.arena.Child t.root id := List.mem_of_find?_eq_some hid
  have hmoved : t.moved c = { t.detach t.root id with root := id } := by rw [moved, hid]
  obtain ⟨-, hthins, -⟩ := h.forest.toTidy.cut hmem
  rw [hmoved]
  refine ⟨rfl, rfl, fun i hi => ?_⟩
  have hroot : ∀ j, ¬ t.arena.Child j t.root := (h.forest.of_mem_held List.mem_cons_self).2
  -- the node was below the old root, and it was not the old root
  have hbelow : t.arena.Below t.root i ∧ i ≠ t.root := by
    have hi' : t.arena.Below id i := hi.mono fun j k hjk => (hthins j k hjk).1
    refine ⟨.head hmem hi', ?_⟩
    rintro rfl
    cases hi' with
    | refl => exact hroot _ hmem
    | tail _ hchild => exact hroot _ hchild
  refine ⟨hbelow.1, ?_⟩
  show ∃ parent, (t.arena.cut t.root id).get i = { t.arena.get i with parent }
  rw [Arena.cut]
  rcases (t.arena.modify t.root (Arena.drop id)).get_modify_cases id Arena.orphan i with
    hget | ⟨-, hget⟩
  · rw [hget, Arena.get_modify_of_ne hbelow.2]
    exact ⟨_, rfl⟩
  · rw [hget, Arena.get_modify_of_ne hbelow.2]
    exact ⟨none, rfl⟩

/-- **Moving the root to an explored move** keeps the nodes below it. -/
lemma Orderly.retains_advance {c : Cell} (h : t.Orderly left stored)
    (hid : t.childAt? c = some id) : (t.advance c).state.Retains t :=
  (h.advance c).2.retains.trans (h.retains_moved hid)

/-- A root without children is the whole tree. -/
lemma eq_root_of_bare {i : ℕ} (hbare : t.rootNode.children = [])
    (hi : t.arena.Below t.root i) : i = t.root := by
  induction hi with
  | refl => rfl
  | tail _ hchild ih =>
      rw [ih, Arena.Child, show (t.arena.get t.root).children = [] from hbare] at hchild
      cases hchild

/-- An only child of the root is in the tree. -/
lemma below_of_only (h : t.rootNode.children = [id]) : t.arena.Below t.root id := by
  refine .tail .refl ?_
  show id ∈ t.rootNode.children
  rw [h]
  exact List.mem_singleton_self id

/-- A walk from a root without children ends there. -/
lemma Orderly.walk_of_bare (h : t.Orderly left stored) (hbare : t.rootNode.children = [])
    (b : Board) : t.walk b = ⟨t.root, [], b, t.sweep.2.rng, []⟩ := by
  have hswept : (t.sweep.2.node t.sweep.2.root).children = [] := by
    rw [sweep_root, h.sweep.2.node t.root .refl]
    exact hbare
  rw [walk, descend_of_leaf b [] _ hswept, sweep_root]

lemma Orderly.node_sweep (h : t.Orderly left stored) : t.sweep.2.node t.root = t.rootNode :=
  h.sweep.2.node t.root .refl

/-- A walk from a root with a single child, which has none, ends on that child. -/
lemma Orderly.walk_of_only {c : Cell} {color : Color} (h : t.Orderly left stored)
    (hchildren : t.rootNode.children = [id])
    (hnode : t.node id = Node.reply t.root color c) (ha : b.accepts c = true) :
    ∃ rng, t.walk b = ⟨id, [t.root], b.place c color, rng, []⟩ := by
  have hroot : (t.sweep.2.node t.root).children = [id] := by
    rw [h.node_sweep]
    exact hchildren
  have hchild : t.sweep.2.node id = Node.reply t.root color c :=
    (h.sweep.2.node id (below_of_only hchildren)).trans hnode
  have hmem := t.sweep.2.pickChild_mem (t.sweep.2.node t.root).visits id [] t.sweep.2.rng
  rcases hpick : t.sweep.2.pickChild (t.sweep.2.node t.root).visits id [] t.sweep.2.rng with
    ⟨child, rng⟩
  rw [hpick, List.mem_singleton] at hmem
  obtain rfl : child = id := hmem
  refine ⟨rng, ?_⟩
  rw [walk, sweep_root, descend_of_pickChild b hroot hpick, hchild]
  show (if b.accepts c = true then _ else _) = _
  rw [if_pos ha, descend_of_leaf _ _ _ (by rw [hchild]; rfl)]

/-- The first update of a running game is credited. -/
lemma Orderly.exists_outcome_of_bare {judge : Judge} (h : t.Orderly left stored)
    (hbare : t.rootNode.children = []) (hs : b.status = .inProgress)
    (hvalue : ∀ base, ∃ value, (judge b t.rootNode.color base).1 = .ok value) :
    ∃ value, t.outcome? judge b = some (value, t.config.games) := by
  have hrun := Board.isOver_eq_false_iff.mpr hs
  obtain ⟨value, hvalue⟩ := hvalue (WordSource.next t.sweep.2.rng).1
  refine ⟨value, ?_⟩
  simp only [outcome?, h.walk_of_bare hbare b, hrun, h.node_sweep, hvalue]
  rfl

/-- **The first update of a running game** gives the root the moves of the shortlist as children, if
it has seen enough games then. -/
lemma Orderly.children_updateWith_of_bare {judge : Judge} (h : t.Orderly left stored)
    (hbare : t.rootNode.children = []) (hs : b.status = .inProgress)
    (hvalue : ∀ base, ∃ value, (judge b t.rootNode.color base).1 = .ok value)
    (hgames : t.config.threshold ≤ t.rootNode.games + t.config.games) :
    (t.updateWith judge b).state.root = t.root ∧
      (t.updateWith judge b).state.rootNode.color = t.rootNode.color ∧
      (t.updateWith judge b).state.rootNode.children.map (t.updateWith judge b).state.node =
        t.replies t.root b := by
  obtain ⟨value, hcredit⟩ := h.exists_outcome_of_bare hbare hs hvalue
  obtain ⟨ids, ht⟩ := h.taught_updateWith hcredit
  have hroot := ht.root.trans t.sweep_root
  have hrun := Board.isOver_eq_false_iff.mpr hs
  have hgrows : t.sweep.2.grows (t.walk b) t.config.games = true := by
    rw [grows, h.walk_of_bare hbare b, h.node_sweep, hrun, Node.isLeaf, hbare, sweep_config,
      decide_eq_true hgames]
    rfl
  have hborn := ht.born
  have hleaf := ht.leaf
  rw [if_pos hgrows, h.walk_of_bare hbare b, replies, h.node_sweep] at hborn
  rw [if_pos hgrows, h.walk_of_bare hbare b] at hleaf
  rw [rootNode, hroot, hleaf, h.node_sweep]
  exact ⟨rfl, rfl, hborn⟩

/-- The root of a new tree. -/
lemma rootNode_ofRoot {root : Node} (hbare : root.children = []) (side : Option Color)
    (config : Config) (rng : Xoshiro) :
    ({ ofRoot root side config with rng } : Tree).rootNode = root :=
  (Arena.tidy_empty.alloc hbare).2.1

/-- The root of a new tree for a board has nothing but its last move. -/
lemma exists_rootNode_ofBoard (b : Board) (side : Option Color) (config : Config) (rng : Xoshiro) :
    ∃ cell color, ({ ofBoard b side config with rng } : Tree).rootNode = { cell, color } := by
  have hroot : ∃ cell color, rootOf b = { cell, color } := by
    rw [rootOf]
    cases b.last? with
    | none => exact ⟨none, none, rfl⟩
    | some m => exact ⟨some m.cell, some m.color, rfl⟩
  obtain ⟨cell, color, hroot⟩ := hroot
  refine ⟨cell, color, ?_⟩
  rw [← hroot]
  exact rootNode_ofRoot (by rw [hroot]) side config rng

/-- **Moving the root to another move** leaves a single new node. -/
lemma Orderly.rootNode_advance {c : Cell} (h : t.Orderly left stored)
    (hid : t.childAt? c = none) : (t.advance c).state.rootNode =
      { cell := some c, color := some (Color.after t.rootNode.color) } := by
  have hself : (t.moved c).rootNode =
      { cell := some c, color := some (Color.after t.rootNode.color) } := by
    rw [moved, hid]
    exact (h.forest.toTidy.alloc rfl).2.1
  obtain ⟨-, hagrees⟩ := h.advance c
  rw [← hself, rootNode, hagrees.root]
  exact hagrees.node _ .refl

end Tree

end FiveInRow
