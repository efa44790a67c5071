import Mathlib.Tactic
import FiveInRow.Proofs.Search.Renaming

/-!
Pruning and what can be seen of it. Trees with different pruning put their nodes into different
slots and free them at different times. Below the root they stay the same up to the names of the
slots, so they walk, learn, grow and move alike.

* `Tree.Mirrors`: two trees that are the same up to the names of the slots and the pruning;
* `Tree.Mirrors.descend_eq`: they walk alike;
* `Tree.Mirrors.updateWith`, `Tree.Mirrors.advance`: updates and moves of the root keep them the
  same;
* `Tree.Answer`, `Tree.answers`: what a caller hears of calls;
* `Tree.LooksLike`: what can be asked of two trees has the same answers;
* `Tree.pruning_unobservable`: with the same calls, nobody can tell the prunings apart.
-/

namespace FiveInRow

/-- A draw from a list with other names is the draw from the list, with the other name. -/
lemma Draw.pick?_map {γ α β : Type} [WordSource γ] (f : α → β) (l : List α) (s : γ) :
    (Draw.pick? (l.map f) : Draw γ _) s =
      (((Draw.pick? l : Draw γ _) s).1.map f, ((Draw.pick? l : Draw γ _) s).2) := by
  cases l with
  | nil => rfl
  | cons a l =>
      have hpick : ∀ {δ : Type} (d : δ) (ds : List δ), (Draw.pick? (d :: ds) : Draw γ _) s =
          ((d :: ds)[((Draw.below (d :: ds).length : Draw γ ℕ) s).1]?,
            ((Draw.below (d :: ds).length : Draw γ ℕ) s).2) := fun _ _ => rfl
      rw [List.map_cons, hpick, hpick, ← List.map_cons, List.length_map, List.getElem?_map]

namespace Tree

variable {s t s' t' : Tree} {f : NodeId → NodeId} {left left' : List NodeId} {stored stored' i : ℕ}

/-- Two trees that differ in the names of their slots and in the pruning. -/
structure Mirrors (f : NodeId → NodeId) (s t : Tree) : Prop where
  root : t.root = f s.root
  side : t.side = s.side
  rng : t.rng = s.rng
  config : t.config = { s.config with pruning := t.config.pruning }
  store : s.arena.Renames f {i | s.arena.Below s.root i} t.arena

lemma Mirrors.node (h : Mirrors f s t) (hi : s.arena.Below s.root i) :
    Node.Renamed f (s.node i) (t.node (f i)) :=
  h.store.node i hi

/-- The same choice under other names. -/
lemma lastBest?_map {score score' : NodeId → Float32} {ids : List NodeId}
    (h : ∀ i ∈ ids, score' (f i) = score i) :
    lastBest? score' (ids.map f) = (lastBest? score ids).map f := by
  have hfold : ∀ best : Option NodeId × Float32,
      (ids.map f).foldl (fun best id =>
          if best.2 ≤ score' id then (some id, score' id) else best) (best.1.map f, best.2) =
        ((ids.foldl (fun best id =>
            if best.2 ≤ score id then (some id, score id) else best) best).1.map f,
          (ids.foldl (fun best id =>
            if best.2 ≤ score id then (some id, score id) else best) best).2) := by
    induction ids with
    | nil => exact fun best => rfl
    | cons i ids ih =>
        intro best
        have ih := ih fun j hj => h j (List.mem_cons_of_mem i hj)
        rw [List.map_cons, List.foldl_cons, List.foldl_cons, h i List.mem_cons_self]
        by_cases hle : best.2 ≤ score i
        · rw [if_pos hle, if_pos hle]
          exact ih (some i, score i)
        · rw [if_neg hle, if_neg hle]
          exact ih best
  exact congrArg Prod.fst (hfold (none, -1.0 / 0.0))

/-- A node and its image are equally promising. -/
lemma Mirrors.selectionScore_eq (h : Mirrors f s t) {n m : Node} (hnm : Node.Renamed f n m)
    (visits : ℕ) : t.selectionScore m visits = s.selectionScore n visits := by
  rw [selectionScore, selectionScore, h.config, hnm.visits, hnm.decisive, hnm.average]

/-- What a walk draws to pick a child. -/
lemma pickChild_apply (t : Tree) (visits : ℕ) (first : NodeId) (rest : List NodeId)
    (rng : Xoshiro) :
    t.pickChild visits first rest rng =
      if visits = 0 then (first, rng)
      else if ((Draw.fraction : Draw Xoshiro Float) rng).1 < t.config.noise visits then
        ((((Draw.pick? (first :: rest) : Draw Xoshiro _)
            ((Draw.fraction : Draw Xoshiro Float) rng).2).1).getD first,
          ((Draw.pick? (first :: rest) : Draw Xoshiro _)
            ((Draw.fraction : Draw Xoshiro Float) rng).2).2)
      else
        ((lastBest? (fun id => t.selectionScore (t.node id) visits) (first :: rest)).getD first,
          ((Draw.fraction : Draw Xoshiro Float) rng).2) := by
  rw [pickChild]
  by_cases hv : visits = 0
  · rw [if_pos hv, if_pos hv]
    rfl
  · rw [if_neg hv, if_neg hv]
    simp only [bind, StateT.bind]
    rcases (Draw.fraction : Draw Xoshiro Float) rng with ⟨x, rng'⟩
    dsimp only
    split_ifs
    · rfl
    · rfl

/-- **The same child is picked**, with the same draws. -/
lemma Mirrors.pickChild_eq (h : Mirrors f s t) {first : NodeId} {rest : List NodeId}
    (hbelow : ∀ i ∈ first :: rest, s.arena.Below s.root i) (visits : ℕ) (rng : Xoshiro) :
    t.pickChild visits (f first) (rest.map f) rng =
      (f (s.pickChild visits first rest rng).1, (s.pickChild visits first rest rng).2) := by
  have hnoise : t.config.noise visits = s.config.noise visits := by
    rw [h.config]
    rfl
  have hbest : lastBest? (fun id => t.selectionScore (t.node id) visits) (f first :: rest.map f) =
      (lastBest? (fun id => s.selectionScore (s.node id) visits) (first :: rest)).map f :=
    lastBest?_map fun i hi => h.selectionScore_eq (h.node (hbelow i hi)) visits
  have hdraw := Draw.pick?_map f (first :: rest) ((Draw.fraction : Draw Xoshiro Float) rng).2
  rw [List.map_cons] at hdraw
  rw [pickChild_apply, pickChild_apply, hbest, hnoise, hdraw]
  split_ifs
  · rfl
  · rw [Option.getD_map]
  · rw [Option.getD_map]

/-- An arrival under other names. -/
def Arrival.rename (f : NodeId → NodeId) (a : Arrival) : Arrival :=
  { a with leaf := f a.leaf, above := a.above.map f }

/-- **The walks are the same**, on any board and with the same draws. -/
lemma Mirrors.descend_eq (h : Mirrors f s t) (b : Board) {id : NodeId} (above : List NodeId)
    (rng : Xoshiro) (hid : s.arena.Below s.root id) :
    t.descend b (f id) (above.map f) rng = (s.descend b id above rng).rename f := by
  -- induction on the room of the board, which every step of the walk lowers
  induction hn : b.room using Nat.strong_induction_on generalizing b id above rng with
  | _ n ih =>
      have hchildren := (h.node hid).children
      have hvisits := (h.node hid).visits
      cases hcases : (s.node id).children with
      | nil =>
          rw [hcases] at hchildren
          rw [descend_of_leaf b above rng hcases, descend_of_leaf b _ rng hchildren]
          rfl
      | cons first rest =>
          have hbelow : ∀ i ∈ first :: rest, s.arena.Below s.root i := fun i hi =>
            hid.tail (by rw [Arena.Child]; exact hcases ▸ hi)
          have hpick' := h.pickChild_eq hbelow (s.node id).visits rng
          have hmem := s.pickChild_mem (s.node id).visits first rest rng
          rcases hpick : s.pickChild (s.node id).visits first rest rng with ⟨child, rng'⟩
          rw [hpick] at hpick' hmem
          rw [hcases] at hchildren
          rw [← hvisits] at hpick'
          have hchild := h.node (hbelow child hmem)
          rw [descend_of_pickChild b hcases hpick, descend_of_pickChild b hchildren hpick',
            hchild.cell, hchild.color]
          split
          · rfl
          · rfl
          · next c color _ _ =>
              split_ifs with ha
              · exact ih _ (hn ▸ Board.room_place ha color) (b.place c color) (id :: above) rng'
                  (hbelow child hmem) rfl
              · rfl

/-! ### Updates -/

/-- Trees that keep what the search reads keep mirroring each other. -/
lemma Mirrors.agrees (h : Mirrors f s t) (hs : s'.Agrees s) (ht : t'.Agrees t)
    (os : s'.Orderly left stored) (ot : t'.Orderly left' stored') : Mirrors f s' t' := by
  have hset : {i | s'.arena.Below s'.root i} = {i | s.arena.Below s.root i} :=
    Set.ext fun i => hs.below_iff
  refine ⟨by rw [ht.root, hs.root, h.root], by rw [ht.side, hs.side, h.side],
    by rw [ht.rng, hs.rng, h.rng], by rw [ht.config, hs.config, ← h.config], ?_⟩
  rw [hset]
  refine h.store.congr (fun i hi => ⟨hs.node i hi, os.used (hs.below_iff.mpr hi)⟩) fun i hi => ?_
  have hbelow : t.arena.Below t.root (f i) := by
    rw [h.root]
    exact h.store.below Relation.ReflTransGen.refl hi
  exact ⟨ht.node _ hbelow, ot.used (ht.below_iff.mpr hbelow)⟩

/-- Mirroring trees may learn, as long as their stores stay the same up to names. -/
lemma Mirrors.learn (h : Mirrors f s t) {a b : Arena} (ha : a.Alike s.arena)
    (hab : a.Renames f {i | s.arena.Below s.root i} b) :
    Mirrors f { s with arena := a } { t with arena := b } := by
  refine ⟨h.root, h.side, h.rng, h.config, ?_⟩
  have hset : {i | a.Below s.root i} = {i | s.arena.Below s.root i} :=
    Set.ext fun i => ha.below_iff
  show a.Renames f {i | a.Below s.root i} b
  rw [hset]
  exact hab

lemma Mirrors.reseed (h : Mirrors f s t) (rng : Xoshiro) :
    Mirrors f { s with rng } { t with rng } :=
  ⟨h.root, h.side, rfl, h.config, h.store⟩

/-- Both trees credit the same result to the same walk. -/
lemma Mirrors.credit (h : Mirrors f s t) {path : List NodeId}
    (hpath : ∀ i ∈ path, s.arena.Below s.root i) (value : Float32) (games : ℕ) :
    Mirrors f (s.credit path value games) (t.credit (path.map f) value games) := by
  have hstore : ∀ {a b : Arena}, a.Renames f {i | s.arena.Below s.root i} b →
      (path.foldl (fun a id => a.modify id (Node.credit s.side value games)) a).Renames f
        {i | s.arena.Below s.root i}
        ((path.map f).foldl (fun b id => b.modify id (Node.credit s.side value games)) b) := by
    induction path with
    | nil => exact fun hab => hab
    | cons i path ih =>
        intro a b hab
        refine ih (fun j hj => hpath j (List.mem_cons_of_mem i hj)) ?_
        exact hab.learn (hpath i List.mem_cons_self) (fun hnm => hnm.credit _ _ _) fun n => rfl
  have hcredit : t.credit (path.map f) value games =
      { t with
        arena := (path.map f).foldl (fun b id => b.modify id (Node.credit s.side value games))
          t.arena } := by
    rw [Tree.credit, h.side]
  rw [hcredit]
  exact h.learn (s.alike_credit path value games) (hstore h.store)

/-- Both leaves get the same children, in whatever slots. -/
lemma Mirrors.expand (h : Mirrors f s t) (os : s.Orderly left stored) (ot : t.Orderly left' stored')
    {leaf : NodeId} (hleaf : s.arena.Below s.root leaf) (b : Board) :
    ∃ f', Mirrors f' (s.expand leaf b) (t.expand (f leaf) b) := by
  have hreplies : t.replies (f leaf) b =
      (s.replies leaf b).map fun n => { n with parent := some (f leaf) } := by
    rw [replies, replies, (h.node hleaf).color, List.map_map]
    rfl
  have hbare : ∀ n ∈ s.replies leaf b, n.children = [] := fun n hn => (of_mem_replies hn).1
  obtain ⟨f', hsame, hids, hstore⟩ := h.store.allocAll os.forest.toTidy ot.forest.toTidy hbare
    (some (f leaf))
  have hroot : f' s.root = f s.root := hsame Relation.ReflTransGen.refl
  have hgrown := hstore.adopt (.inl hleaf) fun j (hj : j ∈ (s.arena.allocAll _).1) => .inr hj
  rw [hsame hleaf] at hgrown
  rw [expand_eq, expand_eq, hreplies, hids]
  exact ⟨f', h.root.trans hroot.symm, h.side, h.rng, h.config,
    hgrown.tree (.inl Relation.ReflTransGen.refl)⟩

/-- The last part of an update is the same for both trees. -/
lemma Mirrors.conclude (h : Mirrors f s t) (os : s.Orderly left stored)
    (ot : t.Orderly left' stored') {a : Arrival}
    (ha : ∀ i ∈ a.leaf :: a.above, s.arena.Below s.root i) (value : Float32) (games : ℕ) :
    ∃ f', Mirrors f' (s.conclude a value games) (t.conclude (a.rename f) value games) := by
  have hcredit := h.credit ha value games
  have halike := s.alike_credit (a.leaf :: a.above) value games
  have os' : (s.credit (a.leaf :: a.above) value games).Orderly left stored :=
    os.of_alike ⟨halike, rfl, rfl, rfl, rfl⟩
  have ot' : (t.credit ((a.leaf :: a.above).map f) value games).Orderly left' stored' :=
    ot.of_alike ⟨t.alike_credit _ value games, rfl, rfl, rfl, rfl⟩
  have hbelow : (s.credit (a.leaf :: a.above) value games).arena.Below s.root a.leaf :=
    halike.below_iff.mpr (ha a.leaf List.mem_cons_self)
  have hleaf := hcredit.node hbelow
  have hempty : ((t.credit ((a.leaf :: a.above).map f) value games).node (f a.leaf)).isLeaf =
      ((s.credit (a.leaf :: a.above) value games).node a.leaf).isLeaf := by
    rw [Node.isLeaf, Node.isLeaf, hleaf.children, List.isEmpty_map]
  have hthreshold : (t.credit ((a.leaf :: a.above).map f) value games).config.threshold =
      (s.credit (a.leaf :: a.above) value games).config.threshold := by
    rw [hcredit.config]
  have hconclude : t.conclude (a.rename f) value games =
      if !a.board.isOver && ((s.credit (a.leaf :: a.above) value games).node a.leaf).isLeaf &&
          (s.credit (a.leaf :: a.above) value games).config.threshold ≤
            ((s.credit (a.leaf :: a.above) value games).node a.leaf).games then
        (t.credit ((a.leaf :: a.above).map f) value games).expand (f a.leaf) a.board
      else t.credit ((a.leaf :: a.above).map f) value games := by
    rw [← hempty, ← hleaf.games, ← hthreshold]
    rfl
  rw [hconclude, Tree.conclude]
  split_ifs
  · exact hcredit.expand os' ot' hbelow a.board
  · exact ⟨f, hcredit⟩

/-- **An update has the same result and the same effect on both trees**, with any judge and on any
board. -/
lemma Mirrors.updateWith (h : Mirrors f s t) (os : s.Orderly left stored)
    (ot : t.Orderly left' stored') (judge : Judge) (b : Board) :
    (t.updateWith judge b).result = (s.updateWith judge b).result ∧
      (t.updateWith judge b).events = (s.updateWith judge b).events ∧
      ∃ f', Mirrors f' (s.updateWith judge b).state (t.updateWith judge b).state := by
  obtain ⟨os', hs⟩ := os.sweep
  obtain ⟨ot', ht⟩ := ot.sweep
  have hswept := h.agrees hs ht os' ot'
  rw [Tree.updateWith, Tree.updateWith]
  generalize s.sweep.2 = s₁ at *
  generalize t.sweep.2 = t₁ at *
  have hwalk : t₁.descend b t₁.root [] t₁.rng = (s₁.descend b s₁.root [] s₁.rng).rename f := by
    rw [hswept.root, hswept.rng]
    exact hswept.descend_eq b [] s₁.rng .refl
  have hbelow := s₁.below_descend b s₁.rng
  rw [hwalk]
  generalize s₁.descend b s₁.root [] s₁.rng = a at *
  -- the walk is concluded on trees that may already know more than those it walked on
  have hconclude : ∀ {s₂ t₂ : Tree}, Mirrors f s₂ t₂ → s₂.Alike s₁ → t₂.Alike t₁ →
      ∀ value games, ∃ f', Mirrors f' (s₂.conclude a value games)
        (t₂.conclude (a.rename f) value games) := by
    intro s₂ t₂ hmirrors hs₂ ht₂
    refine hmirrors.conclude (os'.of_alike hs₂) (ot'.of_alike ht₂) fun i hi => ?_
    rw [hs₂.root]
    exact hs₂.arena.below_iff.mpr (hbelow i hi)
  have hreseeded : ∀ (r : Tree) rng, ({ r with rng } : Tree).Alike r := fun r rng =>
    ⟨.refl _, rfl, rfl, rfl, rfl⟩
  have hvalue : (a.board.status.map some).value t₁.side =
      (a.board.status.map some).value s₁.side := by rw [hswept.side]
  have hgames : t₁.config.games = s₁.config.games := by
    rw [hswept.config]
    rfl
  have hleaf := hbelow a.leaf List.mem_cons_self
  have hcolor : (t₁.node (f a.leaf)).color = (s₁.node a.leaf).color := (hswept.node hleaf).color
  dsimp only [Arrival.rename] at hconclude ⊢
  split_ifs with hover hend hwin
  · exact ⟨rfl, rfl, f, hswept⟩
  · -- the walk decided the game
    refine ⟨rfl, rfl, ?_⟩
    have halike : ∀ (r : Tree) id, ({ r with
        rng := a.rng
        arena := r.arena.modify id fun n => { n with decisive := true } } : Tree).Alike r :=
      fun r id => ⟨Arena.alike_modify id fun n => ⟨rfl, rfl, rfl⟩, rfl, rfl, rfl, rfl⟩
    have hmarked := (hswept.learn (halike s₁ a.leaf).arena (hswept.store.learn hleaf
      (fun hnm => { hnm with decisive := rfl }) fun n => rfl)).reseed a.rng
    rw [hvalue]
    exact hconclude hmarked (halike s₁ a.leaf) (halike t₁ (f a.leaf)) _ 1
  · -- the walk drew the game
    refine ⟨rfl, rfl, ?_⟩
    rw [hvalue]
    exact hconclude (hswept.reseed a.rng) (hreseeded s₁ a.rng) (hreseeded t₁ a.rng) _ 1
  · rw [hcolor]
    split
    · exact ⟨rfl, rfl, f, hswept.reseed _⟩
    · rw [hgames]
      refine ⟨rfl, rfl, ?_⟩
      exact hconclude (hswept.reseed _) (hreseeded s₁ _) (hreseeded t₁ _) _ _

/-! ### Moving the root -/

lemma Mirrors.rootNode (h : Mirrors f s t) : Node.Renamed f s.rootNode t.rootNode := by
  rw [Tree.rootNode, Tree.rootNode, h.root]
  exact h.node .refl

/-- The same child is found under other names. -/
lemma Mirrors.childAt?_eq (h : Mirrors f s t) (c : Cell) : t.childAt? c = (s.childAt? c).map f := by
  rw [childAt?, childAt?, h.rootNode.children, List.find?_map]
  refine congrArg (Option.map f) (List.find?_congr fun i hi => ?_)
  have hcell : (t.node (f i)).cell = (s.node i).cell := (h.node (.single hi)).cell
  simp only [Function.comp_apply, hcell]

/-- Both trees get the same root, before the old one is left behind. -/
lemma Mirrors.moved (h : Mirrors f s t) (os : s.Orderly left stored) (ot : t.Orderly left' stored')
    (c : Cell) : ∃ f', Mirrors f' (s.moved c) (t.moved c) := by
  have hroot : s.arena.Below s.root s.root := .refl
  rw [Tree.moved, Tree.moved, h.childAt?_eq]
  cases hid : s.childAt? c with
  | some id =>
      have hchild : s.arena.Child s.root id := List.mem_of_find?_eq_some hid
      have hcut := h.store.cut hroot hchild
      rw [← h.root] at hcut
      exact ⟨f, rfl, h.side, h.rng, h.config, hcut.tree (Relation.ReflTransGen.single hchild)⟩
  | none =>
      have hbare :
          ({ cell := some c, color := some (Color.after s.rootNode.color) } : Node).children = [] :=
        rfl
      obtain ⟨-, hnew⟩ := h.store.alloc os.forest.toTidy ot.forest.toTidy hbare none
      dsimp only [Option.map_none]
      rw [h.rootNode.color]
      refine ⟨_, ?_, h.side, h.rng, h.config, hnew.tree (Set.mem_insert ..)⟩
      dsimp only
      rw [Function.update_self]

lemma advance_events (t : Tree) (c : Cell) :
    (t.advance c).events = [advanceEvent c ((t.childAt? c).map fun id => (t.node id).visits)] := by
  rw [advance]
  cases t.childAt? c <;> rfl

/-- **Moving the root has the same effect on both trees.** -/
lemma Mirrors.advance (h : Mirrors f s t) (os : s.Orderly left stored)
    (ot : t.Orderly left' stored') (c : Cell) :
    (t.advance c).events = (s.advance c).events ∧
      ∃ f', Mirrors f' (s.advance c).state (t.advance c).state := by
  obtain ⟨os', hs⟩ := os.advance c
  obtain ⟨ot', ht⟩ := ot.advance c
  obtain ⟨f', hmoved⟩ := h.moved os ot c
  refine ⟨?_, f', hmoved.agrees hs ht os' ot'⟩
  rw [advance_events, advance_events, h.childAt?_eq]
  cases hid : s.childAt? c with
  | none => rfl
  | some id =>
      have hnode := h.node (.single (List.mem_of_find?_eq_some hid))
      rw [Option.map_some, Option.map_some, Option.map_some, hnode.visits]

/-! ### Calls -/

/-- What a caller hears of a call. How many nodes a sweep freed is not part of it. -/
inductive Answer
  | games (result : Except SearchError ℕ) (events : List Event)
  | moved (result : Except SearchError Unit) (events : List Event)
  | swept

/-- The answer to a call. -/
def answer (t : Tree) : Call → Answer
  | .update b => .games (t.update b).result (t.update b).events
  | .judged judge b => .games (t.updateWith judge b).result (t.updateWith judge b).events
  | .advance x y => .moved (t.advanceTo x y).result (t.advanceTo x y).events
  | .sweep => .swept

/-- The answers to calls one after another. -/
def answers : Tree → List Call → List Answer
  | _, [] => []
  | t, k :: ks => t.answer k :: (t.after k).answers ks

/-- **A call has the same answer and the same effect on both trees.** -/
lemma Mirrors.after (h : Mirrors f s t) (os : s.Orderly left stored) (ot : t.Orderly left' stored')
    (k : Call) : t.answer k = s.answer k ∧ ∃ f', Mirrors f' (s.after k) (t.after k) := by
  cases k with
  | update b =>
      have hgames : t.config.games = s.config.games := by
        rw [h.config]
        rfl
      have hplayouts : t.playouts = s.playouts := by
        funext b last seed
        rw [playouts, playouts, h.side, hgames]
      have hupdate : t.update b = t.updateWith s.playouts b := by
        rw [← hplayouts]
        rfl
      obtain ⟨hresult, hevents, hstate⟩ := h.updateWith os ot s.playouts b
      rw [answer, answer, Tree.after, Tree.after, hupdate]
      exact ⟨by rw [hresult, hevents]; rfl, hstate⟩
  | judged judge b =>
      obtain ⟨hresult, hevents, hstate⟩ := h.updateWith os ot judge b
      exact ⟨by rw [answer, answer, hresult, hevents], hstate⟩
  | advance x y =>
      rw [answer, answer, Tree.after, Tree.after, advanceTo, advanceTo]
      cases Cell.ofCoordinates x y with
      | error e => exact ⟨rfl, f, h⟩
      | ok c =>
          obtain ⟨hevents, hstate⟩ := h.advance os ot c
          exact ⟨by rw [hevents], hstate⟩
  | sweep => exact ⟨rfl, f, h.agrees os.sweep.2 ot.sweep.2 os.sweep.1 ot.sweep.1⟩

/-- **A run of calls has the same answers and the same effect on both trees.** -/
lemma Mirrors.run (h : Mirrors f s t) (os : s.Orderly left stored) (ot : t.Orderly left' stored')
    (ks : List Call) :
    t.answers ks = s.answers ks ∧
      ∃ f', Mirrors f' (ks.foldl Tree.after s) (ks.foldl Tree.after t) := by
  induction ks generalizing s t f left left' stored stored' with
  | nil => exact ⟨rfl, f, h⟩
  | cons k ks ih =>
      obtain ⟨hanswer, f', hafter⟩ := h.after os ot k
      obtain ⟨hanswers, hrun⟩ := ih hafter (os.after k) (ot.after k)
      rw [answers, answers, hanswer, hanswers]
      exact ⟨rfl, hrun⟩

/-! ### What can be seen -/

/-- What can be asked of two trees has the same answers: about the root, about the moves below it,
and about the lines that start with them. -/
structure LooksLike (t s : Tree) : Prop where
  cell : t.rootNode.cell = s.rootNode.cell
  color : t.rootNode.color = s.rootNode.color
  visits : t.rootNode.visits = s.rootNode.visits
  score : t.rootNode.score = s.rootNode.score
  decisive : t.rootNode.decisive = s.rootNode.decisive
  games : t.games = s.games
  candidates : t.candidates = s.candidates
  candidateCount : t.candidateCount = s.candidateCount
  best : t.best? = s.best?
  lineFrom : ∀ c, t.lineFrom c = s.lineFrom c
  lineBelow : ∀ c bound,
    (t.childAt? c).map (t.lineBelow bound) = (s.childAt? c).map (s.lineBelow bound)
  isReady : ∀ level, t.isReady level = s.isReady level

/-- The same results are shown of a node and its image. -/
lemma stats?_eq {n m : Node} (h : Node.Renamed f n m) (selection : Float32) :
    stats? m selection = stats? n selection := by
  rw [stats?, stats?, h.cell, h.color, h.average, h.visits]

/-- The candidates are the same. -/
lemma Mirrors.candidates_eq (h : Mirrors f s t) : t.candidates = s.candidates := by
  rw [candidates, candidates, h.rootNode.children, h.rootNode.visits, List.filterMap_map]
  refine List.filterMap_congr fun i hi => ?_
  have hnode := h.node (.single hi)
  show stats? (t.node (f i)) (t.selectionScore (t.node (f i)) _) = _
  rw [h.selectionScore_eq hnode, stats?_eq hnode]

/-- The line below a node and the line below its image are the same. -/
lemma Mirrors.lineBelow_eq (h : Mirrors f s t) (bound : ℕ) (hi : s.arena.Below s.root i) :
    t.lineBelow bound (f i) = s.lineBelow bound i := by
  induction bound generalizing i with
  | zero => rfl
  | succ bound ih =>
      have hnode := h.node hi
      have hnext : lastBest? (fun child => (t.node child).average) (t.node (f i)).children =
          (lastBest? (fun child => (s.node child).average) (s.node i).children).map f := by
        rw [hnode.children]
        exact lastBest?_map fun j hj => (h.node (hi.tail hj)).average
      rw [Tree.lineBelow, Tree.lineBelow, stats?_eq hnode, hnext]
      cases hbest : lastBest? (fun child => (s.node child).average) (s.node i).children with
      | none => rfl
      | some next =>
          have hline := ih (hi.tail (mem_of_lastBest? hbest))
          rw [Option.map_some]
          dsimp only
          rw [hline]

/-- Trees that mirror each other look alike. -/
lemma Mirrors.looksLike (h : Mirrors f s t) : t.LooksLike s := by
  have hline : ∀ c bound,
      (t.childAt? c).map (t.lineBelow bound) = (s.childAt? c).map (s.lineBelow bound) := by
    intro c bound
    rw [h.childAt?_eq]
    cases hid : s.childAt? c with
    | none => rw [Option.map_none, Option.map_none, Option.map_none]
    | some id =>
        have hbelow := h.lineBelow_eq bound (.single (List.mem_of_find?_eq_some hid))
        rw [Option.map_some, Option.map_some, Option.map_some, hbelow]
  have hcount : t.candidateCount = s.candidateCount := by
    rw [candidateCount, candidateCount, h.rootNode.children, List.length_map]
  have hgames : t.games = s.games := h.rootNode.games
  have hfrom : ∀ c, t.lineFrom c = s.lineFrom c := by
    intro c
    rw [Tree.lineFrom, Tree.lineFrom, h.childAt?_eq]
    cases hid : s.childAt? c with
    | none => rfl
    | some id => exact h.lineBelow_eq 362 (.single (List.mem_of_find?_eq_some hid))
  exact {
    cell := h.rootNode.cell
    color := h.rootNode.color
    visits := h.rootNode.visits
    score := h.rootNode.score
    decisive := h.rootNode.decisive
    games := hgames
    candidates := h.candidates_eq
    candidateCount := hcount
    best := by rw [best?, best?, h.candidates_eq]
    lineFrom := hfrom
    lineBelow := hline
    isReady := fun level => by rw [isReady, isReady, hcount, hgames] }

/-- New trees mirror each other. -/
lemma mirrors_ofRoot {root : Node} (hbare : root.children = []) (htop : root.parent = none)
    (side : Option Color) (config : Config) (pruning : Pruning) :
    Mirrors id (ofRoot root side config) (ofRoot root side { config with pruning }) := by
  have os := orderly_ofRoot hbare htop side config (Xoshiro.ofSeed (config.seed.getD 0))
  refine ⟨rfl, rfl, rfl, rfl, Set.injOn_id _, fun i hi j hj => hi.tail hj, fun i hi => ?_,
    fun i _ => ⟨rfl, rfl, rfl, rfl, rfl, rfl, (List.map_id _).symm⟩⟩
  exact ⟨os.used hi, os.used hi⟩

/-- **Pruning cannot be observed.** Take two new trees with the same root, side and seed, whose
configurations differ at most in the pruning, and give both the same calls. Every call has the same
answer and tells the log the same, and after the calls everything that can be asked of the trees has
the same answers. Only the number of nodes and of those that wait to be freed may differ. -/
theorem pruning_unobservable (cell : Option Cell) (color side : Option Color) (config : Config)
    (seed : UInt64) (p q : Pruning) (ks : List Call) :
    (ofRoot { cell, color } side { config with pruning := q, seed := some seed }).answers ks =
        (ofRoot { cell, color } side { config with pruning := p, seed := some seed }).answers ks ∧
      (ks.foldl after
          (ofRoot { cell, color } side { config with pruning := q, seed := some seed })).LooksLike
        (ks.foldl after
          (ofRoot { cell, color } side { config with pruning := p, seed := some seed })) := by
  have hbare : ({ cell, color } : Node).children = [] := rfl
  have htop : ({ cell, color } : Node).parent = none := rfl
  obtain ⟨hanswers, f, hmirrors⟩ := (mirrors_ofRoot hbare htop side
    { config with pruning := p, seed := some seed } q).run
    (orderly_ofRoot hbare htop side _ (Xoshiro.ofSeed seed))
    (orderly_ofRoot hbare htop side _ (Xoshiro.ofSeed seed)) ks
  exact ⟨hanswers, hmirrors.looksLike⟩

end Tree

end FiveInRow
