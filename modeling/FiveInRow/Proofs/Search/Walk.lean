import Mathlib.Tactic
import FiveInRow.Proofs.Ranking.Shortlist
import FiveInRow.Proofs.Search.Positions

/-!
Updates of a tree that follows a game. The walk from the root plays moves that are accepted, so it
ends on a leaf and never warns; crediting a result touches no link; and the children of the leaf
continue the position at which the walk arrived.

* `Arena.Alike`: two stores that differ only in what the search has learnt;
* `Tree.upward_descend`: a walk notes the nodes above its leaf, whatever the board;
* `Tree.Arrives`, `Tree.Follows.descend`: where a walk ends on the board that the tree follows;
* `Tree.Follows.sweep`, `Tree.Follows.expand`, `Tree.Follows.conclude`: the steps of an update;
* `Tree.Follows.update`: an update with any judge leaves a tree that follows the same game.
-/

namespace FiveInRow

namespace Arena

variable {a b c : Arena} {f : Node → Node} {held : List NodeId} {pos : NodeId → Board} {i x : ℕ}

/-- Two stores differ only in what the search has learnt. -/
structure Alike (b a : Arena) : Prop where
  free : b.free = a.free
  size : b.nodes.size = a.nodes.size
  node : ∀ i, (b.get i).move = (a.get i).move ∧ (b.get i).children = (a.get i).children ∧
    (b.get i).parent = (a.get i).parent

lemma Alike.refl (a : Arena) : Alike a a := ⟨rfl, rfl, fun _ => ⟨rfl, rfl, rfl⟩⟩

lemma Alike.trans (hcb : Alike c b) (hba : Alike b a) : Alike c a where
  free := hcb.free.trans hba.free
  size := hcb.size.trans hba.size
  node i := by
    obtain ⟨hm, hc, hp⟩ := hcb.node i
    obtain ⟨hm', hc', hp'⟩ := hba.node i
    exact ⟨hm.trans hm', hc.trans hc', hp.trans hp'⟩

lemma alike_modify (id : NodeId) (hf : ∀ n, (f n).move = n.move ∧ (f n).children = n.children ∧
    (f n).parent = n.parent) : Alike (a.modify id f) a where
  free := rfl
  size := size_modify
  node i := by
    rcases a.get_modify_cases id f i with h | ⟨-, h⟩
    · rw [h]
      exact ⟨rfl, rfl, rfl⟩
    · rw [h]
      exact hf _

lemma Alike.thins (h : Alike b a) : Thins b a := by
  intro i j hj
  obtain ⟨hi, hchildren, -⟩ := h.node i
  obtain ⟨hjm, -, hparent⟩ := h.node j
  rw [hchildren] at hj
  exact ⟨hj, congrArg Prod.snd hi, congrArg Prod.fst hjm, congrArg Prod.snd hjm, hparent⟩

lemma Alike.tidy (h : Alike b a) (ht : Tidy a held) : Tidy b held := by
  refine ht.mono h.size.ge fun x => ?_
  have hparents : b.parents x = a.parents x := by
    rw [parents, parents, h.size]
    exact Finset.sum_congr rfl fun i _ => by rw [(h.node i).2.1]
  rw [refs, refs, h.free, hparents]

end Arena

namespace Tree

variable {t t' : Tree} {b : Board} {pos : NodeId → Board} {id : ℕ}

/-- A tree that has only learnt more follows the same game. -/
lemma Follows.of_alike (h : t.Follows b pos) (ha : t'.arena.Alike t.arena)
    (hroot : t'.root = t.root) (hgarbage : t'.garbage = t.garbage) : t'.Follows b pos := by
  obtain ⟨hmove, -, hparent⟩ := ha.node t.root
  refine ⟨?_, h.linked.thins ha.thins, by rw [hroot, h.start], ?_, ?_, ?_⟩
  · rw [hroot, hgarbage]
    exact ha.tidy h.tidy
  · rw [rootNode, node, hroot, ← h.cell]
    exact congrArg Prod.fst hmove
  · rw [rootNode, node, hroot, ← h.color]
    exact congrArg Prod.snd hmove
  · rw [rootNode, node, hroot, ← h.parent]
    exact hparent

/-! ### The walk -/

/-- The child that a walk goes to is a child. -/
lemma pickChild_mem (t : Tree) (visits : ℕ) (first : NodeId) (rest : List NodeId) (rng : Xoshiro) :
    (t.pickChild visits first rest rng).1 ∈ first :: rest := by
  have hdrawn : ∀ g, (((Draw.pick? (first :: rest) : Draw Xoshiro _) g).1).getD first ∈
      first :: rest := by
    intro g
    cases hpick : ((Draw.pick? (first :: rest) : Draw Xoshiro _) g).1 with
    | none => exact List.mem_cons_self
    | some id => exact List.mem_of_getElem? hpick
  have hbest : (lastBest? (fun id => t.selectionScore (t.node id) visits)
      (first :: rest)).getD first ∈ first :: rest := by
    cases hb : lastBest? (fun id => t.selectionScore (t.node id) visits) (first :: rest) with
    | none => exact List.mem_cons_self
    | some id => exact mem_of_lastBest? hb
  rw [pickChild]
  split_ifs with hv
  · exact List.mem_cons_self
  · show ((if _ < _ then _ else _ : Draw Xoshiro NodeId) _).1 ∈ _
    split_ifs
    · exact hdrawn _
    · exact hbest

/-- A walk ends on a leaf. -/
lemma descend_of_leaf (b : Board) (above : List NodeId) (rng : Xoshiro)
    (hchildren : (t.node id).children = []) :
    t.descend b id above rng = ⟨id, above, b, rng, []⟩ := by
  rw [descend]
  split
  · rfl
  · next hcons => cases hchildren.symm.trans hcons

/-- One step of a walk, to the child that was picked. -/
lemma descend_of_pickChild {first child : NodeId} {rest above : List NodeId} {rng rng' : Xoshiro}
    (b : Board) (hchildren : (t.node id).children = first :: rest)
    (hpick : t.pickChild (t.node id).visits first rest rng = (child, rng')) :
    t.descend b id above rng =
      match (t.node child).cell, (t.node child).color with
      | none, _ => ⟨child, id :: above, b, rng', []⟩
      | some c, none => ⟨child, id :: above, b, rng', [illegalMove c]⟩
      | some c, some color =>
        if b.accepts c = true then t.descend (b.place c color) child (id :: above) rng'
        else ⟨child, id :: above, b, rng', [illegalMove c]⟩ := by
  rw [descend]
  split
  · next hnil =>
      rw [hnil] at hchildren
      cases hchildren
  · next first' rest' hcons =>
      obtain ⟨rfl, rfl⟩ := List.cons.inj (hcons.symm.trans hchildren)
      rw [hpick]
      rfl

/-- **A walk notes the nodes above its leaf**, on any board. -/
lemma upward_descend (t : Tree) (b : Board) {above : List NodeId} (rng : Xoshiro)
    (hup : (id :: above).IsChain fun i j => i ∈ (t.node j).children) :
    ((t.descend b id above rng).leaf :: (t.descend b id above rng).above).IsChain
        (fun i j => i ∈ (t.node j).children) ∧
      ((t.descend b id above rng).leaf :: (t.descend b id above rng).above).getLast? =
        (id :: above).getLast? := by
  -- induction on the room of the board, which every step of the walk lowers
  induction hn : b.room using Nat.strong_induction_on generalizing b id above rng with
  | _ n ih =>
      cases hchildren : (t.node id).children with
      | nil =>
          rw [descend_of_leaf b above rng hchildren]
          exact ⟨hup, rfl⟩
      | cons first rest =>
          have hmem := t.pickChild_mem (t.node id).visits first rest rng
          rcases hpick : t.pickChild (t.node id).visits first rest rng with ⟨child, rng'⟩
          rw [hpick, ← hchildren] at hmem
          have hup' : (child :: id :: above).IsChain fun i j => i ∈ (t.node j).children :=
            .cons_cons hmem hup
          have hlast : (child :: id :: above).getLast? = (id :: above).getLast? :=
            List.getLast?_cons_cons
          rw [descend_of_pickChild b hchildren hpick]
          split
          · exact ⟨hup', hlast⟩
          · exact ⟨hup', hlast⟩
          · next c color _ _ =>
              split_ifs with ha
              · obtain ⟨hup'', hlast'⟩ :=
                  ih _ (hn ▸ Board.room_place ha color) (b.place c color) rng' hup' rfl
                exact ⟨hup'', hlast'.trans hlast⟩
              · exact ⟨hup', hlast⟩

/-- Where a walk ends on a tree whose nodes stand for positions: on a leaf, with its position,
without a warning, and having noted the parents on the way. -/
structure Arrives (t : Tree) (pos : NodeId → Board) (a : Arrival) : Prop where
  warnings : a.warnings = []
  board : a.board = pos a.leaf
  played : a.board.Played
  leaf : (t.node a.leaf).children = []
  upward : (a.leaf :: a.above).IsChain fun i j => i ∈ (t.node j).children
  top : (a.leaf :: a.above).getLast? = some t.root

/-- A walk from a node that stands for its position ends on a leaf that does, without a warning. -/
lemma board_descend (h : t.arena.Linked pos) (hp : (pos id).Played) (above : List NodeId)
    (rng : Xoshiro) :
    (t.descend (pos id) id above rng).warnings = [] ∧
      (t.descend (pos id) id above rng).board = pos (t.descend (pos id) id above rng).leaf ∧
      (t.descend (pos id) id above rng).board.Played ∧
      (t.node (t.descend (pos id) id above rng).leaf).children = [] := by
  -- induction on the room of the position, which every step of the walk lowers
  induction hn : (pos id).room using Nat.strong_induction_on generalizing id above rng with
  | _ n ih =>
      cases hchildren : (t.node id).children with
      | nil =>
          rw [descend_of_leaf _ above rng hchildren]
          exact ⟨rfl, rfl, hp, hchildren⟩
      | cons first rest =>
          have hmem := t.pickChild_mem (t.node id).visits first rest rng
          rcases hpick : t.pickChild (t.node id).visits first rest rng with ⟨child, rng'⟩
          rw [hpick, ← hchildren] at hmem
          obtain ⟨-, hcolor, c, hcell, ha, hpos⟩ := h id child hmem
          have hcell' : (t.node child).cell = some c := hcell
          have hcolor' : (t.node child).color = some (Color.after (t.node id).color) := hcolor
          have hplayed : (pos child).Played := by
            rw [hpos]
            exact hp.place _ ha
          rw [descend_of_pickChild _ hchildren hpick, hcell', hcolor']
          dsimp only
          have hnext := ih _ (hn ▸ h.room_lt hmem) hplayed (id :: above) rng' rfl
          rw [hpos] at hnext
          rw [if_pos ha]
          exact hnext

/-- **A walk ends on a leaf, with the leaf's position and without a warning.** -/
lemma arrives_descend (h : t.arena.Linked pos) {above : List NodeId} (hp : (pos id).Played)
    (hup : (id :: above).IsChain fun i j => i ∈ (t.node j).children)
    (htop : (id :: above).getLast? = some t.root) (rng : Xoshiro) :
    t.Arrives pos (t.descend (pos id) id above rng) := by
  obtain ⟨hwarnings, hboard, hplayed, hleaf⟩ := board_descend h hp above rng
  obtain ⟨hup', htop'⟩ := t.upward_descend (pos id) rng hup
  exact ⟨hwarnings, hboard, hplayed, hleaf, hup', htop'.trans htop⟩

/-! ### The steps of an update -/

/-- Freeing what was left behind touches nothing of the tree. -/
lemma Follows.sweep (h : t.Follows b pos) : t.sweep.2.Follows b pos := by
  rw [Tree.sweep]
  split
  · next budget hpruning =>
      have htidy : t.arena.Tidy (t.garbage.toList ++ [t.root]) :=
        h.tidy.subperm (List.perm_append_singleton t.root t.garbage.toList).subperm
      obtain ⟨htidy', hthins, hget⟩ := htidy.freeQueued budget 0
      have hroot := hget t.root List.mem_cons_self
      have hheld := htidy'.subperm (List.perm_append_singleton t.root _).symm.subperm
      refine ⟨hheld, h.linked.thins hthins, h.start, ?_, ?_, ?_⟩
      · rw [← h.cell]
        exact congrArg Node.cell hroot
      · rw [← h.color]
        exact congrArg Node.color hroot
      · rw [← h.parent]
        exact congrArg Node.parent hroot
  · exact h
  · exact h

/-- Crediting a result changes only what the search has learnt. -/
lemma alike_credit (t : Tree) (path : List NodeId) (value : Float32) (games : ℕ) :
    (t.credit path value games).arena.Alike t.arena := by
  rw [credit]
  generalize t.arena = a
  induction path generalizing a with
  | nil => exact .refl a
  | cons id path ih =>
      rw [List.foldl_cons]
      exact (ih _).trans (Arena.alike_modify id fun n => ⟨rfl, rfl, rfl⟩)

/-- **New children continue the game**: the moves of the shortlist can be played. -/
lemma Follows.expand {leaf : NodeId} (h : t.Follows b pos) (hp : (pos leaf).Played)
    (hleaf : (t.node leaf).children = [])
    (hnode : leaf = t.root ∨ ∃ i, leaf ∈ (t.node i).children) :
    ∃ pos', (t.expand leaf (pos leaf)).Follows b pos' := by
  have hheld : leaf ∈ t.root :: t.garbage.toList ∨ ∃ i, leaf ∈ (t.arena.get i).children :=
    hnode.imp_left fun hroot => by rw [hroot]; exact List.mem_cons_self
  have hslot : leaf < t.arena.nodes.size := by
    rcases hheld with hmem | ⟨i, hi⟩
    · exact h.tidy.lt_size_of_held hmem
    · exact h.tidy.lt_size_of_child hi
  set color := Color.after (t.node leaf).color
  set moves := ((pos leaf).shortlist (some color)).map (Node.reply leaf color)
  have hbare : ∀ n ∈ moves, n.children = [] := by
    intro n hn
    obtain ⟨c, -, rfl⟩ := List.mem_map.mp hn
    rfl
  obtain ⟨htidy, -, hother⟩ := h.tidy.allocAll hbare
  obtain ⟨pos', hlinked, hold, hreplies⟩ :=
    h.linked.replies h.tidy hheld rfl fun c hc => hp.accepts_of_mem_shortlist hc
  have hsize := (t.arena.slots_allocAll moves).2.1
  have hleaf' : ((t.arena.allocAll moves).2.get leaf).children = [] := by
    rw [hother leaf (h.tidy.not_mem_allocAll hheld moves)]
    exact hleaf
  have hnew := h.tidy.not_mem_allocAll (.inl List.mem_cons_self) moves
  obtain ⟨children, hroot⟩ := (t.arena.allocAll moves).2.get_modify_children leaf
    (t.arena.allocAll moves).1 t.root
  rw [hother t.root hnew] at hroot
  refine ⟨pos', htidy.adopt (hslot.trans_le hsize) hleaf', hlinked.adopt hleaf' hreplies,
    ?_, ?_, ?_, ?_⟩
  · exact (hold t.root hnew).trans h.start
  · exact (congrArg Node.cell hroot).trans h.cell
  · exact (congrArg Node.color hroot).trans h.color
  · exact (congrArg Node.parent hroot).trans h.parent

/-- A walk arrives at a node of the tree. -/
lemma Arrives.node {a : Arrival} (h : t.Arrives pos a) :
    a.leaf = t.root ∨ ∃ i, a.leaf ∈ (t.node i).children := by
  have hup := h.upward
  have htop := h.top
  cases habove : a.above with
  | nil =>
      rw [habove, List.getLast?_singleton] at htop
      exact .inl (Option.some.inj htop)
  | cons i above =>
      rw [habove, List.isChain_cons_cons] at hup
      exact .inr ⟨i, hup.1⟩

lemma Arrives.of_alike {a : Arrival} (h : t.Arrives pos a) (ha : t'.arena.Alike t.arena)
    (hroot : t'.root = t.root) : t'.Arrives pos a where
  warnings := h.warnings
  board := h.board
  played := h.played
  leaf := (ha.node a.leaf).2.1.trans h.leaf
  upward := h.upward.imp fun i j hij => by
    rw [show (t'.node j).children = (t.node j).children from (ha.node j).2.1]
    exact hij
  top := h.top.trans (congrArg some hroot.symm)

/-- Crediting the walk, and children for its leaf where the leaf has earned them. -/
lemma Follows.conclude {a : Arrival} (h : t.Follows b pos) (ha : t.Arrives pos a) (value : Float32)
    (games : ℕ) : ∃ pos', (t.conclude a value games).Follows b pos' := by
  have halike := t.alike_credit (a.leaf :: a.above) value games
  have hcredit : (t.credit (a.leaf :: a.above) value games).Follows b pos :=
    h.of_alike halike rfl rfl
  have harrives : (t.credit (a.leaf :: a.above) value games).Arrives pos a :=
    ha.of_alike halike rfl
  rw [Tree.conclude]
  split_ifs
  · rw [harrives.board]
    exact hcredit.expand (by rw [← harrives.board]; exact harrives.played) harrives.leaf
      harrives.node
  · exact ⟨pos, hcredit⟩

/-- The walk of an update. -/
lemma Follows.descend (h : t.Follows b pos) (hp : b.Played) (rng : Xoshiro) :
    t.Arrives pos (t.descend b t.root [] rng) := by
  have hstart : (pos t.root).Played := by rwa [h.start]
  have harrives := arrives_descend h.linked hstart (.singleton t.root) rfl rng
  rwa [h.start] at harrives

/-- **An update with any judge leaves a tree that follows the same game**, and tells nothing but
what the judge tells. -/
lemma Follows.update (h : t.Follows b pos) (hp : b.Played) (judge : Judge) :
    (∃ pos', (t.updateWith judge b).state.Follows b pos') ∧
      ∀ event ∈ (t.updateWith judge b).events,
        ∃ position last seed, event ∈ (judge position last seed).2 := by
  have hsweep := h.sweep
  rw [updateWith]
  generalize t.sweep.2 = s at hsweep
  have harrives := hsweep.descend hp s.rng
  dsimp only
  generalize s.descend b s.root [] s.rng = a at harrives
  -- the search state may change in between
  have hother : ∀ rng,
      ({ s with rng } : Tree).Follows b pos ∧ ({ s with rng } : Tree).Arrives pos a := fun rng =>
    ⟨hsweep.of_alike (.refl _) rfl rfl, harrives.of_alike (.refl _) rfl⟩
  split_ifs with hover hend hwin
  · exact ⟨⟨pos, hsweep⟩, fun event he => absurd he List.not_mem_nil⟩
  · -- the walk decided the game
    have halike : (s.arena.modify a.leaf fun n => { n with decisive := true }).Alike s.arena :=
      Arena.alike_modify a.leaf fun n => ⟨rfl, rfl, rfl⟩
    have hmarked : ({ s with
        rng := a.rng
        arena := s.arena.modify a.leaf fun n => { n with decisive := true } } : Tree).Follows b
          pos :=
      hsweep.of_alike halike rfl rfl
    refine ⟨hmarked.conclude (harrives.of_alike halike rfl) _ 1, ?_⟩
    rw [harrives.warnings]
    exact fun event he => absurd he List.not_mem_nil
  · -- the walk drew the game
    obtain ⟨hfollows, harrives'⟩ := hother a.rng
    refine ⟨hfollows.conclude harrives' _ 1, ?_⟩
    rw [harrives.warnings]
    exact fun event he => absurd he List.not_mem_nil
  · obtain ⟨hfollows, harrives'⟩ := hother (WordSource.next a.rng).2
    rw [harrives.warnings]
    split
    · next e events hjudge =>
        refine ⟨⟨pos, hfollows⟩, fun event he => ?_⟩
        exact ⟨a.board, (s.node a.leaf).color, (WordSource.next a.rng).1, by rw [hjudge]; exact he⟩
    · next value events hjudge =>
        refine ⟨hfollows.conclude harrives' _ _, fun event he => ?_⟩
        exact ⟨a.board, (s.node a.leaf).color, (WordSource.next a.rng).1, by rw [hjudge]; exact he⟩

end Tree

end FiveInRow
