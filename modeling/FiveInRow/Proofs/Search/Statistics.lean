import Mathlib.Tactic
import FiveInRow.Proofs.Ranking.Candidates
import FiveInRow.Proofs.Search.Update

/-!
The statistics of a search tree against the updates that it has seen. A ledger notes, for every
slot, the updates that passed through the node in it since the node was stored; it is kept beside
the run, from what the calls return and where their walks went, and never read by the search.

* `Visit`, `Ledger`, `Tree.record`: the updates that passed through the nodes;
* `Tree.Kept`: a run of calls with its ledger;
* `Node.Sums`: a node whose counters add up the visits of a list;
* `Tree.Accounts`: the invariant: every node of the tree sums up its visits, each of which ended
  there or went on to one child;
* `Tree.Accounts.taught`, `Tree.Kept.accounts`: every call keeps it;
* `Tree.statistics_exact`: what the counters of the nodes say;
* `Tree.sprouted`, `Tree.grown`: a new game after one update and after two.
-/

namespace FiveInRow

/-! ### Ledgers -/

/-- An update that passed through a node: its value, the games it returned, and whether its walk
ended there. -/
structure Visit where
  value : Float32
  games : ℕ
  ended : Bool

/-- For every slot the visits of its node, the first one first. -/
abbrev Ledger := NodeId → List Visit

namespace Tree

/-- The ledger after an update that is credited along a walk and that stored the nodes `ids`. Every
node of the walk has one more visit; a node that was just stored has seen nothing. -/
def Arrival.note (a : Arrival) (value : Float32) (games : ℕ) (ids : List NodeId)
    (ledger : Ledger) : Ledger := fun i =>
  if i ∈ ids then []
  else if i ∈ a.path then ledger i ++ [⟨value, games, i = a.leaf⟩]
  else ledger i

/-- The nodes that an update stores: the children of a leaf that had none. -/
def newborn (judge : Judge) (t : Tree) (b : Board) : List NodeId :=
  let leaf := (t.walk b).leaf
  if (t.sweep.2.node leaf).children = [] then ((t.updateWith judge b).state.node leaf).children
  else []

/-- The ledger after an update. One that fails or returns no games is not noted. -/
def recordUpdate (t : Tree) (judge : Judge) (b : Board) (ledger : Ledger) : Ledger :=
  match t.outcome? judge b with
  | some (value, games) => (t.walk b).note value games (t.newborn judge b) ledger
  | none => ledger

/-- The ledger after a call. -/
def record (t : Tree) (ledger : Ledger) : Call → Ledger
  | .update b => t.recordUpdate t.playouts b ledger
  | .judged judge b => t.recordUpdate judge b ledger
  | .advance x y =>
    match Cell.ofCoordinates x y with
    | .ok c =>
      if (t.childAt? c).isSome then ledger
      else Function.update ledger (t.advance c).state.root []
    | .error _ => ledger
  | .sweep => ledger

/-- A run of calls on a new tree, with any generator, and its ledger. -/
inductive Kept : Tree → Ledger → Prop
  | start (b : Board) (side : Option Color) (config : Config) (rng : Xoshiro) :
      Kept { ofBoard b side config with rng } fun _ => []
  | call {t : Tree} {ledger : Ledger} (k : Call) (h : Kept t ledger) :
      Kept (t.after k) (t.record ledger k)

variable {t t' : Tree} {b : Board} {a : Arrival} {ledger : Ledger} {left ids : List NodeId}
  {stored i : ℕ} {value : Float32} {games : ℕ}

lemma Kept.run (h : Kept t ledger) : ∃ left stored, Run t left stored := by
  induction h with
  | start b side config rng => exact ⟨[], 1, .start b side config rng⟩
  | call k _ ih =>
      obtain ⟨left, stored, hr⟩ := ih
      exact ⟨_, _, hr.call k⟩

lemma Arrival.note_new (hi : i ∈ ids) : a.note value games ids ledger i = [] := if_pos hi

lemma Arrival.note_path (hids : i ∉ ids) (hi : i ∈ a.path) :
    a.note value games ids ledger i = ledger i ++ [⟨value, games, i = a.leaf⟩] := by
  rw [note, if_neg hids, if_pos hi]

lemma Arrival.note_other (hids : i ∉ ids) (hi : i ∉ a.path) :
    a.note value games ids ledger i = ledger i := by
  rw [note, if_neg hids, if_neg hi]

/-- Nodes that were just stored have seen nothing together. -/
lemma Arrival.sum_note_new :
    (ids.map fun j => (a.note value games ids ledger j).length).sum = 0 := by
  refine List.sum_eq_zero fun n hn => ?_
  obtain ⟨j, hj, rfl⟩ := List.mem_map.mp hn
  rw [note_new hj, List.length_nil]

/-- Of nodes that were there before, those on the walk have one more visit each. -/
lemma Arrival.sum_note {children : List NodeId} (hids : ∀ j ∈ children, j ∉ ids) :
    (children.map fun j => (a.note value games ids ledger j).length).sum =
      (children.map fun j => (ledger j).length).sum + children.countP (· ∈ a.path) := by
  induction children with
  | nil => rfl
  | cons j children ih =>
      have hj := hids j List.mem_cons_self
      rw [List.map_cons, List.sum_cons, List.map_cons, List.sum_cons, List.countP_cons,
        ih fun k hk => hids k (List.mem_cons_of_mem _ hk)]
      by_cases hpath : j ∈ a.path
      · rw [note_path hj hpath, if_pos (decide_eq_true hpath), List.length_append,
          List.length_singleton]
        omega
      · rw [note_other hj hpath, if_neg (by simpa using hpath)]
        omega

end Tree

/-! ### Accounts -/

/-- The counters of a node add up the visits of a list. -/
structure Node.Sums (n : Node) (side : Option Color) (seen : List Visit) : Prop where
  visits : n.visits = seen.length
  games : n.games = (seen.map Visit.games).sum
  score : n.score = seen.foldl
    (fun score v => score + if n.color = side then v.value else -v.value) 0

@[simp] lemma Node.color_credit (n : Node) (side : Option Color) (value : Float32) (games : ℕ) :
    (n.credit side value games).color = n.color := rfl

@[simp] lemma Node.children_credit (n : Node) (side : Option Color) (value : Float32) (games : ℕ) :
    (n.credit side value games).children = n.children := rfl

/-- **Crediting a node is one more visit.** -/
lemma Node.Sums.credit {n : Node} {side : Option Color} {seen : List Visit} (h : n.Sums side seen)
    (v : Visit) : (n.credit side v.value v.games).Sums side (seen ++ [v]) where
  visits := by
    rw [List.length_append, List.length_singleton, ← h.visits]
    rfl
  games := by
    rw [List.map_append, List.sum_append, List.map_singleton, List.sum_singleton, ← h.games]
    rfl
  score := by
    rw [List.foldl_append, List.foldl_cons, List.foldl_nil]
    exact congrArg (· + if n.color = side then v.value else -v.value) h.score

namespace Tree

variable {t t' : Tree} {b : Board} {a : Arrival} {ledger : Ledger} {left ids : List NodeId}
  {stored i : ℕ} {value : Float32} {games : ℕ}

/-- A node accounts for its visits: it sums them up; each of them ended there or went on to one of
the children; and if there are children, one had ended there. -/
structure AccountsFor (t : Tree) (ledger : Ledger) (i : NodeId) : Prop where
  sums : (t.node i).Sums t.side (ledger i)
  split : (ledger i).length =
    (ledger i).countP (·.ended) + ((t.node i).children.map fun j => (ledger j).length).sum
  ended : (t.node i).children ≠ [] → ∃ v ∈ ledger i, v.ended = true

/-- All nodes of a tree account for their visits. -/
def Accounts (t : Tree) (ledger : Ledger) : Prop :=
  ∀ i, t.arena.Below t.root i → t.AccountsFor ledger i

/-- A node that has seen nothing and has no children. -/
lemma accountsFor_blank {cell : Option Cell} {color : Option Color} {parent : Option NodeId}
    (hnode : t.node i = { cell, color, parent }) (hledger : ledger i = []) :
    t.AccountsFor ledger i := by
  refine ⟨?_, ?_, fun hne => ?_⟩
  · rw [hledger, hnode]
    exact ⟨rfl, rfl, rfl⟩
  · rw [hledger, hnode]
    rfl
  · rw [hnode] at hne
    exact absurd rfl hne

/-- Nodes that are retained keep their accounts. -/
lemma Accounts.retains (h : t.Accounts ledger) (hr : t'.Retains t) : t'.Accounts ledger := by
  intro i hi
  obtain ⟨hi', parent, hnode⟩ := hr.node i hi
  obtain ⟨⟨hvisits, hgames, hscore⟩, hsplit, hended⟩ := h i hi'
  refine ⟨?_, ?_, ?_⟩
  · rw [hnode, hr.side]
    exact ⟨hvisits, hgames, hscore⟩
  · rw [hnode]
    exact hsplit
  · rw [hnode]
    exact hended

/-- A tree of one new node has nothing to account for. -/
lemma accounts_of_lone {cell : Option Cell} {color : Option Color}
    (hroot : t.rootNode = { cell, color }) (hledger : ledger t.root = []) :
    t.Accounts ledger := by
  intro i hi
  obtain rfl := eq_root_of_bare (by rw [hroot]) hi
  exact accountsFor_blank hroot hledger

/-- The children of an old node have seen one visit more if the walk went on from there. -/
lemma Taught.sum_note (ht : t'.Taught t a value games ids) (ho : t.Orderly left stored)
    (ha : t.FromRoot a) (hi : t.arena.Below t.root i) :
    ((t.node i).children.map fun j => (a.note value games ids ledger j).length).sum =
      ((t.node i).children.map fun j => (ledger j).length).sum + if i ∈ a.above then 1 else 0 := by
  have hold : ∀ j ∈ (t.node i).children, j ∉ ids := fun j hj => ht.old j (hi.tail hj)
  rw [Arrival.sum_note hold]
  exact congrArg (_ + ·) (ho.forest.countP_upward List.mem_cons_self ha.upward ha.top i)

/-- The leaf of the walk: the visit ended there, whether or not children were stored. -/
lemma AccountsFor.leaf (h : t.AccountsFor ledger a.leaf) (ht : t'.Taught t a value games ids)
    (hids : a.leaf ∉ ids)
    (hsum : ((t.node a.leaf).children.map fun j => (a.note value games ids ledger j).length).sum =
      ((t.node a.leaf).children.map fun j => (ledger j).length).sum) :
    t'.AccountsFor (a.note value games ids ledger) a.leaf := by
  obtain ⟨hvisits, hgames, hscore⟩ := h.sums.credit ⟨value, games, true⟩
  have hnote : a.note value games ids ledger a.leaf = ledger a.leaf ++ [⟨value, games, true⟩] := by
    rw [Arrival.note_path hids List.mem_cons_self, decide_eq_true rfl]
  have hchildren : ((t'.node a.leaf).children.map fun j =>
      (a.note value games ids ledger j).length).sum =
        ((t.node a.leaf).children.map fun j => (ledger j).length).sum := by
    rw [ht.leaf, ← hsum]
    cases hgrows : t.grows a games with
    | false => rfl
    | true =>
        rw [grows, Bool.and_eq_true, Bool.and_eq_true, Node.isLeaf, List.isEmpty_iff] at hgrows
        rw [hgrows.1.2]
        exact Arrival.sum_note_new
  refine ⟨?_, ?_, fun _ => ⟨⟨value, games, true⟩, ?_, rfl⟩⟩
  · rw [hnote, ht.leaf, ht.side]
    exact ⟨hvisits, hgames, hscore⟩
  · rw [hchildren, hnote, List.length_append, List.countP_append, h.split]
    exact Nat.add_right_comm ..
  · rw [hnote]
    exact List.mem_append_right _ List.mem_cons_self

/-- A node above the leaf: the visit went on to a child. -/
lemma AccountsFor.above (h : t.AccountsFor ledger i) (ht : t'.Taught t a value games ids)
    (hi : i ∈ a.above) (hne : i ≠ a.leaf) (hids : i ∉ ids)
    (hsum : ((t.node i).children.map fun j => (a.note value games ids ledger j).length).sum =
      ((t.node i).children.map fun j => (ledger j).length).sum + 1) :
    t'.AccountsFor (a.note value games ids ledger) i := by
  have hnote : a.note value games ids ledger i = ledger i ++ [⟨value, games, false⟩] := by
    rw [Arrival.note_path hids (List.mem_cons_of_mem _ hi), decide_eq_false hne]
  have hchildren : ((t'.node i).children.map fun j =>
      (a.note value games ids ledger j).length).sum =
        ((t.node i).children.map fun j => (ledger j).length).sum + 1 := by
    rw [ht.above i hi, ← hsum]
    rfl
  refine ⟨?_, ?_, fun hgrown => ?_⟩
  · rw [hnote, ht.above i hi, ht.side]
    exact h.sums.credit ⟨value, games, false⟩
  · rw [hchildren, hnote, List.length_append, List.countP_append, h.split]
    exact Nat.add_assoc ..
  · rw [ht.above i hi] at hgrown
    obtain ⟨v, hv, hended⟩ := h.ended hgrown
    exact ⟨v, hnote ▸ List.mem_append_left _ hv, hended⟩

/-- A node off the walk. -/
lemma AccountsFor.other (h : t.AccountsFor ledger i) (ht : t'.Taught t a value games ids)
    (hnode : t'.node i = t.node i) (hi : i ∉ a.path) (hids : i ∉ ids)
    (hsum : ((t.node i).children.map fun j => (a.note value games ids ledger j).length).sum =
      ((t.node i).children.map fun j => (ledger j).length).sum) :
    t'.AccountsFor (a.note value games ids ledger) i := by
  have hnote : a.note value games ids ledger i = ledger i := Arrival.note_other hids hi
  refine ⟨?_, ?_, ?_⟩
  · rw [hnote, hnode, ht.side]
    exact h.sums
  · rw [hnote, hnode, hsum]
    exact h.split
  · rw [hnote, hnode]
    exact h.ended

/-- **A credited update keeps the accounts**: the nodes of the walk get a visit, and all but the
leaf pass it on to one child. -/
lemma Accounts.taught (hs : t.Accounts ledger) (ho : t.Orderly left stored) (ha : t.FromRoot a)
    (ht : t'.Taught t a value games ids) : t'.Accounts (a.note value games ids ledger) := by
  have hleaf : a.leaf ∉ a.above := ho.leaf_not_mem_above ha
  intro i hi
  by_cases hids : i ∈ ids
  · obtain ⟨c, color, hnode⟩ := ht.of_mem hids
    exact accountsFor_blank hnode (Arrival.note_new hids)
  have hold := (ht.below i hi).resolve_left hids
  have hsum : ((t.node i).children.map fun j => (a.note value games ids ledger j).length).sum = _ :=
    ht.sum_note ho ha hold
  by_cases hil : i = a.leaf
  · subst hil
    rw [if_neg hleaf] at hsum
    exact (hs _ hold).leaf ht hids hsum
  by_cases hia : i ∈ a.above
  · rw [if_pos hia] at hsum
    exact (hs i hold).above ht hia hil hids hsum
  · have hpath : i ∉ a.path := fun hmem => (Arrival.mem_path_iff.mp hmem).elim hil hia
    rw [if_neg hia] at hsum
    exact (hs i hold).other ht (ht.other i hold hpath) hpath hids hsum

/-- What the ledger takes for stored nodes are the children that the leaf got. -/
lemma Taught.newborn_eq {judge : Judge}
    (h : (t.updateWith judge b).state.Taught t.sweep.2 (t.walk b) value games ids) :
    t.newborn judge b = ids := by
  have hborn := h.born
  rw [newborn, h.leaf]
  cases hgrows : t.sweep.2.grows (t.walk b) games with
  | true =>
      rw [grows, Bool.and_eq_true, Bool.and_eq_true, Node.isLeaf, List.isEmpty_iff] at hgrows
      rw [if_pos hgrows.1.2]
      rfl
  | false =>
      rw [hgrows, if_neg Bool.false_ne_true, List.map_eq_nil_iff] at hborn
      rw [hborn]
      by_cases hbare : (t.sweep.2.node (t.walk b).leaf).children = []
      · rw [if_pos hbare]
        exact hbare
      · rw [if_neg hbare]

/-- **What a credited update notes**: a visit for every node of its walk, and nothing for the nodes
that it stored. -/
lemma Orderly.exists_recordUpdate {judge : Judge} (ho : t.Orderly left stored)
    (hcredit : t.outcome? judge b = some (value, games)) (ledger : Ledger) :
    ∃ ids, (t.updateWith judge b).state.Taught t.sweep.2 (t.walk b) value games ids ∧
      t.recordUpdate judge b ledger = (t.walk b).note value games ids ledger := by
  obtain ⟨ids, ht⟩ := ho.taught_updateWith hcredit
  refine ⟨ids, ht, ?_⟩
  rw [recordUpdate, hcredit, ht.newborn_eq]

/-- **Every update keeps the accounts.** -/
lemma Accounts.updateWith (h : t.Accounts ledger) (ho : t.Orderly left stored) (judge : Judge)
    (b : Board) : (t.updateWith judge b).state.Accounts (t.recordUpdate judge b ledger) := by
  obtain ⟨hsweep, hagrees⟩ := ho.sweep
  have hswept := h.retains hagrees.retains
  rcases updateWith_cases judge t b with ⟨hnone, -, rng, hstate⟩ | ⟨value, games, -, hsome, -⟩
  · rw [recordUpdate, hnone, hstate]
    exact fun i hi => ⟨(hswept i hi).sums, (hswept i hi).split, (hswept i hi).ended⟩
  · obtain ⟨ids, ht, hnote⟩ := ho.exists_recordUpdate hsome ledger
    rw [hnote]
    exact hswept.taught hsweep (t.fromRoot_walk b) ht

/-- **Every call keeps the accounts.** -/
lemma Accounts.after (h : t.Accounts ledger) (ho : t.Orderly left stored) (k : Call) :
    (t.after k).Accounts (t.record ledger k) := by
  cases k with
  | update b => exact h.updateWith ho t.playouts b
  | judged judge b => exact h.updateWith ho judge b
  | sweep => exact h.retains ho.sweep.2.retains
  | advance x y =>
      rw [Tree.after, advanceTo, record]
      cases Cell.ofCoordinates x y with
      | error e => exact h
      | ok c =>
          dsimp only
          cases hid : t.childAt? c with
          | some id => exact h.retains (ho.retains_advance hid)
          | none => exact accounts_of_lone (ho.rootNode_advance hid) (Function.update_self ..)

lemma Kept.accounts (h : Kept t ledger) : t.Accounts ledger := by
  induction h with
  | start b side config rng =>
      obtain ⟨cell, color, hnode⟩ := exists_rootNode_ofBoard b side config rng
      exact accounts_of_lone hnode rfl
  | call k h ih =>
      obtain ⟨left, stored, hr⟩ := h.run
      exact ih.after hr.orderly k

/-- **What an update does to the root**: nothing if it fails or returns no games; otherwise it is
one more visit with the games that are returned. -/
lemma Orderly.rootNode_updateWith (ho : t.Orderly left stored) (judge : Judge) (b : Board) :
    ((∀ games, (t.updateWith judge b).result = .ok games → games = 0) ∧
      (t.updateWith judge b).state.rootNode = t.rootNode) ∨
    ∃ games, (t.updateWith judge b).result = .ok games ∧ games ≠ 0 ∧
      (t.updateWith judge b).state.rootNode.visits = t.rootNode.visits + 1 ∧
      (t.updateWith judge b).state.rootNode.games = t.rootNode.games + games := by
  obtain ⟨-, hagrees⟩ := ho.sweep
  have hroot : t.sweep.2.rootNode = t.rootNode := by
    rw [rootNode, sweep_root]
    exact hagrees.node t.root .refl
  rcases updateWith_cases judge t b with ⟨-, hzero, rng, hstate⟩ | ⟨v, g, -, hsome, hok, hg, -⟩
  · refine .inl ⟨hzero, ?_⟩
    rw [hstate]
    exact hroot
  · obtain ⟨ids, ht⟩ := ho.taught_updateWith hsome
    have hwalk := t.fromRoot_walk b
    have hmem : t.sweep.2.root ∈ (t.walk b).path := List.mem_of_getLast? hwalk.top
    refine .inr ⟨g, hok, hg, ?_⟩
    rw [← hroot, rootNode, ht.root, rootNode]
    rcases List.mem_cons.mp hmem with heq | habove
    · rw [heq, ht.leaf]
      exact ⟨rfl, rfl⟩
    · rw [ht.above _ habove]
      exact ⟨rfl, rfl⟩

/-- **The games behind the root grow by what an update returns.** -/
lemma Orderly.games_updateWith (ho : t.Orderly left stored) (judge : Judge) (b : Board) :
    (t.updateWith judge b).state.games = t.games + match (t.updateWith judge b).result with
      | .ok games => games
      | .error _ => 0 := by
  rcases ho.rootNode_updateWith judge b with ⟨hzero, hroot⟩ | ⟨games, hok, -, -, hgames⟩
  · have hnone : (match (t.updateWith judge b).result with
        | .ok games => games
        | .error _ => 0) = 0 := by
      cases hresult : (t.updateWith judge b).result with
      | ok games => exact hzero games hresult
      | error e => rfl
    rw [hnone]
    exact congrArg Node.games hroot
  · rw [hok]
    exact hgames

/-- **The statistics of a tree are an exact account of its updates**, in any run of calls with any
boards, any judges and any pruning. For every node of the tree, and the credited updates whose walk
passed through it since it was stored: its visits are their number, its games are those that they
returned, and its score is the sum of their values from zero in that order, each negated unless the
node's colour is the one that the search adds up for. Its visits are the updates that ended there
and the visits of its children together; and if it has children, an update had ended there. An
update is credited exactly if it returns a number of games other than zero, and the games behind the
root grow by just the number that is returned. -/
theorem statistics_exact (h : Kept t ledger) :
    (∀ i, t.arena.Below t.root i →
      (t.node i).visits = (ledger i).length ∧
      (t.node i).games = ((ledger i).map Visit.games).sum ∧
      (t.node i).score = (ledger i).foldl
        (fun score v => score + if (t.node i).color = t.side then v.value else -v.value) 0 ∧
      (t.node i).visits = (ledger i).countP (·.ended) +
        ((t.node i).children.map fun j => (t.node j).visits).sum ∧
      ((t.node i).children ≠ [] → ∃ v ∈ ledger i, v.ended = true)) ∧
    ∀ judge b,
      (∀ games, (∃ value, t.outcome? judge b = some (value, games)) ↔
        (t.updateWith judge b).result = .ok games ∧ games ≠ 0) ∧
      (t.updateWith judge b).state.games = t.games + match (t.updateWith judge b).result with
        | .ok games => games
        | .error _ => 0 := by
  obtain ⟨left, stored, hr⟩ := h.run
  have ho := hr.orderly
  refine ⟨fun i hi => ?_, fun judge b => ⟨fun games => ?_, ho.games_updateWith judge b⟩⟩
  · obtain ⟨⟨hvisits, hgames, hscore⟩, hsplit, hended⟩ := h.accounts i hi
    have hchildren : ∀ j ∈ (t.node i).children, (t.node j).visits = (ledger j).length := fun j hj =>
      (h.accounts j (hi.tail hj)).sums.visits
    refine ⟨hvisits, hgames, hscore, ?_, hended⟩
    rw [hvisits, hsplit, List.map_congr_left hchildren]
  · rcases updateWith_cases judge t b with ⟨hnone, hzero, -⟩ | ⟨v, g, -, hsome, hok, hg, -⟩
    · rw [hnone]
      exact ⟨nofun, fun ⟨hok, hne⟩ => absurd (hzero games hok) hne⟩
    · rw [hsome, hok]
      constructor
      · rintro ⟨value, heq⟩
        obtain ⟨-, rfl⟩ := Prod.mk.inj (Option.some.inj heq)
        exact ⟨rfl, hg⟩
      · rintro ⟨heq, -⟩
        exact ⟨v, by rw [Except.ok.inj heq]⟩

/-- A judge who finds every position even. -/
def Judge.even : Judge := fun _ _ _ => (.ok 0, [])

/-- A judge who finds every position won. -/
def Judge.won : Judge := fun _ _ _ => (.ok 1, [])

/-- A new game after one update, which stored the move to the middle. -/
def sprouted : Tree :=
  (fresh (some .black) { threshold := 1 }).after (.judged Judge.even Board.empty)

/-- The root of that game has one child. The update ended on the root, and none has gone on. -/
lemma sprouted_spec : ∃ ledger id, Kept sprouted ledger ∧ sprouted.side = some .black ∧
    sprouted.config = { threshold := 1 } ∧ sprouted.rootNode.color = none ∧
    sprouted.rootNode.children = [id] ∧
    sprouted.node id = Node.reply sprouted.root .black Cell.center ∧
    ledger sprouted.root = [⟨0, 1, true⟩] ∧ ledger id = [] := by
  have hstart : Kept (fresh (some .black) { threshold := 1 }) fun _ => [] :=
    .start Board.empty (some .black) { threshold := 1 } (Xoshiro.ofSeed 0)
  have hstate : sprouted =
      ((fresh (some .black) { threshold := 1 }).updateWith Judge.even Board.empty).state := by
    rw [sprouted, Tree.after]
  obtain ⟨left, stored, hrun⟩ := hstart.run
  have ho := hrun.orderly
  have heven : ∀ base, ∃ value, (Judge.even Board.empty none base).1 = .ok value := fun _ =>
    ⟨0, rfl⟩
  have hbare : (fresh (some .black) { threshold := 1 }).rootNode.children = [] := rfl
  obtain ⟨hroot, hcolor, hchildren⟩ := ho.children_updateWith_of_bare hbare rfl heven (by decide)
  rw [replies, Board.shortlist_empty, List.map_singleton, ← hstate] at hchildren
  rw [← hstate] at hroot hcolor
  obtain ⟨id, hid, hnode⟩ := List.map_eq_singleton_iff.mp hchildren
  have hwalk := ho.walk_of_bare hbare Board.empty
  have hcredit : (fresh (some .black) { threshold := 1 }).outcome? Judge.even Board.empty =
      some (0, 1) := by
    rw [outcome?, hwalk]
    rfl
  obtain ⟨ids, ht, hnote⟩ := ho.exists_recordUpdate hcredit fun _ => []
  have hborn : id ∈ ids := by
    rw [← ht.newborn_eq, newborn, hwalk, ho.node_sweep, if_pos hbare, ← hstate]
    dsimp only
    rw [← hroot, ← rootNode, hid]
    exact List.mem_singleton_self id
  refine ⟨_, id, hstart.call (.judged Judge.even Board.empty), ?_, ?_, hcolor, hid, ?_, ?_, ?_⟩
  · rw [hstate, ht.side, sweep_side]
    rfl
  · rw [hstate, ht.config, sweep_config]
    rfl
  · rw [hnode, hroot]
    rfl
  · rw [record, hnote, hroot, Arrival.note_path (ht.old _ (by rw [sweep_root]; exact .refl)),
      hwalk]
    · rfl
    · rw [hwalk]
      exact List.mem_cons_self
  · rw [record, hnote, Arrival.note_new hborn]

/-- The same game after a second update, which went on to that move. -/
def grown : Tree := sprouted.after (.judged Judge.won Board.empty)

/-- Both updates have passed through the root of that game, and the second one ended on its child. -/
lemma grown_spec : ∃ ledger id, Kept grown ledger ∧ grown.side = some .black ∧
    grown.rootNode.color = none ∧ grown.rootNode.children = [id] ∧
    (grown.node id).color = some .black ∧ ledger grown.root = [⟨0, 1, true⟩, ⟨1, 1, false⟩] ∧
    ledger id = [⟨1, 1, true⟩] := by
  obtain ⟨ledger, id, hkept, hside, hconfig, hcolor, hchildren, hchild, hfirst, hnone⟩ :=
    sprouted_spec
  have hstate : (sprouted.updateWith Judge.won Board.empty).state = grown := by
    rw [grown, Tree.after]
  have hnext : Kept grown _ := hkept.call (.judged Judge.won Board.empty)
  generalize grown = t' at *
  generalize sprouted = t at *
  obtain ⟨left, stored, hrun⟩ := hkept.run
  have ho := hrun.orderly
  have haccepts : Board.empty.accepts Cell.center = true := by decide
  obtain ⟨rng, hwalk⟩ := ho.walk_of_only hchildren hchild haccepts
  have hcredit : t.outcome? Judge.won Board.empty = some (1, 1) := by
    have hrun : (Board.empty.place Cell.center .black).isOver = false := by decide +kernel
    rw [outcome?, hwalk, hconfig]
    dsimp only
    rw [hrun]
    rfl
  obtain ⟨ids, ht, hnote⟩ := ho.exists_recordUpdate hcredit ledger
  rw [hstate, hwalk] at ht
  rw [hwalk] at hnote
  have hbelow := ho.sweep.2.below_iff.mpr (below_of_only hchildren)
  have hrootOld : t.root ∉ ids := ht.old _ (ho.sweep.2.below_iff.mpr .refl)
  have hchildOld : id ∉ ids := ht.old _ hbelow
  have hne : t.root ≠ id := fun heq => by
    rw [← heq, ← rootNode] at hchild
    rw [hchild] at hcolor
    cases hcolor
  have hroot : t'.root = t.root := by rw [ht.root, sweep_root]
  have hgrown : t'.rootNode = t.rootNode.credit (some .black) 1 1 := by
    rw [rootNode, hroot, ht.above t.root List.mem_cons_self, ho.node_sweep, sweep_side, hside]
  have hmove : (t'.node id).move = (t.node id).move := by
    rw [ht.move_eq hbelow, ho.sweep.2.node id (below_of_only hchildren)]
  refine ⟨_, id, hnext, ?_, ?_, ?_, ?_, ?_, ?_⟩
  · rw [ht.side, sweep_side, hside]
  · rw [hgrown, Node.color_credit, hcolor]
  · rw [hgrown, Node.children_credit, hchildren]
  · rw [(Prod.mk.inj hmove).2, hchild]
    rfl
  · rw [record, hnote, hroot, Arrival.note_path hrootOld, hfirst, decide_eq_false hne]
    · rfl
    · exact List.mem_cons_of_mem id (List.mem_singleton_self t.root)
  · rw [record, hnote, Arrival.note_path hchildOld List.mem_cons_self, hnone, decide_eq_true rfl]
    rfl

/-- The root counts both updates, with their values negated since it is no move of black's; the child
counts the second one only, as it is. -/
theorem statistics_exact_grown :
    ∃ ledger id, Kept grown ledger ∧ grown.rootNode.children = [id] ∧
      ledger grown.root = [⟨0, 1, true⟩, ⟨1, 1, false⟩] ∧ ledger id = [⟨1, 1, true⟩] ∧
      (grown.rootNode.visits = 2 ∧ grown.rootNode.games = 2 ∧
        grown.rootNode.score = 0 + -0 + -1) ∧
      (grown.node id).visits = 1 ∧ (grown.node id).games = 1 ∧ (grown.node id).score = 0 + 1 := by
  obtain ⟨ledger, id, hkept, hside, hcolor, hchildren, hcolor', hroot, hchild⟩ := grown_spec
  obtain ⟨hvisits, hgames, hscore, -⟩ := (statistics_exact hkept).1 grown.root .refl
  obtain ⟨hvisits', hgames', hscore', -⟩ :=
    (statistics_exact hkept).1 id (below_of_only hchildren)
  rw [hroot, ← rootNode] at hvisits hgames hscore
  rw [hchild] at hvisits' hgames' hscore'
  rw [hcolor, hside] at hscore
  rw [hcolor', hside] at hscore'
  exact ⟨ledger, id, hkept, hchildren, hroot, hchild, ⟨hvisits, hgames, hscore⟩, hvisits', hgames',
    hscore'⟩

end Tree

end FiveInRow
