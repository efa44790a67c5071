import Mathlib.Tactic
import FiveInRow.Search.Query
import FiveInRow.Proofs.Board.Outcome
import FiveInRow.Proofs.Search.Arena

/-!
A position for every node. The root stands for the board of the game, and every child for the
position after its move, which the position before accepts. Nodes that were left behind keep their
positions, so only links matter and no notion of reachable nodes is needed.

* `Arena.Continues`, `Arena.Linked`: what one link says, and a store in which every link says it;
* `Tree.Follows`: a tree that follows the game on a board;
* `Board.accepted`: whether moves are accepted one after another;
* `Arena.Linked.accepted`: the moves on every path are;
* `Tree.lineBelow_eq`, `Tree.Follows.lineFrom_eq`: the bound on lines is never reached.
-/

namespace FiveInRow

/-- The move of a node, as far as it has one. -/
def Node.move (n : Node) : Option Cell × Option Color := (n.cell, n.color)

/-- The node of a reply to the move of `parent`. -/
def Node.reply (parent : NodeId) (color : Color) (c : Cell) : Node :=
  { cell := some c, color := some color, parent := some parent }

/-- The move of an entry of a line. -/
def MoveStats.move (s : MoveStats) : Option Cell × Option Color := (some s.cell, s.color)

/-- Whether moves are accepted one after another. Without a cell there is no move. -/
def Board.accepted : Board → List (Option Cell × Option Color) → Bool
  | _, [] => true
  | _, (none, _) :: _ => false
  | b, (some c, color) :: rest => (b.attempt c color).1 && (b.attempt c color).2.accepted rest

lemma Board.accepted_cons {b : Board} {c : Cell} {color : Color} (h : b.accepts c = true)
    (rest : List (Option Cell × Option Color)) :
    b.accepted ((some c, some color) :: rest) = (b.place c color).accepted rest := by
  rw [accepted, attempt_eq, if_pos h, Bool.true_and]

namespace Arena

variable {a b : Arena} {pos : NodeId → Board} {i j : ℕ} {ids : List NodeId}

/-- Node `j` continues the game of node `i`: it knows its parent, its colour is next, and the
position of `i` accepts its move and becomes its own. -/
structure Continues (a : Arena) (pos : NodeId → Board) (i j : NodeId) : Prop where
  parent : (a.get j).parent = some i
  color : (a.get j).color = some (Color.after (a.get i).color)
  cell : ∃ c, (a.get j).cell = some c ∧ (pos i).accepts c = true ∧
    pos j = (pos i).place c (Color.after (a.get i).color)

/-- Every child continues the game of its parent. -/
def Linked (a : Arena) (pos : NodeId → Board) : Prop :=
  ∀ i j, j ∈ (a.get i).children → a.Continues pos i j

/-- Taking links away does no harm to the others. -/
lemma Linked.thins (h : a.Linked pos) (ht : Thins b a) : b.Linked pos := by
  intro i j hj
  obtain ⟨hj', hi, hcell, hcolor, hparent⟩ := ht i j hj
  obtain ⟨hp, hc, c, hcj, ha, hpos⟩ := h i j hj'
  exact ⟨by rw [hparent, hp], by rw [hcolor, hc, hi], c, by rw [hcell, hcj], ha, by rw [hi, hpos]⟩

/-- Only the positions of nodes with links matter. -/
lemma Linked.congr {pos' : NodeId → Board} (h : a.Linked pos)
    (hpos : ∀ i j, j ∈ (a.get i).children → pos' i = pos i ∧ pos' j = pos j) :
    a.Linked pos' := by
  intro i j hj
  obtain ⟨hi', hj'⟩ := hpos i j hj
  obtain ⟨hp, hc, hcell⟩ := h i j hj
  refine ⟨hp, hc, ?_⟩
  rw [hi', hj']
  exact hcell

/-- A node without children may adopt nodes that continue its game. -/
lemma Linked.adopt (h : a.Linked pos) (hleaf : (a.get i).children = [])
    (hids : ∀ j ∈ ids, a.Continues pos i j) :
    (a.modify i fun n => { n with children := ids }).Linked pos := by
  intro k j hj
  have hcont : a.Continues pos k j := by
    rcases a.get_modify_cases i (fun n => { n with children := ids }) k with hk | ⟨rfl, hk⟩
    · rw [hk] at hj
      exact h k j hj
    · rw [hk] at hj
      exact hids j hj
  obtain ⟨hp, hc, hcell⟩ := hcont
  obtain ⟨ck, hk⟩ := a.get_modify_children i ids k
  obtain ⟨cj, hj'⟩ := a.get_modify_children i ids j
  exact ⟨by rw [hj', hp], by rw [hj', hc, hk], by rw [hj', hk]; exact hcell⟩

/-- **New nodes for moves that a position accepts** stand for the positions after them. They take
slots that no link touches, so the others keep their positions. -/
lemma Linked.replies {held : List NodeId} {leaf : NodeId} {color : Color} {cells : List Cell}
    (h : a.Linked pos) (ht : Tidy a held) (hleaf : leaf ∈ held ∨ ∃ i, leaf ∈ (a.get i).children)
    (hcolor : Color.after (a.get leaf).color = color)
    (hcells : ∀ c ∈ cells, (pos leaf).accepts c = true) :
    ∃ pos', (a.allocAll (cells.map (Node.reply leaf color))).2.Linked pos' ∧
      (∀ i, i ∉ (a.allocAll (cells.map (Node.reply leaf color))).1 → pos' i = pos i) ∧
      ∀ j ∈ (a.allocAll (cells.map (Node.reply leaf color))).1,
        (a.allocAll (cells.map (Node.reply leaf color))).2.Continues pos' leaf j := by
  have hbare : ∀ n ∈ cells.map (Node.reply leaf color), n.children = [] := by
    intro n hn
    obtain ⟨c, -, rfl⟩ := List.mem_map.mp hn
    rfl
  obtain ⟨htidy, hmap, hother⟩ := ht.allocAll hbare
  have hnew := ht.not_mem_allocAll hleaf (cells.map (Node.reply leaf color))
  generalize (a.allocAll (cells.map (Node.reply leaf color))).1 = ids at *
  generalize (a.allocAll (cells.map (Node.reply leaf color))).2 = m at *
  have hreply : ∀ j ∈ ids, ∃ c ∈ cells, m.get j = Node.reply leaf color c := by
    intro j hj
    have hmem : m.get j ∈ cells.map (Node.reply leaf color) := by
      rw [← hmap]
      exact List.mem_map_of_mem hj
    obtain ⟨c, hc, hcj⟩ := List.mem_map.mp hmem
    exact ⟨c, hc, hcj.symm⟩
  have hleafless : ∀ j ∈ ids, (m.get j).children = [] := fun j hj =>
    hbare _ (by rw [← hmap]; exact List.mem_map_of_mem hj)
  let pos' : NodeId → Board := fun j =>
    if j ∈ ids then ((m.get j).cell.map fun c => (pos leaf).place c color).getD (pos j) else pos j
  have hold : ∀ j, j ∉ ids → pos' j = pos j := fun j hj => if_neg hj
  refine ⟨pos', (h.thins (thins_of_fresh htidy hleafless hother)).congr fun i j hj => ?_, hold,
    fun j hj => ?_⟩
  · have hi : i ∉ ids := by
      intro hi
      rw [hleafless i hi] at hj
      cases hj
    exact ⟨hold i hi, hold j fun hmem =>
      (htidy.of_mem_held (List.mem_append_left _ hmem)).2 i hj⟩
  · obtain ⟨c, hc, hcj⟩ := hreply j hj
    have hposj : pos' j = (pos leaf).place c color := by
      show (if j ∈ ids then _ else _) = _
      rw [if_pos hj, hcj]
      rfl
    rw [← hother leaf hnew] at hcolor
    refine ⟨by rw [hcj]; rfl, by rw [hcj, hcolor]; rfl, c, by rw [hcj]; rfl, ?_, ?_⟩
    · rw [hold leaf hnew]
      exact hcells c hc
    · rw [hposj, hold leaf hnew, hcolor]

/-- A child's position has less room than its parent's. -/
lemma Linked.room_lt (h : a.Linked pos) (hj : j ∈ (a.get i).children) :
    (pos j).room < (pos i).room := by
  obtain ⟨-, -, c, -, ha, hpos⟩ := h i j hj
  rw [hpos]
  exact Board.room_place ha _

/-- **The moves on a path are accepted one after another**, and the colours take turns. -/
lemma Linked.accepted (h : a.Linked pos)
    (hpath : (i :: ids).IsChain fun i j => j ∈ (a.get i).children) :
    (pos i).accepted (ids.map fun j => (a.get j).move) = true ∧
      (i :: ids).IsChain fun i j => (a.get j).color = some (Color.after (a.get i).color) := by
  induction ids generalizing i with
  | nil => exact ⟨rfl, .singleton i⟩
  | cons j ids ih =>
      rw [List.isChain_cons_cons] at hpath
      obtain ⟨-, hcolor, c, hc, ha, hpos⟩ := h i j hpath.1
      obtain ⟨hrest, hcolors⟩ := ih hpath.2
      refine ⟨?_, .cons_cons hcolor hcolors⟩
      rw [List.map_cons, Node.move, hc, hcolor, Board.accepted_cons ha, ← hpos]
      exact hrest

end Arena

namespace Tree

variable {t : Tree} {pos : NodeId → Board} {i j : ℕ}

/-- A tree follows the game on a board: its store is tidy, its nodes stand for positions, the root
for the board, and the root is the last move. -/
structure Follows (t : Tree) (b : Board) (pos : NodeId → Board) : Prop where
  tidy : t.arena.Tidy (t.root :: t.garbage.toList)
  linked : t.arena.Linked pos
  start : pos t.root = b
  cell : t.rootNode.cell = b.last?.map (·.cell)
  color : t.rootNode.color = b.last?.map (·.color)
  parent : t.rootNode.parent = none

/-- The nodes from below the root down to some node. -/
def IsPath (t : Tree) (ids : List NodeId) : Prop :=
  (t.root :: ids).IsChain fun i j => j ∈ (t.node i).children

/-! ### Lines -/

/-- A fold that keeps its choice or takes the next member chooses a member. -/
lemma mem_of_foldl_select {α β : Type} {f : β → α → β} (choice : β → Option α)
    (hf : ∀ best x, choice (f best x) = choice best ∨ choice (f best x) = some x) {l : List α}
    {best : β} {y : α} (hy : choice (l.foldl f best) = some y) : choice best = some y ∨ y ∈ l := by
  induction l generalizing best with
  | nil => exact .inl hy
  | cons x l ih =>
      rcases ih hy with hx | hx
      · rcases hf best x with hkeep | htake
        · exact .inl (hkeep ▸ hx)
        · rw [htake] at hx
          exact .inr (List.mem_cons.mpr (.inl (Option.some.inj hx).symm))
      · exact .inr (List.mem_cons_of_mem x hx)

/-- Where a score picks one of several nodes, it is one of them. -/
lemma mem_of_lastBest? {score : NodeId → Float32} {ids : List NodeId} {id : NodeId}
    (h : lastBest? score ids = some id) : id ∈ ids := by
  refine (mem_of_foldl_select Prod.fst (fun best x => ?_) h).resolve_left nofun
  dsimp only
  split_ifs
  · exact .inr rfl
  · exact .inl rfl

/-- The candidate with the best average is a candidate. -/
lemma mem_candidates_of_best? {s : MoveStats} (h : t.best? = some s) : s ∈ t.candidates := by
  refine (mem_of_foldl_select id (fun best x => ?_) h).resolve_left nofun
  cases best with
  | none => exact .inr rfl
  | some b =>
      dsimp only
      split_ifs
      · exact .inl rfl
      · exact .inr rfl

/-- A candidate can be played. -/
lemma Follows.accepts_of_mem_candidates {b : Board} (h : t.Follows b pos) {s : MoveStats}
    (hs : s ∈ t.candidates) : b.accepts s.cell = true := by
  obtain ⟨id, hid, hstats⟩ := List.mem_filterMap.mp hs
  obtain ⟨-, -, c, hcell, ha, -⟩ := h.linked t.root id hid
  have hcell' : (t.node id).cell = some c := hcell
  rw [stats?, hcell', Option.map_some] at hstats
  obtain rfl := Option.some.inj hstats
  rwa [h.start] at ha

/-- A line shows the moves of a path. -/
lemma exists_path_lineBelow (h : t.arena.Linked pos) (bound : ℕ) (hj : j ∈ (t.node i).children) :
    ∃ ids, (i :: ids).IsChain (fun i j => j ∈ (t.node i).children) ∧
      (t.lineBelow bound j).map MoveStats.move = ids.map fun k => (t.node k).move := by
  induction bound generalizing i j with
  | zero => exact ⟨[], .singleton i, rfl⟩
  | succ bound ih =>
      obtain ⟨-, -, c, hc, -, -⟩ := h i j hj
      have hstats : ((stats? (t.node j) 0).toList).map MoveStats.move = [(t.node j).move] := by
        have hcell : (t.node j).cell = some c := hc
        rw [stats?, hcell, Node.move, hcell]
        rfl
      rw [lineBelow, List.map_append, hstats]
      cases hnext : lastBest? (fun child => (t.node child).average) (t.node j).children with
      | none => exact ⟨[j], .cons_cons hj (.singleton j), rfl⟩
      | some next =>
          obtain ⟨ids, hpath, hline⟩ := ih (mem_of_lastBest? hnext)
          exact ⟨j :: ids, .cons_cons hj hpath, by rw [hline]; rfl⟩

/-- **The bound on lines is never reached**: every move of a line takes a cell of the board. -/
lemma lineBelow_eq (h : t.arena.Linked pos) {m n : ℕ} (hj : j ∈ (t.node i).children)
    (hm : (pos i).room ≤ m) (hn : (pos i).room ≤ n) : t.lineBelow m j = t.lineBelow n j := by
  induction m generalizing i j n with
  | zero =>
      have := h.room_lt hj
      omega
  | succ m ih =>
      have hroom := h.room_lt hj
      cases n with
      | zero => omega
      | succ n =>
          rw [lineBelow, lineBelow]
          cases hnext : lastBest? (fun child => (t.node child).average) (t.node j).children with
          | none => rfl
          | some next =>
              have hline : t.lineBelow m next = t.lineBelow n next :=
                ih (mem_of_lastBest? hnext) (by omega) (by omega)
              simp only [hline]

/-- With a larger bound the expected course of the game is the same. -/
lemma Follows.lineFrom_eq {b : Board} (h : t.Follows b pos) (hp : b.Played) {c : Cell} {id n : ℕ}
    (hid : t.childAt? c = some id) (hn : 361 ≤ n) : t.lineFrom c = t.lineBelow n id := by
  have hroom : (pos t.root).room ≤ 361 := by
    have := hp.judged.room
    rw [h.start]
    omega
  rw [lineFrom, hid]
  exact lineBelow_eq h.linked (List.mem_of_find?_eq_some hid) (by omega) (by omega)

/-- The expected course of the game is accepted move by move. -/
lemma Follows.accepted_lineFrom {b : Board} (h : t.Follows b pos) (c : Cell) :
    b.accepted ((t.lineFrom c).map MoveStats.move) = true := by
  rw [lineFrom]
  cases hid : t.childAt? c with
  | none => rfl
  | some id =>
      obtain ⟨ids, hpath, hline⟩ :=
        exists_path_lineBelow h.linked 362 (List.mem_of_find?_eq_some hid)
      rw [← h.start]
      show (pos t.root).accepted ((t.lineBelow 362 id).map MoveStats.move) = true
      rw [hline]
      exact (h.linked.accepted hpath).1

end Tree

end FiveInRow
