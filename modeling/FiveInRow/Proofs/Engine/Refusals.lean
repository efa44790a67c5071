import Mathlib.Tactic
import FiveInRow.Proofs.Engine.InStep
import FiveInRow.Proofs.Search.Update

/-!
Calls that fail or are refused. Each kind of failure has its own condition, at most one of them
holds, and whatever is not accepted leaves everything as it was: the board, the engine with its
board and its tree, and the part of a search tree that hangs on the root.

* `Board.Declines`, `Board.MoveLaw`, `Board.moveLaw`: what asking a board for a move comes to;
* `Engine.PlayLaw`, `Engine.Reachable.playLaw`: the same for an engine, whose board and tree move
  together or not at all;
* `Tree.updateWith_eq_error_iff`: when an update fails;
* `Tree.SameTree`, `Tree.Orderly.sameTree_updateWith`: an update that fails has only swept;
* `refusals_exact`: all boards, engines and trees that calls lead to.
-/

namespace FiveInRow

namespace Cell

variable {x y : ℤ} {c : Cell}

lemma ofCoordinates_eq_ok_iff : ofCoordinates x y = .ok c ↔ at? x y = some c := by
  rw [ofCoordinates]
  cases at? x y with
  | none => simp
  | some d => simp

lemma ofCoordinates_of_not_onBoard (h : ¬ OnBoard x y) :
    ofCoordinates x y = .error (.offBoard x y) := by
  rw [ofCoordinates, Option.not_isSome_iff_eq_none.mp fun hc => h ((at?_isSome_iff x y).mp hc)]

lemma exists_at?_of_onBoard (h : OnBoard x y) : ∃ c, at? x y = some c :=
  Option.isSome_iff_exists.mp ((at?_isSome_iff x y).mpr h)

end Cell

/-! ### Boards -/

namespace Board

variable {b : Board} {x y : ℤ} {color : Option Color}

/-- The rules refuse a move: the game is over, or there is a stone already. -/
def Declines (b : Board) (x y : ℤ) : Prop :=
  b.isOver = true ∨ ∃ c, Cell.at? x y = some c ∧ (b.get c).isSome = true

/-- What asking a board for a move comes to: one of two errors, a refusal, or a move. Only a move
changes the board, and then it is the one more move of the history. -/
structure MoveLaw (b : Board) (x y : ℤ) (color : Option Color) : Prop where
  offBoard : ∀ x' y', b.move x y color = .error (.offBoard x' y') ↔
    ¬ OnBoard x y ∧ x' = x ∧ y' = y
  noColor : b.move x y color = .error .noColor ↔ OnBoard x y ∧ color = none
  refused : (∃ b', b.move x y color = .ok (false, b')) ↔
    OnBoard x y ∧ color ≠ none ∧ b.Declines x y
  accepted : (∃ b', b.move x y color = .ok (true, b')) ↔
    OnBoard x y ∧ color ≠ none ∧ ¬ b.Declines x y
  unchanged : (∀ b', b.move x y color ≠ .ok (true, b')) →
    b.after (.move x y color) = b ∧ ∀ b', b.move x y color = .ok (false, b') → b' = b
  grown : ∀ b', b.move x y color = .ok (true, b') → b.after (.move x y color) = b' ∧
    ∃ c side, Cell.at? x y = some c ∧ color = some side ∧
      b'.history = b.history ++ [⟨c, side⟩]

lemma accepts_iff_not_declines {c : Cell} (hc : Cell.at? x y = some c) :
    b.accepts c = true ↔ ¬ b.Declines x y := by
  rw [Declines, accepts_iff, ← isOver_eq_false_iff, not_or, Bool.not_eq_true]
  refine and_congr_right fun _ => ?_
  rw [hc]
  constructor
  · rintro hfree ⟨d, hd, hsome⟩
    obtain rfl := Option.some.inj hd
    rw [hfree] at hsome
    cases hsome
  · intro hnone
    exact Option.not_isSome_iff_eq_none.mp fun hsome => hnone ⟨c, rfl, hsome⟩

lemma move_offBoard (b : Board) (h : ¬ OnBoard x y) (color : Option Color) :
    b.move x y color = .error (.offBoard x y) := by
  rw [move, Cell.ofCoordinates_of_not_onBoard h]

lemma move_noColor (b : Board) (h : OnBoard x y) : b.move x y none = .error .noColor := by
  obtain ⟨c, hc⟩ := Cell.exists_at?_of_onBoard h
  rw [move, Cell.ofCoordinates_eq_ok_iff.mpr hc]
  rfl

lemma move_some {c : Cell} (b : Board) (hc : Cell.at? x y = some c) (side : Color) :
    b.move x y (some side) = .ok (if b.accepts c then (true, b.place c side) else (false, b)) := by
  rw [move, Cell.ofCoordinates_eq_ok_iff.mpr hc]
  rfl

/-- **What asking a board for a move comes to.** -/
lemma moveLaw (b : Board) (x y : ℤ) (color : Option Color) : b.MoveLaw x y color := by
  by_cases hxy : OnBoard x y
  · obtain ⟨c, hc⟩ := Cell.exists_at?_of_onBoard hxy
    cases color with
    | none =>
        have hmove := b.move_noColor hxy
        have hafter : b.after (.move x y none) = b := by rw [after, hmove]
        constructor <;> simp [hmove, hxy, hafter]
    | some side =>
        have hmove := b.move_some hc side
        have haccepts := accepts_iff_not_declines (b := b) hc
        by_cases ha : b.accepts c = true
        · rw [if_pos ha] at hmove
          have hdeclines := haccepts.mp ha
          have hafter : b.after (.move x y (some side)) = b.place c side := by rw [after, hmove]
          constructor <;> simp [hmove, hxy, hdeclines, hafter, hc, history_place]
        · rw [if_neg ha] at hmove
          have hdeclines := not_not.mp (mt haccepts.mpr ha)
          have hafter : b.after (.move x y (some side)) = b := by rw [after, hmove]
          constructor <;> simp [hmove, hxy, hdeclines, hafter]
  · have hmove := b.move_offBoard hxy color
    have hafter : b.after (.move x y color) = b := by rw [after, hmove]
    constructor <;> simp [hmove, hxy, hafter, eq_comm]

end Board

/-! ### Engines -/

namespace Engine

variable {e : Engine} {x y : ℤ}

/-- What playing on an engine comes to. It fails as the board fails, and what it does not accept
changes nothing. An accepted move is the board's and the tree's, which does not fail either, and
the root is that move. -/
structure PlayLaw (e : Engine) (x y : ℤ) : Prop where
  failed : ∀ err, (e.play x y).result = .error err ↔
    ∃ err', e.board.move x y (some e.board.sideToMove) = .error err' ∧ err = .move err'
  answered : ∀ flag, (e.play x y).result = .ok flag ↔
    ∃ b, e.board.move x y (some e.board.sideToMove) = .ok (flag, b)
  unchanged : (e.play x y).result ≠ .ok true → (e.play x y).state = e
  advanced : (e.play x y).result = .ok true → ∃ c board tree events,
    Cell.at? x y = some c ∧
    (e.play x y).state = { e with board, tree } ∧
    e.board.move x y (some e.board.sideToMove) = .ok (true, board) ∧
    board.history = e.board.history ++ [⟨c, e.board.sideToMove⟩] ∧
    e.tree.advanceTo x y = ⟨tree, .ok (), events⟩ ∧
    tree.rootNode.cell = some c ∧ tree.rootNode.color = some e.board.sideToMove

/-- An accepted move moves the board and the tree. -/
lemma play_accepted {c : Cell} (hc : Cell.at? x y = some c) (ha : e.board.accepts c = true) :
    (e.play x y).result = .ok true ∧ (e.play x y).state =
      { e with
        board := e.board.place c e.board.sideToMove
        tree := (e.tree.advance c).state } := by
  rw [play, Cell.ofCoordinates_eq_ok_iff.mpr hc]
  dsimp only
  rw [playCell, if_pos ha]
  exact ⟨rfl, rfl⟩

lemma play_refused {c : Cell} (hc : Cell.at? x y = some c) (ha : e.board.accepts c ≠ true) :
    (e.play x y).result = .ok false ∧ (e.play x y).state = e := by
  rw [play, Cell.ofCoordinates_eq_ok_iff.mpr hc]
  dsimp only
  rw [playCell, if_neg ha]
  exact ⟨rfl, rfl⟩

lemma play_offBoard (e : Engine) (h : ¬ OnBoard x y) :
    e.play x y = Reply.quiet e (.error (.move (.offBoard x y))) := by
  rw [play, Cell.ofCoordinates_of_not_onBoard h]

/-- **What playing on an engine comes to**, on every engine that calls lead to. -/
lemma Reachable.playLaw (h : Reachable e) (x y : ℤ) : e.PlayLaw x y := by
  by_cases hxy : OnBoard x y
  · obtain ⟨c, hc⟩ := Cell.exists_at?_of_onBoard hxy
    have hmove := e.board.move_some hc e.board.sideToMove
    by_cases ha : e.board.accepts c = true
    · obtain ⟨hresult, hstate⟩ := play_accepted hc ha
      rw [if_pos ha] at hmove
      obtain ⟨pos, hf⟩ := (h.call (.play x y)).inStep.follows
      have hcell := hf.cell
      have hcolor := hf.color
      rw [after, hstate, Board.last?_place] at hcell hcolor
      have htree : e.tree.advanceTo x y =
          ⟨(e.tree.advance c).state, .ok (), (e.tree.advance c).events⟩ := by
        rw [Tree.advanceTo, Cell.ofCoordinates_eq_ok_iff.mpr hc]
      refine ⟨?_, ?_, fun hne => absurd hresult hne, fun _ => ⟨c, _, _, _, hc, hstate, hmove,
        Board.history_place _ _ _, htree, hcell, hcolor⟩⟩
      · simp [hresult, hmove]
      · simp [hresult, hmove, eq_comm]
    · obtain ⟨hresult, hstate⟩ := play_refused hc ha
      rw [if_neg ha] at hmove
      constructor <;> simp [hresult, hmove, hstate, eq_comm]
  · have hplay := e.play_offBoard hxy
    have hmove := e.board.move_offBoard hxy (some e.board.sideToMove)
    constructor <;> simp [hplay, Reply.quiet, hmove, eq_comm]

end Engine

/-! ### Trees -/

namespace Tree

variable {t t' : Tree} {left : List NodeId} {stored : ℕ} {x y : ℤ}

/-- Two trees have the same root, and the same nodes below it, with the same statistics, flags and
children. -/
structure SameTree (t' t : Tree) : Prop where
  root : t'.root = t.root
  side : t'.side = t.side
  config : t'.config = t.config
  below : ∀ i, t'.arena.Below t'.root i ↔ t.arena.Below t.root i
  node : ∀ i, t.arena.Below t.root i → t'.node i = t.node i

/-- **An update fails exactly if its judge does**, which is only asked about running games. -/
lemma updateWith_eq_error_iff (judge : Judge) (t : Tree) (b : Board) (err : SearchError) :
    (t.updateWith judge b).result = .error err ↔
      b.isOver = false ∧ (t.walk b).board.isOver = false ∧
        (judge (t.walk b).board (t.sweep.2.node (t.walk b).leaf).color
          (WordSource.next (t.walk b).rng).1).1 = .error err := by
  rw [updateWith, walk]
  generalize t.sweep.2 = s
  dsimp only
  generalize s.descend b s.root [] s.rng = a
  cases b.isOver with
  | true => simp [Reply.quiet]
  | false =>
      cases a.board.isOver with
      | true => simp
      | false =>
          rcases judge a.board (s.node a.leaf).color (WordSource.next a.rng).1 with ⟨_ | _, events⟩
          · simp
          · simp

/-- **An update that fails** has swept what was left behind and has drawn words, and nothing else:
the walk is not credited, and its leaf is neither marked nor given children. -/
lemma Orderly.sameTree_updateWith (h : t.Orderly left stored) {judge : Judge} {b : Board}
    {err : SearchError} (herr : (t.updateWith judge b).result = .error err) :
    SameTree (t.updateWith judge b).state t := by
  obtain ⟨-, hswept⟩ := h.sweep
  obtain ⟨-, -, rng, hstate⟩ | ⟨value, games, rng, -, hresult, -⟩ := updateWith_cases judge t b
  · rw [hstate]
    exact ⟨hswept.root, hswept.side, hswept.config, fun i => hswept.below_iff, hswept.node⟩
  · rw [hresult] at herr
    cases herr

lemma advanceTo_offBoard (t : Tree) (h : ¬ OnBoard x y) :
    t.advanceTo x y = Reply.quiet t (.error (.move (.offBoard x y))) := by
  rw [advanceTo, Cell.ofCoordinates_of_not_onBoard h]

lemma advanceTo_onBoard (t : Tree) (h : OnBoard x y) : (t.advanceTo x y).result = .ok () := by
  obtain ⟨c, hc⟩ := Cell.exists_at?_of_onBoard h
  rw [advanceTo, Cell.ofCoordinates_eq_ok_iff.mpr hc]

end Tree

/-- **Failures and refusals are exact and change nothing.** On every board that calls lead to, any
coordinates and any colour, asking for a move fails for coordinates off the board, else without a
colour, else it is refused in a finished game or on a stone, and only what is left is a move, the
one more of the history. On every engine playing fails or is refused just as on its board, and then
nothing changes; otherwise the board and the tree make the same move, and nothing can fail once the
board has moved. On every search tree moving the root fails off the board only, and leaves the tree
alone; and so does an update that fails, whatever board it was given and whoever judges the
position that its walk arrives at: the root and all nodes below it stay as they were. -/
theorem refusals_exact :
    (∀ b : Board, b.Reachable → ∀ x y color, b.MoveLaw x y color) ∧
    (∀ e : Engine, e.Reachable → ∀ x y, e.PlayLaw x y) ∧
    ∀ t left stored, Tree.Run t left stored →
      (∀ x y, (∃ err, (t.advanceTo x y).result = .error err) ↔ ¬ OnBoard x y) ∧
      (∀ x y err, (t.advanceTo x y).result = .error err → err = .move (.offBoard x y) ∧
        (t.advanceTo x y).state = t) ∧
      ∀ judge b err, (t.updateWith judge b).result = .error err →
        (t.updateWith judge b).state.rootNode = t.rootNode ∧
          Tree.SameTree (t.updateWith judge b).state t := by
  refine ⟨fun b _ => b.moveLaw, fun e he => he.playLaw, fun t left stored hrun => ⟨fun x y => ?_,
    fun x y err herr => ?_, fun judge b err herr => ?_⟩⟩
  · by_cases hxy : OnBoard x y
    · simp [t.advanceTo_onBoard hxy, hxy]
    · simp [t.advanceTo_offBoard hxy, hxy, Reply.quiet]
  · by_cases hxy : OnBoard x y
    · rw [t.advanceTo_onBoard hxy] at herr
      cases herr
    · rw [t.advanceTo_offBoard hxy] at herr ⊢
      exact ⟨(Except.error.inj herr).symm, rfl⟩
  · have hsame := hrun.orderly.sameTree_updateWith herr
    refine ⟨?_, hsame⟩
    rw [Tree.rootNode, hsame.root]
    exact hsame.node t.root .refl

/-- A judge whose second worker fails. -/
def Tree.failing : Tree.Judge := fun _ _ _ => (.error (.workerFailed 1), [])

/-- After two moves a stone on the first one is refused, a stone beside the board is an error, and
an update that fails leaves the root of a new tree alone. -/
theorem refusals_exact_opening :
    ∃ e, e = Engine.opening.foldl Engine.after (Engine.new (some .white) {}) ∧
      (e.play 9 9).result = .ok false ∧ (e.play 9 9).state = e ∧
      (e.play 19 0).result = .error (.move (.offBoard 19 0)) ∧ (e.play 19 0).state = e ∧
      ((Tree.fresh none {}).updateWith Tree.failing Board.empty).result =
        .error (.workerFailed 1) ∧
      ((Tree.fresh none {}).updateWith Tree.failing Board.empty).state.rootNode = Node.blank := by
  obtain ⟨hboards, hengines, htrees⟩ := refusals_exact
  have hr : (Engine.opening.foldl Engine.after (Engine.new (some .white) {})).Reachable :=
    (Engine.Reachable.new (some .white) {}).calls _
  have hrun : Tree.Run (Tree.fresh none {}) [] 1 :=
    .start Board.empty none {} (Xoshiro.ofSeed 0)
  have hoccupied : ((Engine.opening.foldl Engine.after (Engine.new (some .white) {})).play
      9 9).result = .ok false := by decide +kernel
  have hbeside := fun color =>
    ((hboards _ hr.inStep.played.reachable 19 0 color).offBoard 19 0).mpr ⟨by decide, rfl, rfl⟩
  have hfails : ((Tree.fresh none {}).updateWith Tree.failing Board.empty).result =
      .error (.workerFailed 1) := by
    rw [Tree.updateWith_eq_error_iff, hrun.orderly.walk_of_bare rfl]
    exact ⟨rfl, rfl, rfl⟩
  have herror := ((hengines _ hr 19 0).failed (.move (.offBoard 19 0))).mpr
    ⟨_, hbeside _, rfl⟩
  have hroot := ((htrees _ _ _ hrun).2.2 Tree.failing Board.empty _ hfails).1
  refine ⟨_, rfl, hoccupied, (hengines _ hr 9 9).unchanged (by rw [hoccupied]; nofun), herror,
    (hengines _ hr 19 0).unchanged (by rw [herror]; nofun), hfails, ?_⟩
  rw [hroot]
  rfl

end FiveInRow
