import Mathlib.Tactic
import FiveInRow.Proofs.Board.Canonical
import FiveInRow.Proofs.Game.Turns

/-!
Taking back returns to the human player's last decision. Every undo replays the moves that are left
and begins a new tree, so where several of them lead depends on the moves that are left only, and
how many are taken back can be read off the game.

* `Board.acceptsAll_append_iff`: the moves of a part of a game are accepted, and so is the next one;
* `Engine.backTo`: the engine at the end of a game, before any thought;
* `Game.StopsAt`, `Game.stopsAt_undoUntil`: how far the loop of undoing goes, by induction on the
  game;
* `Game.IsReturn`: the game that taking back has to return to;
* `Game.IsReturn.of_answered`: a move and the engine's answer to it are taken back together;
* `Game.undo_exact`: what taking back does to every game.
-/

namespace FiveInRow

namespace Board

variable {b : Board}

/-- Moves are accepted if a part of them is, and then the rest. -/
lemma acceptsAll_append_iff {moves more : List Move} :
    b.acceptsAll (moves ++ more) = true ↔
      b.acceptsAll moves = true ∧ (b.playAll moves).acceptsAll more = true := by
  induction moves generalizing b with
  | nil => exact ⟨fun h => ⟨rfl, h⟩, And.right⟩
  | cons m moves ih =>
      rw [List.cons_append, acceptsAll_cons_iff, acceptsAll_cons_iff, and_assoc]
      refine and_congr_right fun ha => ?_
      rw [ih, playAll_cons ha]

/-- A proper part of a game is a game that is still running. -/
lemma Played.running_of_prefix (h : Played b) {part : List Move} (hpart : part <+: b.history)
    (hne : part ≠ b.history) :
    empty.acceptsAll part = true ∧ (replay part).history = part ∧
      (replay part).status = .inProgress := by
  obtain ⟨more, hmore⟩ := hpart
  have hall := h.acceptsAll_history
  rw [← hmore, acceptsAll_append_iff] at hall
  refine ⟨hall.1, history_playAll hall.1, ?_⟩
  cases more with
  | nil => exact absurd (hmore ▸ (List.append_nil part).symm) hne
  | cons m more => exact (accepts_iff.mp (acceptsAll_cons_iff.mp hall.2).1).1

/-- A board with no history is new. -/
lemma Played.eq_empty (h : Played b) (hnil : b.history = []) : b = empty := by
  rw [← h.replay_history, hnil]
  rfl

end Board

namespace Engine

variable {e : Engine}

/-- The engine at the end of a game, with a new tree. -/
def backTo (e : Engine) (game : List Move) : Engine :=
  { e with board := Board.replay game }.rebuild

/-- The root knows the last move of the game and nothing else. -/
lemma rootNode_backTo (e : Engine) (game : List Move) :
    (e.backTo game).tree.rootNode =
      { cell := (Board.replay game).last?.map (·.cell),
        color := (Board.replay game).last?.map (·.color) } :=
  (Tree.asNew_ofBoard (Board.replay game) e.side e.config).root.trans (Tree.rootOf_eq _)

/-- An undo leads to the end of the game without its last move. -/
lemma undo_place {b : Board} (h : b.Played) {c : Cell} {color : Color}
    (he : e.board = b.place c color) :
    e.undo.result = true ∧ e.undo.state = e.backTo b.history := by
  rw [undo, he, h.undo?_place, backTo, h.replay_history]
  exact ⟨rfl, rfl⟩

/-- Nothing of a new game can be taken back. -/
lemma undo_empty (he : e.board = Board.empty) : e.undo.result = false ∧ e.undo.state = e := by
  rw [undo, he]
  exact ⟨rfl, rfl⟩

end Engine

namespace Game

variable {g : Game}

/-- `human` is to move at the end of a game. -/
def IsToMove (human : Option Color) (game : List Move) : Prop :=
  some (Board.replay game).sideToMove = human

instance (human : Option Color) (game : List Move) : Decidable (IsToMove human game) :=
  inferInstanceAs (Decidable (_ = _))

/-- Where the loop of undoing stops in a game: at the end of the longest part of it after which
`human` is to move, or at its beginning. -/
structure StopsAt (human : Option Color) (game kept : List Move) : Prop where
  isPrefix : kept <+: game
  toMove : kept = [] ∨ IsToMove human kept
  longest : ∀ part, part <+: game → IsToMove human part → part <+: kept

/-- The game that taking back has to return to. For two players it lacks the last move; against the
engine it is the longest proper part after which the human player is to move, or the new game. -/
def IsReturn (mode : Mode) (game kept : List Move) : Prop :=
  match mode with
  | .twoPlayers _ => kept = game.dropLast
  | .versusEngine human =>
    (kept <+: game ∧ kept ≠ game) ∧ (kept = [] ∨ IsToMove human kept) ∧
      ∀ part, part <+: game → part ≠ game → IsToMove human part → part <+: kept

/-- **The loop of undoing** goes back to where the human player is to move. -/
lemma stopsAt_undoUntil {b : Board} (h : b.Played) (e : Engine) (human : Option Color)
    (events : List Event) {bound : ℕ} (hbound : b.moves.length ≤ bound) :
    ∃ kept, StopsAt human b.history kept ∧
      (undoUntil human (e.backTo b.history) events bound).1 = e.backTo kept := by
  induction h generalizing bound events with
  | new =>
      refine ⟨[], ⟨List.prefix_rfl, .inl rfl, fun part hpart _ => hpart⟩, ?_⟩
      cases bound with
      | zero => rfl
      | succ bound =>
          rw [undoUntil]
          dsimp only
          split_ifs with hturn hundone
          · rfl
          · rw [(Engine.undo_empty rfl).1] at hundone
            cases hundone
          · rfl
  | @place b c color hb ha ih =>
      have hlast : (e.backTo (b.place c color).history).board = b.place c color :=
        (hb.place color ha).replay_history
      rw [Board.moves_place, List.length_cons] at hbound
      obtain ⟨bound, rfl⟩ : ∃ n, bound = n + 1 := ⟨bound - 1, by omega⟩
      rw [undoUntil]
      dsimp only
      split_ifs with hturn hundone
      · exact ⟨_, ⟨List.prefix_rfl, .inr hturn, fun part hpart _ => hpart⟩, rfl⟩
      · have hrest : b.moves.length ≤ bound := by omega
        obtain ⟨kept, hstop, heq⟩ := ih _ hrest
        refine ⟨kept, ⟨?_, hstop.toMove, fun part hpart hmove => ?_⟩, ?_⟩
        · rw [Board.history_place]
          exact hstop.isPrefix.trans (List.prefix_append _ _)
        · -- the whole game is no candidate, since the human player is not to move after it
          rw [Board.history_place, List.prefix_concat_iff, ← Board.history_place] at hpart
          obtain rfl | hpart := hpart
          · exact absurd hmove hturn
          · exact hstop.longest part hpart hmove
        · rw [(Engine.undo_place hb hlast).2]
          exact heq
      · exact absurd (Engine.undo_place hb hlast).1 hundone

/-- What the loop leaves of a game without its last move is what taking back has to return to. -/
lemma StopsAt.isReturn {human : Option Color} {game kept : List Move} (h : StopsAt human game kept)
    (m : Move) : IsReturn (.versusEngine human) (game ++ [m]) kept := by
  refine ⟨⟨h.isPrefix.trans (List.prefix_append _ _), fun hwhole => ?_⟩, h.toMove,
    fun part hpart hne => h.longest part ((List.prefix_concat_iff.mp hpart).resolve_left hne)⟩
  have hle := h.isPrefix.length_le
  rw [hwhole, List.length_append, List.length_singleton] at hle
  omega

/-- Taking back returns to a proper part of the game. -/
lemma IsReturn.proper {mode : Mode} {game kept : List Move} (h : IsReturn mode game kept)
    (hne : game ≠ []) : kept <+: game ∧ kept ≠ game := by
  cases mode with
  | versusEngine human => exact h.1
  | twoPlayers analysis =>
      obtain rfl : kept = game.dropLast := h
      refine ⟨List.dropLast_prefix game, fun hwhole => ?_⟩
      have hlength := List.length_pos_of_ne_nil hne
      rw [← hwhole, List.length_dropLast] at hlength
      have := congrArg List.length hwhole
      rw [List.length_dropLast] at this
      omega

/-- A single move against the engine is always taken back. -/
lemma IsReturn.of_singleton {human : Option Color} {m : Move} {kept : List Move}
    (h : IsReturn (.versusEngine human) [m] kept) : kept = [] := by
  obtain ⟨⟨hpart, hne⟩, -⟩ := h
  exact List.prefix_nil.mp ((List.prefix_concat_iff.mp hpart).resolve_left hne)

/-- Against the engine the human player's last move is taken back together with the answer. -/
lemma IsReturn.of_answered {human : Option Color} {game kept : List Move} {m answer : Move}
    (h : IsReturn (.versusEngine human) (game ++ [m] ++ [answer]) kept)
    (hgame : IsToMove human game) (hmoved : ¬IsToMove human (game ++ [m])) : kept = game := by
  obtain ⟨⟨hpart, hne⟩, hmove, hlongest⟩ := h
  have hkept : game <+: kept := by
    refine hlongest game ?_ ?_ hgame
    · rw [List.append_assoc]
      exact List.prefix_append _ _
    · rw [List.append_assoc]
      exact fun hsame => List.cons_ne_nil m [answer] (List.self_eq_append_right.mp hsame)
  obtain rfl | hback :=
    List.prefix_concat_iff.mp ((List.prefix_concat_iff.mp hpart).resolve_left hne)
  · -- after the human player's move the engine is to move
    exact absurd (hmove.resolve_left (List.append_ne_nil_of_right_ne_nil _ (List.cons_ne_nil m [])))
      hmoved
  · exact (hkept.eq_of_length_le hback.length_le).symm

/-- Nothing can be taken back in a new game. -/
lemma undo_of_nil (hp : g.engine.board.Played) (hnil : g.history = []) : g.after .undo = g := by
  have hundo := Engine.undo_empty (hp.eq_empty hnil)
  rw [after, undo, hundo.1, if_neg Bool.false_ne_true]

/-- **What taking back does** to a game that has begun. -/
lemma exists_undo (hp : g.engine.board.Played) (hne : g.history ≠ []) :
    ∃ kept, IsReturn g.mode g.history kept ∧
      g.after .undo =
        { g with engine := g.engine.backTo kept, message := none, thinking := {} } := by
  rw [history] at hne ⊢
  generalize hlast : g.engine.board = last at hp hne ⊢
  cases hp with
  | new => exact absurd rfl hne
  | @place b c color hb ha =>
      obtain ⟨hundone, hstate⟩ := Engine.undo_place hb hlast
      rw [after, undo, hundone, if_pos rfl, hstate, Board.history_place]
      cases g.mode with
      | twoPlayers analysis => exact ⟨b.history, List.dropLast_concat.symm, rfl⟩
      | versusEngine human =>
          have hboard : (g.engine.backTo b.history).board = b := hb.replay_history
          obtain ⟨kept, hstop, heq⟩ := stopsAt_undoUntil hb g.engine human g.engine.undo.events
            (le_refl b.stoneCount)
          refine ⟨kept, hstop.isReturn _, ?_⟩
          rw [hboard]
          dsimp only
          rw [heq]

/-- **Taking back returns exactly to the human player's last decision**, in every game. Nothing
happens to a new game. Otherwise two players take back one move, and against the engine the game
goes back to the longest proper part of it after which the human player is to move, or to its
beginning. That part is all that is left: the board is its replay, in which every move is accepted,
the game is running again, the tree is the new one of that position, whose root knows the last move
and nothing else, there is nothing to tell the player, and no thinking has been done. -/
theorem undo_exact (h : Reachable g) :
    (g.history = [] → g.after .undo = g) ∧
    (g.history ≠ [] → ∃ kept, IsReturn g.mode g.history kept ∧
      g.after .undo = { g with engine := g.engine.backTo kept, message := none, thinking := {} } ∧
      (g.after .undo).history = kept ∧
      Board.empty.acceptsAll kept = true ∧
      (g.after .undo).engine.board = Board.replay kept ∧
      (g.after .undo).engine.board.status = .inProgress ∧
      (g.after .undo).engine.tree.rootNode =
        { cell := kept.getLast?.map (·.cell), color := kept.getLast?.map (·.color) }) := by
  have hp := h.orderly.engine.inStep.played
  constructor
  · exact undo_of_nil hp
  · intro hne
    obtain ⟨kept, hreturn, hundo⟩ := exists_undo hp hne
    obtain ⟨hproper, hne'⟩ := hreturn.proper hne
    obtain ⟨hall, hhistory, hstatus⟩ := hp.running_of_prefix hproper hne'
    have hlast : (Board.replay kept).last? = kept.getLast? := by
      rw [← congrArg List.getLast? hhistory, Board.history, List.getLast?_reverse, Board.last?]
    refine ⟨kept, hreturn, hundo, ?_, hall, ?_, ?_, ?_⟩
    · rw [hundo]
      exact hhistory
    · rw [hundo]
      rfl
    · rw [hundo]
      exact hstatus
    · rw [hundo, ← hlast]
      exact g.engine.rootNode_backTo kept

/-- Two players have placed three stones. -/
def threeStones : Game :=
  (((new (.twoPlayers false) {}).after (.tryPlace ⟨180⟩)).after (.tryPlace ⟨200⟩)).after
    (.tryPlace ⟨160⟩)

/-- The engine opens in the middle, white's stone is placed next to it, and the engine answers. -/
lemma exists_threePlies : ∃ g c, Reachable g ∧ g.mode = .versusEngine (some .white) ∧
    g.history = [⟨⟨180⟩, .black⟩, ⟨⟨200⟩, .white⟩, ⟨c, .black⟩] := by
  have hstart : Reachable (new (.versusEngine (some .white)) {}) := .new _ _
  have hnew : (new (.versusEngine (some .white)) {}).history = [] := rfl
  obtain ⟨g, c, hr, hmode, hc, hadd⟩ := hstart.exists_answered rfl hnew (by decide) (by decide)
  obtain rfl : c = Cell.center := by
    rwa [show Board.replay [] = Board.empty from rfl, Board.shortlist_empty,
      List.mem_singleton] at hc
  have hopened : g.history = [⟨⟨180⟩, .black⟩] := hadd.trans (by decide)
  obtain ⟨g', hr', hmode', hadd'⟩ := hr.exists_placed (c := ⟨200⟩) hmode hopened
    (by decide +kernel) (by decide +kernel) (by decide +kernel)
  have hplaced : g'.history = [⟨⟨180⟩, .black⟩, ⟨⟨200⟩, .white⟩] :=
    hadd'.trans (by decide +kernel)
  obtain ⟨g'', c', hr'', hmode'', -, hadd''⟩ :=
    hr'.exists_answered hmode' hplaced (by decide +kernel) (by decide +kernel)
  have hturn : (Board.replay [⟨⟨180⟩, .black⟩, ⟨⟨200⟩, .white⟩]).sideToMove = .black := by
    decide +kernel
  rw [hturn] at hadd''
  exact ⟨g'', c', hr'', hmode'', hadd''⟩

/-- Two players take back the third stone, the human player takes back the opening, and against an
engine that has answered, two moves are taken back at once. -/
theorem undo_exact_threeStones :
    threeStones.history = [⟨⟨180⟩, .black⟩, ⟨⟨200⟩, .white⟩, ⟨⟨160⟩, .black⟩] ∧
      (threeStones.after .undo).history = [⟨⟨180⟩, .black⟩, ⟨⟨200⟩, .white⟩] ∧
      (threeStones.after .undo).engine.tree.rootNode =
        { cell := some ⟨200⟩, color := some .white } ∧
      opened.history = [⟨⟨180⟩, .black⟩] ∧ (opened.after .undo).history = [] ∧
      ((opened.after .undo).after .undo) = opened.after .undo ∧
      ∃ g c, Reachable g ∧ g.mode = .versusEngine (some .white) ∧
        g.history = [⟨⟨180⟩, .black⟩, ⟨⟨200⟩, .white⟩, ⟨c, .black⟩] ∧
        (g.after .undo).history = [⟨⟨180⟩, .black⟩] ∧
        (g.after .undo).engine.tree.rootNode = { cell := some ⟨180⟩, color := some .black } := by
  have hr : Reachable threeStones :=
    (((Reachable.new (.twoPlayers false) {}).call _).call _).call (.tryPlace ⟨160⟩)
  have hro : Reachable opened := (Reachable.new .usual {}).call _
  have hthree : threeStones.history = [⟨⟨180⟩, .black⟩, ⟨⟨200⟩, .white⟩, ⟨⟨160⟩, .black⟩] := by
    decide +kernel
  have hplayers : threeStones.mode = .twoPlayers false := by decide +kernel
  have hone : opened.history = [⟨⟨180⟩, .black⟩] := by decide +kernel
  have hengine : opened.mode = .usual := by decide +kernel
  obtain ⟨g, c, hrg, hmode, hplies⟩ := exists_threePlies
  obtain ⟨kept, hreturn, -, hhistory, -, -, -, hroot⟩ :=
    (undo_exact hr).2 (by rw [hthree]; exact List.cons_ne_nil _ _)
  obtain ⟨kept', hreturn', -, hhistory', -⟩ :=
    (undo_exact hro).2 (by rw [hone]; exact List.cons_ne_nil _ _)
  obtain ⟨kept'', hreturn'', -, hhistory'', -, -, -, hroot''⟩ :=
    (undo_exact hrg).2 (by rw [hplies]; exact List.cons_ne_nil _ _)
  rw [hplayers, hthree] at hreturn
  obtain rfl : kept = [⟨⟨180⟩, .black⟩, ⟨⟨200⟩, .white⟩] := hreturn
  rw [hengine, hone] at hreturn'
  obtain rfl := IsReturn.of_singleton hreturn'
  rw [hmode, hplies] at hreturn''
  have hplies' : IsReturn (.versusEngine (some .white))
      ([⟨⟨180⟩, .black⟩] ++ [⟨⟨200⟩, .white⟩] ++ [⟨c, .black⟩]) kept'' := hreturn''
  obtain rfl := hplies'.of_answered (by decide +kernel) (by decide +kernel)
  exact ⟨hthree, hhistory, hroot, hone, hhistory', (undo_exact (hro.call .undo)).1 hhistory', g, c,
    hrg, hmode, hplies, hhistory'', hroot''⟩

end Game

end FiveInRow
