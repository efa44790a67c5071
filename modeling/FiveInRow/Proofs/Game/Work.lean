import Mathlib.Tactic
import FiveInRow.Proofs.Game.TakeBack
import FiveInRow.Proofs.Search.Statistics

/-!
The work that a game shows is the work that was done for the move being thought about. The shown
work is added up beside the tree, whose root counts on its own; a move keeps what the tree has
learnt about it, which is no new work.

* `Engine.seen`: the updates and games that the root of a tree has counted;
* `Engine.seen_update`, `Engine.exists_thinkOn_seen`: what thinking reports is what it adds to them,
  by induction on the updates;
* `Game.Begins`, `Game.Watched`: the calls that begin a new thought, and a run of calls with what
  the tree had seen when the thought began;
* `Game.Orderly.begins_or_goesOn`: a call begins a new thought with no work to show, or it shows
  what it adds to the tree;
* `Game.Watched.seen_eq`: the invariant: the shown work is what the tree has seen since then;
* `Game.work_exact`: the shown work in every game.
-/

namespace FiveInRow

lemma Effort.add_assoc (a b c : Effort) : (a.add b).add c = a.add (b.add c) := by
  simp only [add, Nat.add_assoc]

lemma Effort.add_zero (a : Effort) : a.add {} = a := rfl

lemma Effort.zero_add (a : Effort) : Effort.add {} a = a := by
  simp only [add, Nat.zero_add]

namespace Engine

variable {e : Engine}

/-- The updates and the games that the root of the tree has counted. -/
def seen (e : Engine) : Effort := ⟨e.tree.rootNode.visits, e.tree.games⟩

/-- An update that returns no games is not seen, and one that returns games is seen with them. -/
lemma seen_update {left : List NodeId} {stored games : ℕ} (ho : e.tree.Orderly left stored)
    (hgames : (e.tree.update e.board).result = .ok games) :
    (games = 0 → seen { e with tree := (e.tree.update e.board).state } = e.seen) ∧
      (games ≠ 0 →
        seen { e with tree := (e.tree.update e.board).state } = e.seen.add ⟨1, games⟩) := by
  rw [seen, seen, Effort.add, Tree.games, Tree.games]
  rcases ho.rootNode_updateWith e.tree.playouts e.board with
    ⟨hzero, hsame⟩ | ⟨games', hok, hne, hvisits, hroot⟩
  · refine ⟨fun _ => ?_, fun hne => absurd (hzero games hgames) hne⟩
    exact congrArg (fun n : Node => (⟨n.visits, n.games⟩ : Effort)) hsame
  · obtain rfl : games' = games := Except.ok.inj (hok.symm.trans hgames)
    exact ⟨fun hzero => absurd hzero hne, fun _ => congrArg₂ Effort.mk hvisits hroot⟩

/-- **What thinking reports is what the root counts meanwhile**: an update that returns games is one
more visit of the root, and the one that returns none ends the thought. -/
lemma exists_thinkOn_seen (done : Effort) (events : List Event) (count : ℕ)
    (h : ∃ left stored, e.tree.Orderly left stored) :
    ∃ tree effort events',
      e.thinkOn done events count = ⟨{ e with tree }, .ok (done.add effort), events'⟩ ∧
        seen { e with tree } = e.seen.add effort := by
  induction count generalizing e done events with
  | zero => exact ⟨e.tree, {}, events, rfl, rfl⟩
  | succ count ih =>
      obtain ⟨left, stored, ho⟩ := h
      obtain ⟨games, hgames⟩ := e.tree.exists_update e.board
      obtain ⟨hunseen, hstep⟩ := seen_update ho hgames
      rw [thinkOn, hgames]
      cases games with
      | zero => exact ⟨_, {}, _, rfl, hunseen rfl⟩
      | succ games =>
          obtain ⟨tree, effort, events', hthink, hseen⟩ := ih
            (e := { e with tree := (e.tree.update e.board).state }) (done.add ⟨1, games + 1⟩)
            (events ++ (e.tree.update e.board).events)
            ⟨_, _, ho.updateWith e.tree.playouts e.board⟩
          refine ⟨tree, Effort.add ⟨1, games + 1⟩ effort, events', ?_, ?_⟩
          · rw [← Effort.add_assoc]
            exact hthink
          · rw [← Effort.add_assoc, ← hstep games.succ_ne_zero]
            exact hseen

/-- A new tree has seen nothing. -/
lemma seen_backTo (e : Engine) (game : List Move) : (e.backTo game).seen = {} := by
  rw [seen, Tree.games, rootNode_backTo]

end Engine

namespace Game

variable {g : Game} {c : Cell} {base : Effort}

/-! ### Thoughts -/

/-- A call starts the game over. -/
def Call.startsOver : Call → Bool
  | .reset | .restart _ => true
  | _ => false

/-- A call begins a new thought: it starts the game over, adds a move, or takes moves back. -/
def Begins (g : Game) (k : Call) : Prop :=
  k.startsOver = true ∨ (g.after k).history ≠ g.history

instance (g : Game) (k : Call) : Decidable (g.Begins k) := inferInstanceAs (Decidable (_ ∨ _))

lemma not_begins {k : Call} (hk : k.startsOver = false) (h : (g.after k).history = g.history) :
    ¬g.Begins k := by
  rintro (hover | hne)
  · exact Bool.false_ne_true (hk.symm.trans hover)
  · exact hne h

lemma begins_of_append {k : Call} {m : Move} (h : (g.after k).history = g.history ++ [m]) :
    g.Begins k := by
  refine .inr fun heq => ?_
  rw [h] at heq
  exact List.cons_ne_nil m [] (List.append_right_eq_self.mp heq)

/-- The games that calls lead to, with what the tree had seen when the present thought began. -/
inductive Watched : Game → Effort → Prop
  | new (mode : Mode) (config : Config) : Watched (new mode config) {}
  | call {g : Game} {base : Effort} (k : Call) (h : Watched g base) :
      Watched (g.after k) (if g.Begins k then (g.after k).engine.seen else base)
  | reseed {g : Game} {base : Effort} (rng : Xoshiro) (h : Watched g base)
      (hs : g.engine.config.seed = none) :
      Watched { g with engine := { g.engine with tree := { g.engine.tree with rng } } } base

lemma Watched.reachable (h : Watched g base) : Reachable g := by
  induction h with
  | new mode config => exact .new mode config
  | call k _ ih => exact ih.call k
  | reseed rng _ hs ih => exact ih.reseed rng hs

/-- Every game can be watched. -/
lemma Reachable.exists_watched (h : Reachable g) : ∃ base, Watched g base := by
  induction h with
  | new mode config => exact ⟨_, .new mode config⟩
  | call k _ ih =>
      obtain ⟨base, hw⟩ := ih
      exact ⟨_, hw.call k⟩
  | reseed rng _ hs ih =>
      obtain ⟨base, hw⟩ := ih
      exact ⟨base, hw.reseed rng hs⟩

/-! ### What a call shows -/

/-- The present thought has gone on: what is shown has grown by what the tree has seen meanwhile. -/
def GoesOn (g g' : Game) : Prop :=
  ∃ effort, g'.thinking = g.thinking.add effort ∧ g'.engine.seen = g.engine.seen.add effort

lemma GoesOn.refl (g : Game) : GoesOn g g := ⟨{}, rfl, rfl⟩

/-- **Thinking shows what the tree sees.** -/
lemma Orderly.goesOn_thought (h : Orderly g) (updates : ℕ) : GoesOn g (g.thought updates) := by
  obtain ⟨tree, effort, events, hthink, hseen⟩ :=
    g.engine.exists_thinkOn_seen {} [] updates h.engine.supplied.orderly
  rw [Effort.zero_add, ← Engine.think] at hthink
  rw [Game.thought, hthink]
  exact ⟨effort, rfl, hseen⟩

/-- **What a call shows**: it begins a new thought, with no work to show, or it goes on with the
present one. -/
lemma Orderly.begins_or_goesOn (h : Orderly g) (k : Call) :
    g.Begins k ∧ (g.after k).thinking = {} ∨ ¬g.Begins k ∧ GoesOn g (g.after k) := by
  cases k with
  | tryPlace c =>
      obtain ⟨r, -, hsame⟩ | ⟨-, -, ha, hcommit⟩ := tryPlace_cases g c
      · exact .inr ⟨not_begins rfl (by rw [hsame]), by rw [hsame]; exact .refl g⟩
      · exact .inl ⟨begins_of_append (by rw [hcommit, history_committed ha]), by rw [hcommit]; rfl⟩
  | tick updates =>
      obtain ⟨-, hsame⟩ | ⟨-, hthink | ⟨c, -, ha, hcommit⟩⟩ := tick_cases h.engine updates
      · exact .inr ⟨not_begins rfl (by rw [hsame]), by rw [hsame]; exact .refl g⟩
      · refine .inr ⟨not_begins rfl ?_, by rw [hthink]; exact h.goesOn_thought updates⟩
        rw [hthink, history, history, g.board_thought]
      · have hadd := history_thought_committed updates ha
        exact .inl ⟨begins_of_append (by rw [hcommit, hadd]), by rw [hcommit]; rfl⟩
  | undo =>
      have hp := h.engine.inStep.played
      by_cases hnil : g.history = []
      · have hsame := undo_of_nil hp hnil
        exact .inr ⟨not_begins rfl (by rw [hsame]), by rw [hsame]; exact .refl g⟩
      · obtain ⟨kept, hreturn, hundo⟩ := exists_undo hp hnil
        obtain ⟨hproper, hne⟩ := hreturn.proper hnil
        have hkept : (g.after .undo).history = kept := by
          rw [hundo]
          exact (hp.running_of_prefix hproper hne).2.1
        exact .inl ⟨.inr (by rwa [hkept]), by rw [hundo]⟩
  | reset => exact .inl ⟨.inl rfl, rfl⟩
  | restart mode => exact .inl ⟨.inl rfl, rfl⟩
  | setLevel level => exact .inr ⟨not_begins rfl rfl, {}, rfl, rfl⟩

/-- **The shown work is what the tree has seen** since the thought began. -/
lemma Watched.seen_eq (h : Watched g base) : g.engine.seen = base.add g.thinking := by
  induction h with
  | new mode config => rfl
  | call k h ih =>
      obtain ⟨hbegins, hnone⟩ | ⟨hgoes, effort, hthinking, hseen⟩ :=
        h.reachable.orderly.begins_or_goesOn k
      · rw [if_pos hbegins, hnone, Effort.add_zero]
      · rw [if_neg hgoes, hthinking, hseen, ih, Effort.add_assoc]
  | reseed rng _ _ ih => exact ih

/-- A game that starts over has a tree that has seen nothing. -/
lemma seen_of_startsOver {k : Call} (hk : k.startsOver = true) : (g.after k).engine.seen = {} := by
  cases k with
  | reset => exact g.engine.seen_backTo []
  | restart mode => exact (g.engine.setSide mode.engineSide).seen_backTo []
  | _ => cases hk

/-- **The work that a game shows is the work of its search.** Whatever has been called, and whatever
the tree had seen of a move before it was played, the updates that are shown are the visits of the
root, less those it had when the present thought began, and so are the games. The thought began with
the last call that committed a move, took moves back or started the game over. Such a call leaves no
work to show, and unless it committed a move, the root has seen nothing. A refused stone changes
neither the tree nor what is shown, and nor does a new level. -/
theorem work_exact (h : Watched g base) :
    (base.updates ≤ g.engine.tree.rootNode.visits ∧
      g.thinking.updates = g.engine.tree.rootNode.visits - base.updates) ∧
    (base.games ≤ g.engine.tree.games ∧ g.thinking.games = g.engine.tree.games - base.games) ∧
    (∀ k, g.Begins k → (g.after k).thinking = {}) ∧
    (∀ k, k.startsOver = true ∨ k = .undo ∧ g.history ≠ [] →
      (g.after k).engine.seen = {} ∧ (g.after k).thinking = {}) ∧
    (∀ c r, (g.tryPlace c).result = .error r → g.after (.tryPlace c) = g) ∧
    ∀ level, (g.after (.setLevel level)).engine.tree = g.engine.tree ∧
      (g.after (.setLevel level)).thinking = g.thinking := by
  have ho := h.reachable.orderly
  have hseen := h.seen_eq
  have hvisits : g.engine.tree.rootNode.visits = base.updates + g.thinking.updates :=
    congrArg Effort.updates hseen
  have hgames : g.engine.tree.games = base.games + g.thinking.games :=
    congrArg Effort.games hseen
  refine ⟨by omega, by omega, fun k hk => ?_, fun k hk => ?_, fun c r hr => ?_,
    fun level => ⟨rfl, rfl⟩⟩
  · obtain ⟨-, hnone⟩ | ⟨hgoes, -⟩ := ho.begins_or_goesOn k
    · exact hnone
    · exact absurd hk hgoes
  · obtain hover | ⟨rfl, hne⟩ := hk
    · refine ⟨seen_of_startsOver hover, ?_⟩
      cases k <;> first | rfl | cases hover
    · obtain ⟨kept, -, hundo⟩ := exists_undo ho.engine.inStep.played hne
      rw [hundo]
      exact ⟨g.engine.seen_backTo kept, rfl⟩
  · obtain ⟨r', -, hsame⟩ | ⟨hok, -⟩ := tryPlace_cases g c
    · exact hsame
    · rw [hok] at hr
      cases hr

/-- A slice of thinking about the opening, in a game against the engine. -/
def pondered : Game := (new .usual { threshold := 1 }).after (.tick 1)

/-- It shows the one game that the tree has seen, and nothing once the game starts over. -/
theorem work_exact_pondered :
    Watched pondered {} ∧ pondered.engine.tree.games = 1 ∧ pondered.thinking.games = 1 ∧
      (pondered.after .reset).thinking = {} := by
  have hstart : Reachable (new .usual { threshold := 1 }) := .new _ _
  have hengine := hstart.orderly.engine
  have hthought : pondered = (new .usual { threshold := 1 }).thought 1 := by
    obtain ⟨hidle, -⟩ | ⟨-, hthink | ⟨c, hturn, -⟩⟩ := tick_cases hengine 1
    · cases hidle
    · exact hthink
    · cases hturn
  have hhistory : pondered.history = (new .usual { threshold := 1 }).history := by
    rw [hthought, history, history, board_thought]
  have hwatched : Watched pondered {} := by
    have hcall := (Watched.new .usual { threshold := 1 }).call (.tick 1)
    rwa [if_neg (not_begins rfl hhistory)] at hcall
  obtain ⟨-, hlow, hhigh⟩ := hengine.supplied.think_counts .new rfl 1
  -- for any game at once: on the new game the kernel would run the search
  have hthink : ∀ g : Game, (g.thought 1).engine.tree.games =
      (g.engine.think 1).state.tree.games := fun _ => rfl
  have htree : pondered.engine.tree.games = 1 := by
    rw [hthought, hthink]
    exact le_antisymm hhigh hlow
  obtain ⟨-, ⟨-, hshown⟩, -, hover, -⟩ := work_exact hwatched
  rw [htree] at hshown
  exact ⟨hwatched, htree, hshown, (hover .reset (.inl rfl)).2⟩

end Game

end FiveInRow
