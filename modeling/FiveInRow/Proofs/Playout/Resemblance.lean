import Mathlib.Tactic
import FiveInRow.Playout.Batch
import FiveInRow.Proofs.Board.Reachable

/-!
Boards that look alike. The ranking reads no more of a board than its status, its frontier and the
priorities of its cells, so boards that agree on these have the same shortlist and the same draws;
and if moves keep them alike, whole playouts run alike, word for word.

* `Board.Resembles`: what the ranking reads of two boards is the same, up to names of the colours;
* `Board.Resembles.shortlist_eq`, `Board.Resembles.sample_eq`: so are the moves that it leaves and
  those that it draws;
* `Board.Simulation`: a relation of boards that look alike, which moves keep;
* `Board.Simulation.playOut`: playouts keep it, too, and use up the same words;
* `Board.Simulation.playOutValue_eq`, `Board.Simulation.batchValue_eq`: they are worth the same.
-/

namespace FiveInRow

/-- Renaming the winner and the side leaves the worth of a result alone. -/
lemma Status.value_map {rename : Color → Color} (hinj : Function.Injective rename)
    (s : Status Color) (side : Option Color) :
    ((s.map rename).map some).value (side.map rename) = (s.map some).value side := by
  cases s with
  | inProgress => rfl
  | draw => rfl
  | win c =>
      have hsame : some (rename c) = side.map rename ↔ some c = side :=
        (Option.map_injective hinj).eq_iff (a := some c)
      simp only [Status.map, Status.value, hsame]

/-- Renaming the winner does not end a game. -/
lemma Status.isOver_map (rename : Color → Color) (s : Status Color) :
    (s.map rename).isOver = s.isOver := by
  cases s <;> rfl

namespace Board

/-- Board `b'` shows the ranking what board `b` shows it, when the colours are renamed. -/
structure Resembles (rename : Color → Color) (b b' : Board) : Prop where
  status : b'.status = b.status.map rename
  frontier : b'.frontier = b.frontier
  attack : ∀ c color, b'.attackOf c (some (rename color)) = b.attackOf c (some color)
  defence : ∀ c color, b'.defenceOf c (some (rename color)) = b.defenceOf c (some color)

variable {b b' : Board} {rename : Color → Color} {γ : Type} [WordSource γ]

namespace Resembles

lemma isOver_eq (h : Resembles rename b b') : b'.isOver = b.isOver := by
  rw [isOver, isOver, h.status, Status.isOver_map]

lemma attackOf_eq (h : Resembles rename b b') (c : Cell) (color : Option Color) :
    b'.attackOf c (color.map rename) = b.attackOf c color := by
  cases color with
  | none => rfl
  | some color => exact h.attack c color

lemma defenceOf_eq (h : Resembles rename b b') (c : Cell) (color : Option Color) :
    b'.defenceOf c (color.map rename) = b.defenceOf c color := by
  cases color with
  | none => rfl
  | some color => exact h.defence c color

/-- Both boards sort the same cells in the same way. -/
lemma outlook_eq (h : Resembles rename b b') (color : Option Color) :
    Outlook.of b' (color.map rename) = Outlook.of b color := by
  simp only [Outlook.of, available, h.frontier, h.attackOf_eq, h.defenceOf_eq]

/-- **The same moves are worth expanding.** -/
lemma shortlist_eq (h : Resembles rename b b') (color : Option Color) :
    b'.shortlist (color.map rename) = b.shortlist color := by
  rw [shortlist, shortlist, h.isOver_eq, h.outlook_eq, available, available, h.frontier]

/-- **The same moves are drawn**, from the same words. -/
lemma sample_eq (h : Resembles rename b b') (color : Option Color) :
    (b'.sample (color.map rename) : Draw γ (Option Cell)) = b.sample color := by
  rw [sample, sample, h.isOver_eq, h.outlook_eq, h.frontier]

/-- So are moves without regard to their urgency. -/
lemma sampleUniform_eq (h : Resembles rename b b') :
    (b'.sampleUniform : Draw γ (Option Cell)) = b.sampleUniform := by
  rw [sampleUniform, sampleUniform, h.isOver_eq, h.frontier]

end Resembles

/-- One step of a playout: a move is drawn, and played if the rules accept it. -/
lemma playOut_apply (b : Board) (last : Option Color) (g : γ) :
    b.playOut last g =
      match (b.sample (some (Color.after last)) : Draw γ (Option Cell)) g with
      | (none, g') => (b, g')
      | (some c, g') =>
        if b.accepts c then (b.place c (Color.after last)).playOut (some (Color.after last)) g'
        else (b, g') := by
  rw [playOut]
  simp only [bind, StateT.bind]
  rcases (b.sample (some (Color.after last)) : Draw γ (Option Cell)) g with ⟨_ | c, g'⟩
  · rfl
  · dsimp only
    split_ifs
    · rfl
    · rfl

/-- A relation of boards that look alike, up to names of the colours, and that moves keep. -/
structure Simulation (rename : Color → Color) (R : Board → Board → Prop) : Prop where
  injective : Function.Injective rename
  resembles : ∀ {b b'}, R b b' → Resembles rename b b'
  accepts : ∀ {b b'}, R b b' → ∀ c, b'.accepts c = b.accepts c
  place : ∀ {b b' c}, R b b' → b.accepts c = true →
    ∀ color, R (b.place c color) (b'.place c (rename color))

/-- Names that keep the colours apart keep opponents opponents. -/
lemma rename_other (h : Function.Injective rename) (c : Color) :
    rename c.other = (rename c).other := by
  have hne : rename c.other ≠ rename c := fun heq => Color.other_ne c (h heq)
  revert hne
  generalize rename c.other = d
  generalize rename c = e
  cases d <;> cases e <;> simp [Color.other]

namespace Simulation

variable {R : Board → Board → Prop}

/-- **Playouts run alike**: they keep the relation and use up the same words. -/
lemma playOut (hR : Simulation rename R) (h : R b b') {last last' : Option Color}
    (hlast : Color.after last' = rename (Color.after last)) (g : γ) :
    R (b.playOut last g).1 (b'.playOut last' g).1 ∧
      (b'.playOut last' g).2 = (b.playOut last g).2 := by
  -- induction on the room of the board, which every move lowers
  induction hn : b.room using Nat.strong_induction_on generalizing b b' last last' g with
  | _ n ih =>
      have hsample : (b'.sample (some (Color.after last')) : Draw γ (Option Cell)) =
          b.sample (some (Color.after last)) := by
        rw [hlast]
        exact (hR.resembles h).sample_eq (some (Color.after last))
      rw [playOut_apply b, playOut_apply b', hsample]
      rcases (b.sample (some (Color.after last)) : Draw γ (Option Cell)) g with ⟨_ | c, g'⟩
      · exact ⟨h, rfl⟩
      · dsimp only
        rw [hR.accepts h c]
        split_ifs with ha
        · rw [hlast]
          refine ih _ (hn ▸ room_place ha _) (hR.place h ha _) ?_ g' rfl
          rw [Color.after_some, Color.after_some, rename_other hR.injective]
        · exact ⟨h, rfl⟩

/-- **Playouts are worth the same**, and use up the same words. -/
lemma playOutValue_eq (hR : Simulation rename R) (h : R b b') {last last' : Option Color}
    (hlast : Color.after last' = rename (Color.after last)) (side : Option Color) (g : γ) :
    b'.playOutValue last' (side.map rename) g = b.playOutValue last side g := by
  obtain ⟨hend, hwords⟩ := hR.playOut h hlast g
  have hvalue := Status.value_map hR.injective (b.playOut last g).1.status side
  rw [← (hR.resembles hend).status] at hvalue
  exact Prod.ext hvalue hwords

/-- **Batches of playouts are worth the same.** -/
lemma batchValue_eq (hR : Simulation rename R) (h : R b b') {last last' : Option Color}
    (hlast : Color.after last' = rename (Color.after last)) (side : Option Color) (workers : ℕ)
    (base : UInt64) :
    b'.batchValue last' (side.map rename) workers base = b.batchValue last side workers base := by
  simp only [batchValue, hR.playOutValue_eq h hlast]

end Simulation

end Board

end FiveInRow
