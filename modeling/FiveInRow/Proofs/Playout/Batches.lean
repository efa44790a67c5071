import Mathlib.Tactic
import FiveInRow.Engine

/-!
Batches of playouts, and searches that are built on them. A worker leaves its result in its own
slot, so a batch fails only if a worker does; and a worker that plays a game out does not.

* `Batch.getElem?_results`: what is in a slot, whatever the order of the workers;
* `Batch.exists_runIn`: a batch without failing workers has a mean;
* `Board.exists_batchValue`, `Tree.exists_update`: playouts have a mean, so an update does not fail;
* `Engine.exists_think`: nor does thinking, which changes nothing but the tree.
-/

namespace FiveInRow

/-! ### Slots -/

namespace Batch

/-- Workers that finish fill their own slots and no others. -/
lemma getElem?_foldl_slots (work : ℕ → Option Float32) (finished : List ℕ)
    (slots : Array (Option Float32)) (w : ℕ) :
    (finished.foldl (fun slots v => slots.setIfInBounds v (work v)) slots)[w]? =
      if w ∈ finished ∧ w < slots.size then some (work w) else slots[w]? := by
  induction finished generalizing slots with
  | nil => simp
  | cons v finished ih =>
      rw [List.foldl_cons, ih, Array.size_setIfInBounds, Array.getElem?_setIfInBounds]
      by_cases hv : v = w
      · subst hv
        by_cases hlt : v < slots.size
        · simp [hlt]
        · simp [hlt]
      · simp [hv, Ne.symm hv]

/-- **The slot of a worker holds what the worker found**, once it has finished. -/
lemma getElem?_results (workers : ℕ) (work : ℕ → Option Float32) (finished : List ℕ) (w : ℕ) :
    (results workers work finished)[w]? =
      if w < workers then some (if w ∈ finished then work w else none) else none := by
  rw [results, Array.getElem?_toList, getElem?_foldl_slots, Array.size_replicate,
    Array.getElem?_replicate]
  split_ifs <;> simp_all

/-- Where everybody found something, nobody failed. -/
lemma failures_eq_nil {found : List (Option Float32)} (h : ∀ r ∈ found, r ≠ none) :
    failures found = [] := by
  rw [failures, List.map_eq_nil_iff, List.filter_eq_nil_iff]
  intro x hx hnone
  exact h x.1 (List.fst_mem_of_mem_zipIdx hx) (Option.isNone_iff_eq_none.mp hnone)

/-- **A batch without failing workers has a mean**, and nothing is reported. -/
lemma exists_runIn {finished : List ℕ} {workers : ℕ} {base : UInt64} {job : Job}
    (hall : ∀ w < max workers 1, w ∈ finished)
    (hjob : ∀ w < max workers 1, Batch.work base job w ≠ none) :
    ∃ value, runIn finished workers base job = (.ok value, []) := by
  have hfound : ∀ r ∈ results (max workers 1) (work base job) finished, r ≠ none := by
    intro r hr
    obtain ⟨w, hw⟩ := List.mem_iff_getElem?.mp hr
    rw [getElem?_results] at hw
    split_ifs at hw with hlt hfinished
    · rw [← Option.some.inj hw]
      exact hjob w hlt
    · exact absurd (hall w hlt) hfinished
  exact ⟨_, by rw [runIn, average, failures_eq_nil hfound]⟩

end Batch

/-! ### Updates and thinking -/

/-- **A batch of playouts has a mean.** -/
lemma Board.exists_batchValue (b : Board) (last side : Option Color) (workers : ℕ)
    (base : UInt64) : ∃ value, b.batchValue last side workers base = (.ok value, []) :=
  Batch.exists_runIn (fun _ hw => List.mem_range.mpr hw) fun _ _ => Option.some_ne_none _

/-- **An update does not fail.** -/
lemma Tree.exists_update (t : Tree) (b : Board) :
    ∃ games, (t.update b).result = .ok games := by
  rw [update, updateWith]
  dsimp only
  split_ifs
  · exact ⟨_, rfl⟩
  · exact ⟨_, rfl⟩
  · exact ⟨_, rfl⟩
  · split
    · rename_i events hjudged
      obtain ⟨value, hvalue⟩ := Board.exists_batchValue _ _ _ _ _
      rw [hvalue] at hjudged
      cases hjudged
    · exact ⟨_, rfl⟩

namespace Engine

/-- **Thinking does not fail, and it changes nothing but the tree.** -/
lemma exists_thinkOn (e : Engine) (done : Effort) (events : List Event) (count : ℕ) :
    ∃ tree effort events',
      e.thinkOn done events count = ⟨{ e with tree }, .ok effort, events'⟩ := by
  induction count generalizing e done events with
  | zero => exact ⟨e.tree, done, events, rfl⟩
  | succ count ih =>
      obtain ⟨games, hgames⟩ := e.tree.exists_update e.board
      rw [thinkOn, hgames]
      cases games with
      | zero => exact ⟨_, _, _, rfl⟩
      | succ games => exact ih _ _ _

lemma exists_think (e : Engine) (count : ℕ) :
    ∃ tree effort events, e.think count = ⟨{ e with tree }, .ok effort, events⟩ :=
  e.exists_thinkOn {} [] count

/-- Thinking changes nothing but the tree. -/
lemma exists_state_think (e : Engine) (count : ℕ) :
    ∃ tree, (e.think count).state = { e with tree } := by
  obtain ⟨tree, effort, events, hthink⟩ := e.exists_think count
  exact ⟨tree, by rw [hthink]⟩

end Engine

end FiveInRow
