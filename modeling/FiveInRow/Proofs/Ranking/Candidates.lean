import Mathlib.Tactic
import FiveInRow.Proofs.Ranking.Shortlist

/-!
The shortlist of a running game is a list of moves to choose from: it is not empty, and it names no
move twice.

* `Cell.exists_adjacent_of_mixed`: the board is connected, so somewhere a cell with a property is
  next to one without it;
* `Board.Played.exists_mem_frontier`: a running game has a cell worth considering;
* `Levels.get_top_ofCells_ne_nil`: the top level of cells that were sorted is not empty;
* `Board.shortlist_sublist`: the shortlist is in index order;
* `Board.Played.shortlist_ne_nil`: the shortlist of a running game is not empty.
-/

namespace FiveInRow

/-! ### A connected board -/

/-- From a coordinate one step leads closer to another one, unless they are the same. -/
lemma exists_toward {m n : ℕ} (hm : m < 19) (hn : n < 19) :
    ∃ k : ℕ, k < 19 ∧ ((k : ℤ) - n).natAbs + ((m : ℤ) - k).natAbs = ((m : ℤ) - n).natAbs ∧
      ((m : ℤ) - k).natAbs = min 1 ((m : ℤ) - n).natAbs := by
  rcases lt_trichotomy m n with h | rfl | h
  · exact ⟨m + 1, by omega, by omega, by omega⟩
  · exact ⟨m, hm, by simp, by simp⟩
  · exact ⟨m - 1, by omega, by omega, by omega⟩

namespace Cell

/-- From a cell there is a neighbour that is one king move closer to another cell. -/
lemma exists_closer {a c : Cell} (h : a ≠ c) :
    ∃ q, a.Adjacent q ∧ q.distance c < a.distance c := by
  obtain ⟨x, hx, hxsum, hxstep⟩ := exists_toward a.x_lt c.x_lt
  obtain ⟨y, hy, hysum, hystep⟩ := exists_toward a.y_lt c.y_lt
  have hboard : OnBoard x y := ⟨by omega, by omega, by omega, by omega⟩
  obtain ⟨q, hq⟩ := Option.isSome_iff_exists.mp ((at?_isSome_iff x y).mpr hboard)
  obtain ⟨hqx, hqy⟩ := at?_eq_some_iff.mp hq
  have hfar : ((a.x : ℤ) - c.x).natAbs ≠ 0 ∨ ((a.y : ℤ) - c.y).natAbs ≠ 0 := by
    by_contra! hsame
    exact h (eq_of_x_y (by omega) (by omega))
  refine ⟨q, ?_⟩
  rw [adjacent_iff_distance, distance, distance, distance, hqx, hqy]
  generalize ((a.x : ℤ) - c.x).natAbs = u at *
  generalize ((a.y : ℤ) - c.y).natAbs = v at *
  generalize ((x : ℤ) - c.x).natAbs = u' at *
  generalize ((y : ℤ) - c.y).natAbs = v' at *
  generalize ((a.x : ℤ) - x).natAbs = i at *
  generalize ((a.y : ℤ) - y).natAbs = j at *
  exact ⟨by omega, by omega⟩

/-- **The board is connected**: if some cells have a property and others have not, then somewhere a
cell with it is next to one without it. -/
lemma exists_adjacent_of_mixed {p : Cell → Prop} {a c : Cell} (ha : p a) (hc : ¬ p c) :
    ∃ q e, p q ∧ ¬ p e ∧ q.Adjacent e := by
  -- induction on the distance: the neighbour towards `c` has the property, or it is the one
  induction hn : a.distance c using Nat.strong_induction_on generalizing a with
  | _ n ih =>
      have hne : a ≠ c := by
        rintro rfl
        exact hc ha
      obtain ⟨q, hadj, hcloser⟩ := exists_closer hne
      by_cases hq : p q
      · exact ih _ (hn ▸ hcloser) hq rfl
      · exact ⟨a, q, ha, hq, hadj⟩

end Cell

/-! ### Levels -/

/-- The top level holds a cell as soon as some level does. -/
lemma Levels.get_top_ne_nil {levels : Levels} {p : Priority} (h : levels.get p ≠ []) :
    levels.get levels.top ≠ [] := by
  cases hfind : (List.finRange 9).reverse.find? fun q => !levels[q].isEmpty with
  | none =>
      have hnone := List.find?_eq_none.mp hfind p (by simp)
      rw [Bool.not_eq_true', List.isEmpty_eq_false_iff] at hnone
      exact absurd h hnone
  | some q =>
      have htop : levels.top = q := by
        rw [top, hfind]
        rfl
      have hsome := List.find?_some hfind
      rw [Bool.not_eq_true', List.isEmpty_eq_false_iff] at hsome
      rw [htop]
      exact hsome

/-- The top level of cells that were sorted is not empty, if there are any cells. -/
lemma Levels.get_top_ofCells_ne_nil {cells : List Cell} (priority : Cell → Priority)
    (h : cells ≠ []) : (ofCells priority cells).get (ofCells priority cells).top ≠ [] := by
  obtain ⟨c, hc⟩ := List.exists_mem_of_ne_nil _ h
  have hlevel := getElem_ofCells priority cells (priority c)
  refine get_top_ne_nil (p := priority c) fun hnone => ?_
  rw [show (ofCells priority cells)[priority c] = [] from hnone, eq_comm,
    List.filter_eq_nil_iff] at hlevel
  exact hlevel c hc (decide_eq_true rfl)

namespace Board

variable {b : Board} {color : Option Color}

/-- **A running game has a cell worth considering**: the middle of the board, or a free cell next to
a stone. -/
lemma Played.exists_mem_frontier (h : Played b) (hs : b.status = .inProgress) :
    ∃ e, b.frontier.contains e = true := by
  by_cases hm : b.moves = []
  · exact ⟨Cell.center, by rw [h.frontier_iff hs, if_pos hm]⟩
  · obtain ⟨⟨e, he⟩, -⟩ := h.judged.inProgress_iff.mp hs
    obtain ⟨q, hq⟩ := not_forall.mp (mt h.moves_eq_nil_iff.mpr hm)
    obtain ⟨q', e', hq', he', hadj⟩ :=
      Cell.exists_adjacent_of_mixed (p := fun c => b.get c ≠ none) hq (not_not.mpr he)
    exact ⟨e', h.mem_frontier hs (not_not.mp he') hq' hadj⟩

/-- **The shortlist of a running game is not empty.** -/
lemma Played.shortlist_ne_nil (h : Played b) (hs : b.status = .inProgress)
    (color : Option Color) : b.shortlist color ≠ [] := by
  obtain ⟨e, he⟩ := h.exists_mem_frontier hs
  have havailable : b.available ≠ [] := List.ne_nil_of_mem (CellSet.mem_toList.mpr he)
  have hattack : (Outlook.of b color).topAttack ≠ [] :=
    Levels.get_top_ofCells_ne_nil (b.attackOf · color) havailable
  have hdefence : (Outlook.of b color).topDefence ≠ [] :=
    Levels.get_top_ofCells_ne_nil (b.defenceOf · color) havailable
  rw [shortlist, isOver_eq_false_iff.mpr hs, if_neg Bool.false_ne_true]
  cases hv : (Outlook.of b color).verdict with
  | attack =>
      simp only [hv]
      exact hattack
  | defence =>
      simp only [hv]
      exact hdefence
  | either =>
      simp only [hv]
      obtain ⟨c, hc⟩ := List.exists_mem_of_ne_nil _ hattack
      refine List.ne_nil_of_mem (a := c) ?_
      rw [CellSet.mem_toList, CellSet.contains_ofList]
      exact List.mem_append_left _ hc
  | spread =>
      simp only [hv]
      exact havailable

/-- A level of the frontier is in index order. -/
lemma sublist_level (b : Board) (priority : Cell → Priority) (p : Priority) :
    ((Levels.ofCells priority b.available).get p).Sublist Cell.all := by
  have hlevel := Levels.getElem_ofCells priority b.available p
  rw [show (Levels.ofCells priority b.available)[p] =
    (Levels.ofCells priority b.available).get p from rfl] at hlevel
  rw [hlevel]
  exact List.filter_sublist.trans (CellSet.sublist_toList _)

/-- **The shortlist is in index order**, and it names no cell twice. -/
lemma shortlist_sublist (b : Board) (color : Option Color) :
    (b.shortlist color).Sublist Cell.all := by
  rw [shortlist]
  split_ifs
  · exact List.nil_sublist _
  · dsimp only
    split
    · exact b.sublist_level _ _
    · exact b.sublist_level _ _
    · exact CellSet.sublist_toList _
    · exact CellSet.sublist_toList _

lemma shortlist_nodup (b : Board) (color : Option Color) : (b.shortlist color).Nodup :=
  (b.shortlist_sublist color).nodup Cell.nodup_all

/-- On the empty board there is one move to choose from. -/
lemma shortlist_empty (color : Option Color) : empty.shortlist color = [Cell.center] := by
  have hplayed : Played empty := .new
  have hmiddle : ∀ c ∈ empty.shortlist color, c = Cell.center := by
    intro c hc
    obtain ⟨hs, havailable⟩ := mem_available_of_mem_shortlist hc
    have hfrontier := (hplayed.frontier_iff hs c).mp (CellSet.mem_toList.mp havailable)
    rwa [if_pos (show empty.moves = [] from rfl)] at hfrontier
  have hreplicate := List.eq_replicate_of_mem hmiddle
  have hnodup := empty.shortlist_nodup color
  have hpos := List.length_pos_of_ne_nil (hplayed.shortlist_ne_nil rfl color)
  rw [hreplicate, List.nodup_replicate] at hnodup
  rw [hreplicate, Nat.le_antisymm hnodup hpos]
  rfl

end Board

end FiveInRow
