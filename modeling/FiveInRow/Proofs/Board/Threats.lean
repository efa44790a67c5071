import Mathlib.Tactic
import FiveInRow.Board.Threats

/-!
The bookkeeping of threats. The table of threats is read through three views, the attack
priorities, the entries of a record and the links of an anchor, and each operation is described by
what it does to them.

* `Threats.due`: the entries that a cell owes to the records, from the stones alone;
* `Threats.WellKept`: every entry can be found from its anchor, and every record knows its worth;
* `Threats.Settled`: a cell has its attack priorities and has paid exactly what it owes;
* `Threats.settled_refresh`, `Threats.Settled.refresh`: evaluating a cell again settles it and
  leaves all other cells as they were;
* `Threats.settled_foldl_refresh`: what is settled after a list of cells was evaluated again;
* `Threats.WellKept.entriesOn_occupy`: what a stone does to the records.
-/

namespace FiveInRow

namespace Threats

variable {s : Stones} {t : Threats} {a : Cell}

/-- The entries of the record that a link names. -/
def entriesOn (t : Threats) (k : AnchorLink) : List DefenceEntry :=
  (t.recordOf k.cell k.side).entries

/-! ### The views after one change -/

lemma attackOf_setAttack (t : Threats) (c e : Cell) (color side : Color) (p : Priority) :
    (t.setAttack c color p).attackOf e side =
      if side = color ∧ e = c then p else t.attackOf e side := by
  simp only [attackOf, setAttack, ByColor.get_modify]
  by_cases h : side = color
  · simp only [h, if_true, true_and]
    exact CellTable.entry_put _ c e p
  · simp only [h, if_false, false_and]

lemma recordOf_modifyRecord (t : Threats) (c e : Cell) (color side : Color)
    (f : List DefenceEntry → List DefenceEntry) :
    (t.modifyRecord c color f).recordOf e side =
      if side = color ∧ e = c then DefenceRecord.ofEntries (f (t.recordOf e side).entries)
      else t.recordOf e side := by
  simp only [recordOf, modifyRecord, ByColor.get_modify]
  by_cases h : side = color
  · simp only [h, if_true, true_and]
    rw [CellTable.entry_put]
    split_ifs with he
    · rw [he]
    · rfl
  · simp only [h, if_false, false_and]

lemma entriesOn_modifyRecord (t : Threats) (c : Cell) (color : Color)
    (f : List DefenceEntry → List DefenceEntry) (k : AnchorLink) :
    (t.modifyRecord c color f).entriesOn k =
      if k = ⟨c, color⟩ then f (t.entriesOn k) else t.entriesOn k := by
  rcases k with ⟨e, side⟩
  simp only [entriesOn, recordOf_modifyRecord, AnchorLink.mk.injEq, and_comm (a := e = c)]
  split_ifs <;> rfl

lemma linksOf_setLinks (t : Threats) (a e : Cell) (links : List AnchorLink) :
    (t.setLinks a links).linksOf e = if e = a then links else t.linksOf e :=
  CellTable.entry_put t.anchored a e links

/-! ### Well-kept tables -/

/-- Every record knows its worth. -/
def Weighed (t : Threats) : Prop :=
  ∀ c side, (t.recordOf c side).priority = DefenceRecord.worth (t.recordOf c side).entries

/-- Every entry can be found from its anchor, and every record knows its worth. -/
structure WellKept (t : Threats) : Prop where
  linked : ∀ k, ∀ e ∈ t.entriesOn k, k ∈ t.linksOf e.anchor
  weighed : Weighed t

lemma wellKept_empty : WellKept empty where
  linked k e he := by
    have : empty.entriesOn k = [] := by
      simp [entriesOn, recordOf, empty, DefenceRecord.empty]
    rw [this] at he
    cases he
  weighed c side := by
    have : empty.recordOf c side = DefenceRecord.empty := by
      simp [recordOf, empty]
    rw [this]
    rfl

lemma WellKept.setAttack (h : WellKept t) (c : Cell) (color : Color) (p : Priority) :
    WellKept (t.setAttack c color p) :=
  ⟨h.linked, h.weighed⟩

lemma Weighed.modifyRecord (h : Weighed t) (c : Cell) (color : Color)
    (f : List DefenceEntry → List DefenceEntry) : Weighed (t.modifyRecord c color f) := by
  intro e side
  rw [recordOf_modifyRecord]
  split_ifs
  · rfl
  · exact h e side

/-- Entries may be dropped at will. -/
lemma WellKept.modifyRecord_of_subset (h : WellKept t) (c : Cell) (color : Color)
    {f : List DefenceEntry → List DefenceEntry} (hf : ∀ l, f l ⊆ l) :
    WellKept (t.modifyRecord c color f) where
  linked k e he := by
    rw [entriesOn_modifyRecord] at he
    split_ifs at he
    · exact h.linked k e (hf _ he)
    · exact h.linked k e he
  weighed := h.weighed.modifyRecord c color f

/-! ### Forgetting an anchor -/

lemma entriesOn_foldl_unlink (links : List AnchorLink) (t : Threats) (a : Cell) (k : AnchorLink) :
    (links.foldl (unlink a) t).entriesOn k =
      if k ∈ links then (t.entriesOn k).filter (·.anchor ≠ a) else t.entriesOn k := by
  induction links generalizing t with
  | nil => simp
  | cons link links ih =>
      rw [List.foldl_cons, ih, unlink, entriesOn_modifyRecord]
      by_cases hk : k = link
      · subst hk
        simp [List.filter_filter]
      · rw [if_neg (show k ≠ ⟨link.cell, link.side⟩ from hk)]
        simp [hk]

lemma linksOf_foldl_unlink (links : List AnchorLink) (t : Threats) (a e : Cell) :
    (links.foldl (unlink a) t).linksOf e = t.linksOf e := by
  induction links generalizing t with
  | nil => rfl
  | cons link links ih => exact ih _

lemma attackOf_foldl_unlink (links : List AnchorLink) (t : Threats) (a e : Cell) (side : Color) :
    (links.foldl (unlink a) t).attackOf e side = t.attackOf e side := by
  induction links generalizing t with
  | nil => rfl
  | cons link links ih => exact ih _

lemma Weighed.foldl_unlink (h : Weighed t) (links : List AnchorLink) (a : Cell) :
    Weighed (links.foldl (unlink a) t) := by
  induction links generalizing t with
  | nil => exact h
  | cons link links ih => exact ih (h.modifyRecord link.cell link.side _)

/-- Following the links of an anchor finds all of its entries. -/
lemma WellKept.entriesOn_forget (h : WellKept t) (a : Cell) (k : AnchorLink) :
    (t.forget a).entriesOn k = (t.entriesOn k).filter (·.anchor ≠ a) := by
  rw [forget, entriesOn_foldl_unlink]
  show (if k ∈ t.linksOf a then (t.entriesOn k).filter (·.anchor ≠ a) else t.entriesOn k) = _
  split_ifs with hk
  · rfl
  · symm
    rw [List.filter_eq_self]
    intro e he
    rw [decide_eq_true_eq]
    rintro rfl
    exact hk (h.linked k e he)

lemma linksOf_forget (t : Threats) (a e : Cell) :
    (t.forget a).linksOf e = if e = a then [] else t.linksOf e := by
  rw [forget, linksOf_foldl_unlink, linksOf_setLinks]

lemma attackOf_forget (t : Threats) (a e : Cell) (side : Color) :
    (t.forget a).attackOf e side = t.attackOf e side := by
  rw [forget, attackOf_foldl_unlink]
  rfl

lemma WellKept.forget (h : WellKept t) (a : Cell) : WellKept (t.forget a) where
  linked k e he := by
    rw [h.entriesOn_forget, List.mem_filter, decide_eq_true_eq] at he
    rw [linksOf_forget, if_neg he.2]
    exact h.linked k e he.1
  weighed := by
    have hset : Weighed (t.setLinks a []) := h.weighed
    exact hset.foldl_unlink (t.linksOf a) a

/-! ### Paying what is due -/

/-- Put an entry into the record that a link names. -/
def post (t : Threats) (x : AnchorLink × DefenceEntry) : Threats := t.addEntry x.1.cell x.1.side x.2

/-- What a cell owes to the records because of what a colour would make there. -/
def dueFor (s : Stones) (a : Cell) (color : Color) : List (AnchorLink × DefenceEntry) :=
  (patternsAt s a color).flatMap fun f =>
    (entriesOf a f.1 f.2).map fun e => (⟨e.1, color.other⟩, e.2)

/-- What a cell owes to the records. A cell with a stone owes nothing. -/
def due (s : Stones) (a : Cell) : List (AnchorLink × DefenceEntry) :=
  if s.isEmpty a then dueFor s a .black ++ dueFor s a .white else []

/-- What a colour makes on a cell is worth; nothing on a cell with a stone. -/
def worthAt (s : Stones) (a : Cell) (color : Color) : Priority :=
  if s.isEmpty a then attackWorth (patternsAt s a color) else Priority.none

lemma evaluate_eq (s : Stones) (t : Threats) (a : Cell) (color : Color) :
    evaluate s t a color =
      (dueFor s a color).foldl post (t.setAttack a color (attackWorth (patternsAt s a color))) := by
  rw [evaluate, dueFor, List.foldl_flatMap]
  simp only [register, List.foldl_map]
  rfl

lemma anchor_of_mem_dueFor {color : Color} {x : AnchorLink × DefenceEntry}
    (h : x ∈ dueFor s a color) : x.2.anchor = a := by
  simp only [dueFor, entriesOf, List.mem_flatMap, List.mem_map, List.mem_filterMap,
    Option.map_eq_some_iff] at h
  obtain ⟨f, -, y, ⟨z, -, e, -, rfl⟩, rfl⟩ := h
  rfl

lemma entriesOn_post (t : Threats) (x : AnchorLink × DefenceEntry) (k : AnchorLink) :
    (t.post x).entriesOn k = t.entriesOn k ++ if x.1 = k then [x.2] else [] := by
  rw [post, addEntry]
  show (t.modifyRecord x.1.cell x.1.side (· ++ [x.2])).entriesOn k = _
  rw [entriesOn_modifyRecord]
  by_cases hk : x.1 = k
  · subst hk
    rw [if_pos rfl, if_pos rfl]
  · rw [if_neg hk, if_neg (show k ≠ ⟨x.1.cell, x.1.side⟩ from fun he => hk he.symm),
      List.append_nil]

lemma linksOf_post (t : Threats) (x : AnchorLink × DefenceEntry) (e : Cell) :
    (t.post x).linksOf e = if e = x.2.anchor then x.1 :: t.linksOf e else t.linksOf e := by
  rw [post, addEntry, linksOf_setLinks]
  split_ifs with he
  · rw [he]
  · rfl

lemma WellKept.post (h : WellKept t) (x : AnchorLink × DefenceEntry) : WellKept (t.post x) where
  linked k e he := by
    rw [entriesOn_post, List.mem_append] at he
    rw [linksOf_post]
    rcases he with he | he
    · have := h.linked k e he
      split_ifs
      · exact List.mem_cons_of_mem _ this
      · exact this
    · split_ifs at he with hk
      · rw [List.mem_singleton] at he
        subst he hk
        rw [if_pos rfl]
        exact List.mem_cons_self ..
      · cases he
  weighed := by
    have hrecord : Weighed (t.modifyRecord x.1.cell x.1.side (· ++ [x.2])) :=
      h.weighed.modifyRecord _ _ _
    exact hrecord

lemma entriesOn_foldl_post (xs : List (AnchorLink × DefenceEntry)) (t : Threats) (k : AnchorLink) :
    (xs.foldl post t).entriesOn k = t.entriesOn k ++ (xs.filter (·.1 = k)).map (·.2) := by
  induction xs generalizing t with
  | nil => simp
  | cons x xs ih =>
      rw [List.foldl_cons, ih, entriesOn_post, List.append_assoc, List.filter_cons]
      by_cases hk : x.1 = k <;> simp [hk]

lemma linksOf_foldl_post {xs : List (AnchorLink × DefenceEntry)} (h : ∀ x ∈ xs, x.2.anchor = a)
    (t : Threats) (e : Cell) :
    (xs.foldl post t).linksOf e =
      if e = a then (xs.map (·.1)).reverse ++ t.linksOf e else t.linksOf e := by
  induction xs generalizing t with
  | nil => simp
  | cons x xs ih =>
      have hx := h x (List.mem_cons_self ..)
      rw [List.foldl_cons, ih fun y hy => h y (List.mem_cons_of_mem _ hy), linksOf_post, hx]
      by_cases he : e = a <;> simp [he]

lemma attackOf_foldl_post (xs : List (AnchorLink × DefenceEntry)) (t : Threats) (e : Cell)
    (side : Color) : (xs.foldl post t).attackOf e side = t.attackOf e side := by
  induction xs generalizing t with
  | nil => rfl
  | cons x xs ih => exact ih _

lemma WellKept.foldl_post (h : WellKept t) (xs : List (AnchorLink × DefenceEntry)) :
    WellKept (xs.foldl Threats.post t) := by
  induction xs generalizing t with
  | nil => exact h
  | cons x xs ih => exact ih (h.post x)

/-! ### Evaluating a cell again -/

lemma anchor_of_mem_due {x : AnchorLink × DefenceEntry} (h : x ∈ due s a) : x.2.anchor = a := by
  rw [due] at h
  split_ifs at h
  · rcases List.mem_append.mp h with h | h
    · exact anchor_of_mem_dueFor h
    · exact anchor_of_mem_dueFor h
  · cases h

lemma WellKept.refresh (h : WellKept t) (s : Stones) (a : Cell) : WellKept (refresh s t a) := by
  rw [Threats.refresh]
  split_ifs
  · rw [evaluate_eq, evaluate_eq]
    exact (((h.forget a).setAttack a .black _).foldl_post _).setAttack a .white _ |>.foldl_post _
  · exact ((h.forget a).setAttack a .black _).setAttack a .white _

lemma attackOf_refresh (s : Stones) (t : Threats) (a e : Cell) (side : Color) :
    (refresh s t a).attackOf e side = if e = a then worthAt s a side else t.attackOf e side := by
  rw [refresh, worthAt]
  split_ifs with hs he he <;>
    simp only [evaluate_eq, attackOf_foldl_post, attackOf_setAttack, attackOf_forget] <;>
    cases side <;> simp [he]

lemma WellKept.entriesOn_refresh (h : WellKept t) (s : Stones) (a : Cell) (k : AnchorLink) :
    (Threats.refresh s t a).entriesOn k =
      (t.entriesOn k).filter (·.anchor ≠ a) ++ ((due s a).filter (·.1 = k)).map (·.2) := by
  rw [Threats.refresh, due]
  split_ifs
  · rw [evaluate_eq, entriesOn_foldl_post]
    show (evaluate s (t.forget a) a .black).entriesOn k ++ _ = _
    rw [evaluate_eq, entriesOn_foldl_post]
    show (t.forget a).entriesOn k ++ _ ++ _ = _
    rw [h.entriesOn_forget, List.filter_append, List.map_append, List.append_assoc]
  · show (t.forget a).entriesOn k = _
    rw [h.entriesOn_forget, List.filter_nil, List.map_nil, List.append_nil]

lemma linksOf_refresh (s : Stones) (t : Threats) (a e : Cell) :
    (refresh s t a).linksOf e =
      if e = a then ((due s a).map (·.1)).reverse else t.linksOf e := by
  have hdue : ∀ color, ∀ x ∈ dueFor s a color, x.2.anchor = a :=
    fun _ _ hx => anchor_of_mem_dueFor hx
  rw [refresh, due]
  split_ifs with hs he he
  · rw [evaluate_eq, linksOf_foldl_post (hdue .white), if_pos he]
    show _ ++ (evaluate s (t.forget a) a .black).linksOf e = _
    rw [evaluate_eq, linksOf_foldl_post (hdue .black), if_pos he]
    show _ ++ (_ ++ (t.forget a).linksOf e) = _
    rw [linksOf_forget, if_pos he, List.append_nil, List.map_append, List.reverse_append]
  · rw [evaluate_eq, linksOf_foldl_post (hdue .white), if_neg he]
    show (evaluate s (t.forget a) a .black).linksOf e = _
    rw [evaluate_eq, linksOf_foldl_post (hdue .black), if_neg he]
    show (t.forget a).linksOf e = _
    rw [linksOf_forget, if_neg he]
  · show (t.forget a).linksOf e = _
    rw [linksOf_forget, if_pos he]
    rfl
  · show (t.forget a).linksOf e = _
    rw [linksOf_forget, if_neg he]

/-- A cell is settled: its attack priorities are what the stones say, and its entries in the
records, with the links to them, are exactly what it owes. -/
structure Settled (s : Stones) (t : Threats) (a : Cell) : Prop where
  attack : ∀ color, t.attackOf a color = worthAt s a color
  entries : ∀ k, (t.entriesOn k).filter (·.anchor = a) = ((due s a).filter (·.1 = k)).map (·.2)
  links : t.linksOf a = ((due s a).map (·.1)).reverse

/-- **Evaluating a cell again settles it.** -/
lemma settled_refresh (h : WellKept t) (s : Stones) (a : Cell) : Settled s (refresh s t a) a where
  attack color := by rw [attackOf_refresh, if_pos rfl]
  entries k := by
    have hown : ∀ e ∈ ((due s a).filter (·.1 = k)).map (·.2), e.anchor = a := by
      intro e he
      obtain ⟨x, hx, rfl⟩ := List.mem_map.mp he
      exact anchor_of_mem_due (List.mem_of_mem_filter hx)
    rw [h.entriesOn_refresh, List.filter_append, List.filter_filter,
      List.filter_eq_self.mpr fun e he => decide_eq_true (hown e he)]
    simp
  links := by rw [linksOf_refresh, if_pos rfl]

/-- **Evaluating a cell again leaves the other cells alone.** -/
lemma Settled.refresh (hs : Settled s t a) (h : WellKept t) {c : Cell} (hc : a ≠ c) :
    Settled s (Threats.refresh s t c) a where
  attack color := by rw [attackOf_refresh, if_neg hc, hs.attack]
  entries k := by
    have hother : (((due s c).filter (·.1 = k)).map (·.2)).filter (·.anchor = a) = [] := by
      rw [List.filter_eq_nil_iff]
      intro e he
      obtain ⟨x, hx, rfl⟩ := List.mem_map.mp he
      rw [anchor_of_mem_due (List.mem_of_mem_filter hx), decide_eq_true_eq]
      exact fun hca => hc hca.symm
    rw [h.entriesOn_refresh, List.filter_append, hother, List.append_nil, List.filter_filter,
      ← hs.entries k]
    refine List.filter_congr fun e _ => ?_
    by_cases he : e.anchor = a <;> simp [he, hc]
  links := by rw [linksOf_refresh, if_neg hc, hs.links]

lemma WellKept.foldl_refresh (h : WellKept t) (s : Stones) (cells : List Cell) :
    WellKept (cells.foldl (Threats.refresh s) t) := by
  induction cells generalizing t with
  | nil => exact h
  | cons c cells ih => exact ih (h.refresh s c)

/-- **After a round of evaluations** the cells that had their turn are settled, and so are those
that were settled before. -/
lemma settled_foldl_refresh (h : WellKept t) {cells : List Cell}
    (ha : a ∈ cells ∨ Settled s t a) : Settled s (cells.foldl (refresh s) t) a := by
  induction cells generalizing t with
  | nil => exact ha.resolve_left List.not_mem_nil
  | cons c cells ih =>
      refine ih (h.refresh s c) ?_
      by_cases hac : a = c
      · subst hac
        exact .inr (settled_refresh h s a)
      · rcases ha with ha | ha
        · exact .inl ((List.mem_cons.mp ha).resolve_left hac)
        · exact .inr (ha.refresh h hac)

/-! ### A stone on a cell -/

lemma WellKept.clear (h : WellKept t) (c : Cell) :
    WellKept ((t.modifyRecord c .black fun _ => []).modifyRecord c .white fun _ => []) :=
  (h.modifyRecord_of_subset c .black fun l => List.nil_subset l).modifyRecord_of_subset c .white
    fun l => List.nil_subset l

lemma WellKept.occupy (h : WellKept t) (c : Cell) : WellKept (t.occupy c) :=
  (((h.clear c).forget c).setAttack c .black Priority.none).setAttack c .white Priority.none

lemma attackOf_occupy (t : Threats) (c e : Cell) (side : Color) :
    (t.occupy c).attackOf e side = if e = c then Priority.none else t.attackOf e side := by
  rw [occupy, attackOf_setAttack, attackOf_setAttack, attackOf_forget]
  by_cases he : e = c <;> cases side <;> simp only [he] <;> rfl

/-- A stone empties the records of its cell and ends the entries that the cell had elsewhere. -/
lemma WellKept.entriesOn_occupy (h : WellKept t) (c : Cell) (k : AnchorLink) :
    (t.occupy c).entriesOn k =
      if k.cell = c then [] else (t.entriesOn k).filter (·.anchor ≠ c) := by
  have hforget := (h.clear c).entriesOn_forget c k
  show (Threats.forget _ c).entriesOn k = _
  rw [hforget, entriesOn_modifyRecord, entriesOn_modifyRecord]
  rcases k with ⟨e, side⟩
  by_cases he : e = c <;> cases side <;> simp [he]

lemma linksOf_occupy (t : Threats) (c e : Cell) :
    (t.occupy c).linksOf e = if e = c then [] else t.linksOf e := by
  show (forget _ c).linksOf e = _
  rw [linksOf_forget]
  rfl

end Threats

end FiveInRow
