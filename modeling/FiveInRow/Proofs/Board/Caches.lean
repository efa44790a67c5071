import Mathlib.Tactic
import FiveInRow.Proofs.Board.Outcome
import FiveInRow.Proofs.Board.Reach

/-!
The caches of a board against a computation from scratch. Everything is computed here from the
cells alone, with no regard to the moves that led to them, and compared with what the board keeps
while moves are made.

* `matchAt`, `attackFrom`, `Owed`, `defenceFrom`: the patterns of a cell, its attack priority, the
  entries of a record and its priority, from the cells alone;
* `Board.Played.evaluated`: while the game runs every cell of a played board is settled;
* `Board.caches_exact`: the caches of a running game are those of its cells.
-/

namespace FiveInRow

instance : Fintype Direction := ⟨⟨Direction.all, by decide⟩, Direction.mem_all⟩

instance : OrderBot Priority where
  bot := Priority.none
  bot_le := Fin.zero_le

/-! ### From the cells alone -/

/-- The strongest pattern that a colour makes by playing on a cell, along one direction. -/
def matchAt (o : Cell → Option Color) (c : Cell) (color : Color) (d : Direction) : Option Pattern :=
  (Window.ofCells o c color d).strongest?

/-- The attack priority of a cell: the best of its patterns, raised to vital if they are strong in
two or more directions. A cell with a stone has none. -/
def attackFrom (o : Cell → Option Color) (c : Cell) (color : Color) : Priority :=
  let best := Finset.univ.sup fun d =>
    ((matchAt o c color d).map Pattern.priority).getD Priority.none
  let strong := Finset.univ.filter fun d =>
    ((matchAt o c color d).any fun p => Priority.high ≤ p.priority) = true
  if o c ≠ none then Priority.none
  else if 2 ≤ strong.card then best ⊔ Priority.vital
  else best

/-- The defender's record at a cell owes an entry to an empty anchor and a direction, where the
attacker's strongest pattern has a defence cell that is the cell of the record. -/
def Owed (o : Cell → Option Color) (c : Cell) (defender : Color) (e : DefenceEntry) : Prop :=
  ∃ (a : Cell) (d : Direction) (p : Pattern) (k : Fin 4) (n : ℤ),
    o a = none ∧ matchAt o a defender.other d = some p ∧ p.defence[k.val]? = some n ∧
      a.offset d.step n = some c ∧ e = ⟨p.ref k d, a⟩

/-- The priority of a record: its most urgent entry, raised to vital if two strong entries are of
different groups. -/
def defenceFrom (entries : Finset DefenceEntry) : Priority :=
  let best := entries.sup fun e => e.pattern.priority
  if ∃ e ∈ entries, ∃ f ∈ entries, Priority.high ≤ e.pattern.priority ∧
      Priority.high ≤ f.pattern.priority ∧ e.pattern.group ≠ f.pattern.group
  then best ⊔ Priority.vital
  else best

/-! ### Priorities -/

lemma Priority.max_eq_sup (p q : Priority) : p.max q = p ⊔ q := by
  rw [Priority.max]
  split_ifs with h
  · exact (sup_eq_right.mpr h).symm
  · exact (sup_eq_left.mpr (le_of_not_ge h)).symm

lemma foldl_max_eq_sup {α : Type} [DecidableEq α] (f : α → Priority) (l : List α) :
    l.foldl (fun best x => best.max (f x)) Priority.none = l.toFinset.sup f := by
  have key : ∀ b, l.foldl (fun best x => best.max (f x)) b = b ⊔ l.toFinset.sup f := by
    induction l with
    | nil => intro b; simp
    | cons x l ih =>
        intro b
        rw [List.foldl_cons, ih, List.toFinset_cons, Finset.sup_insert, Priority.max_eq_sup,
          sup_assoc]
  rw [key]
  exact bot_sup_eq _

/-- A list has two different members exactly if one differs from the first. -/
lemma isFork_iff (l : List DefenceEntry) :
    DefenceRecord.isFork l = true ↔
      ∃ e ∈ l, ∃ f ∈ l, Priority.high ≤ e.pattern.priority ∧
        Priority.high ≤ f.pattern.priority ∧ e.pattern.group ≠ f.pattern.group := by
  have hmem : ∀ g, g ∈ DefenceRecord.strongGroups l ↔
      ∃ e ∈ l, Priority.high ≤ e.pattern.priority ∧ e.pattern.group = g := by
    intro g
    simp only [DefenceRecord.strongGroups, List.mem_map, List.mem_filter, decide_eq_true_eq,
      and_assoc]
  have hfork : DefenceRecord.isFork l = true ↔
      ∃ g ∈ DefenceRecord.strongGroups l, ∃ g' ∈ DefenceRecord.strongGroups l, g ≠ g' := by
    rw [DefenceRecord.isFork]
    cases DefenceRecord.strongGroups l with
    | nil => simp
    | cons g rest =>
        rw [List.any_eq_true]
        constructor
        · rintro ⟨g', hg', hne⟩
          exact ⟨g', List.mem_cons_of_mem _ hg', g, List.mem_cons_self .., by simpa using hne⟩
        · rintro ⟨x, hx, y, hy, hxy⟩
          by_contra hno
          have hall : ∀ z ∈ g :: rest, z = g := by
            intro z hz
            rcases List.mem_cons.mp hz with rfl | hz
            · rfl
            · by_contra hzg
              exact hno ⟨z, hz, by simpa using hzg⟩
          exact hxy ((hall x hx).trans (hall y hy).symm)
  rw [hfork]
  constructor
  · rintro ⟨g, hg, g', hg', hne⟩
    obtain ⟨e, he, hehigh, rfl⟩ := (hmem g).mp hg
    obtain ⟨f, hf, hfhigh, rfl⟩ := (hmem g').mp hg'
    exact ⟨e, he, f, hf, hehigh, hfhigh, hne⟩
  · rintro ⟨e, he, f, hf, hehigh, hfhigh, hne⟩
    exact ⟨_, (hmem _).mpr ⟨e, he, hehigh, rfl⟩, _, (hmem _).mpr ⟨f, hf, hfhigh, rfl⟩, hne⟩

/-- The worth that a record computes for its entries is their priority. -/
lemma worth_eq_defenceFrom (l : List DefenceEntry) :
    DefenceRecord.worth l = defenceFrom l.toFinset := by
  rw [DefenceRecord.worth, defenceFrom, foldl_max_eq_sup]
  simp only [List.mem_toFinset, ← isFork_iff, Priority.max_eq_sup]

/-- The words find the pattern that the cells show. -/
lemma Stones.Mirrored.strongest?_eq {s : Stones} (hm : s.Mirrored) (c : Cell) (color : Color)
    (d : Direction) : s.strongest? c color d = matchAt s.get c color d := by
  rw [Stones.strongest?_eq_window, hm.window_eq, matchAt]

/-- The worth of the patterns of a cell is its attack priority. -/
lemma attackWorth_patternsAt {s : Stones} (hm : s.Mirrored) {c : Cell} (hc : s.get c = none)
    (color : Color) :
    Threats.attackWorth (Threats.patternsAt s c color) = attackFrom s.get c color := by
  have hbest : (Threats.patternsAt s c color).foldl (fun best f => best.max f.2.priority)
      Priority.none = Finset.univ.sup fun d =>
        ((matchAt s.get c color d).map Pattern.priority).getD Priority.none := by
    have hlist : (Finset.univ : Finset Direction) = Direction.all.toFinset := by decide
    rw [Threats.patternsAt, List.foldl_filterMap, hlist, ← foldl_max_eq_sup]
    congr 1
    funext best d
    rw [hm.strongest?_eq]
    cases matchAt s.get c color d with
    | none => exact ((Priority.max_eq_sup best _).trans (sup_bot_eq best)).symm
    | some p => rfl
  have hcount : (Threats.patternsAt s c color).countP (fun f => Priority.high ≤ f.2.priority) =
      (Finset.univ.filter fun d =>
        ((matchAt s.get c color d).any fun p => Priority.high ≤ p.priority) = true).card := by
    rw [Threats.patternsAt, List.countP_filterMap]
    show _ = (Direction.all.filter _).length
    rw [← List.countP_eq_length_filter]
    refine List.countP_congr fun d _ => ?_
    rw [hm.strongest?_eq]
    cases hp : matchAt s.get c color d <;> simp [hp]
  rw [Threats.attackWorth, attackFrom, hbest, hcount, if_neg (not_not.mpr hc),
    Priority.max_eq_sup]

/-! ### Entries -/

lemma Pattern.defence_nodup {p : Pattern} (hp : p ∈ patterns) :
    p.defence.Nodup ∧ p.defence.length ≤ 4 := by
  have hall : ∀ p ∈ patterns, p.defence.Nodup ∧ p.defence.length ≤ 4 := by decide
  exact hall p hp

/-- A reference names its pattern. -/
lemma Pattern.pattern?_ref {p : Pattern} (hp : p ∈ patterns) (k : Fin 4) (d : Direction) :
    (p.ref k d).pattern? = some p := by
  have hall : ∀ p ∈ patterns, patterns.toArray[(Fin.ofNat 128 p.id).val]? = some p := by decide
  rw [PatternRef.pattern?, PatternRef.table, ref, hall p hp]

namespace Threats

variable {s : Stones} {t : Threats} {a : Cell}

/-- The entries of a pattern are on different cells. -/
lemma nodup_entriesOf (a : Cell) (d : Direction) {p : Pattern} (hp : p ∈ patterns) :
    (entriesOf a d p).Nodup := by
  have hdistinct : p.defence.zipIdx.Pairwise fun x y => x.1 ≠ y.1 := by
    rw [← List.pairwise_map, List.zipIdx_map_fst]
    exact (Pattern.defence_nodup hp).1
  rw [entriesOf, List.Nodup, List.pairwise_filterMap]
  refine hdistinct.imp ?_
  rintro ⟨m, i⟩ ⟨n, j⟩ hmn x hx y hy rfl
  obtain ⟨e, he, rfl⟩ := Option.map_eq_some_iff.mp hx
  obtain ⟨f, hf, hfe⟩ := Option.map_eq_some_iff.mp hy
  obtain rfl : f = e := congrArg Prod.fst hfe
  have hm := (Direction.offset_eq_some_iff.mp he).2
  have hn := (Direction.offset_eq_some_iff.mp hf).2
  exact hmn (by show m = n; omega)

/-- A cell owes no entry twice. -/
lemma nodup_due (s : Stones) (a : Cell) : (due s a).Nodup := by
  have hfor : ∀ color, (dueFor s a color).Nodup := by
    intro color
    rw [dueFor, List.nodup_flatMap]
    constructor
    · intro f hf
      refine (nodup_entriesOf a f.1 (Stones.mem_patterns (mem_patternsAt.mp hf))).map ?_
      rintro ⟨e, x⟩ ⟨e', x'⟩ h
      simpa using h
    · rw [patternsAt, List.pairwise_filterMap]
      have hall : Direction.all.Nodup := by decide
      refine hall.imp ?_
      rintro d d' hdd f hf f' hf'
      obtain ⟨p, -, rfl⟩ := Option.map_eq_some_iff.mp hf
      obtain ⟨p', -, rfl⟩ := Option.map_eq_some_iff.mp hf'
      intro x hx hx'
      obtain ⟨y, hy, rfl⟩ := List.mem_map.mp hx
      obtain ⟨y', hy', hyy⟩ := List.mem_map.mp hx'
      obtain ⟨_, _, -, -, hd⟩ := mem_entriesOf.mp hy
      obtain ⟨_, _, -, -, hd'⟩ := mem_entriesOf.mp hy'
      have hdir := congrArg (fun z => z.2.pattern.direction) hyy
      simp only [hd, hd'] at hdir
      exact hdd hdir.symm
  rw [due]
  split_ifs
  · refine List.Nodup.append (hfor .black) (hfor .white) ?_
    intro x hb hw
    obtain ⟨_, _, -, -, hb⟩ := mem_dueFor.mp hb
    obtain ⟨_, _, -, -, hw⟩ := mem_dueFor.mp hw
    rw [hb] at hw
    cases hw
  · exact List.nodup_nil

/-- What an empty cell owes to a record. -/
lemma mem_due {k : AnchorLink} {e : DefenceEntry} :
    (k, e) ∈ due s a ↔
      s.isEmpty a = true ∧ ∃ d p, s.strongest? a k.side.other d = some p ∧
        (k.cell, e) ∈ entriesOf a d p := by
  have hfor : ∀ color, (k, e) ∈ dueFor s a color ↔
      k.side = color.other ∧ ∃ d p, s.strongest? a color d = some p ∧
        (k.cell, e) ∈ entriesOf a d p := by
    intro color
    rw [mem_dueFor]
    constructor
    · rintro ⟨d, p, hp, he, hk⟩
      exact ⟨hk, d, p, hp, he⟩
    · rintro ⟨hk, d, p, hp, he⟩
      exact ⟨d, p, hp, he, hk⟩
  rw [due]
  split_ifs with hs
  · rw [List.mem_append, hfor, hfor]
    cases k.side <;> simp [Color.other, hs]
  · simp [hs]

/-- In a settled table a record holds no entry twice. -/
lemma nodup_entriesOn (hs : ∀ a, Settled s t a) (k : AnchorLink) : (t.entriesOn k).Nodup := by
  have hpaid : ∀ a, (((due s a).filter (·.1 = k)).map (·.2)).Nodup := by
    intro a
    refine List.Nodup.map_on ?_ ((nodup_due s a).filter _)
    intro x hx y hy hxy
    have hxk := (List.mem_filter.mp hx).2
    have hyk := (List.mem_filter.mp hy).2
    rw [decide_eq_true_eq] at hxk hyk
    exact Prod.ext (hxk.trans hyk.symm) hxy
  rw [List.nodup_iff_count_le_one]
  intro e
  have hcount : ((t.entriesOn k).filter (·.anchor = e.anchor)).count e = (t.entriesOn k).count e :=
    List.count_filter (by simp)
  rw [← hcount, (hs e.anchor).entries]
  exact List.nodup_iff_count_le_one.mp (hpaid e.anchor) e

/-- In a settled table a record holds exactly what the cells owe it. -/
lemma mem_entriesOn (hs : ∀ a, Settled s t a) {k : AnchorLink} {e : DefenceEntry} :
    e ∈ t.entriesOn k ↔ (k, e) ∈ due s e.anchor := by
  have hown : e ∈ t.entriesOn k ↔ e ∈ (t.entriesOn k).filter (·.anchor = e.anchor) := by
    simp
  rw [hown, (hs e.anchor).entries, List.mem_map]
  constructor
  · rintro ⟨x, hx, rfl⟩
    obtain ⟨hx, hk⟩ := List.mem_filter.mp hx
    rw [decide_eq_true_eq] at hk
    rwa [← hk]
  · intro h
    exact ⟨(k, e), List.mem_filter.mpr ⟨h, by simp⟩, rfl⟩

/-- The entries of a record in a settled table, from the cells alone. -/
lemma mem_entriesOn_iff_owed (hs : ∀ a, Settled s t a) (hm : s.Mirrored) {c : Cell} {side : Color}
    {e : DefenceEntry} : e ∈ t.entriesOn ⟨c, side⟩ ↔ Owed s.get c side e := by
  rw [mem_entriesOn hs, mem_due, Stones.isEmpty_iff]
  constructor
  · rintro ⟨hempty, d, p, hp, he⟩
    obtain ⟨k, n, hk, hn, hek⟩ := mem_entriesOf.mp he
    have hlen := (Pattern.defence_nodup (Stones.mem_patterns hp)).2
    have hk4 : k < 4 := by
      obtain ⟨hlt, -⟩ := List.getElem?_eq_some_iff.mp hk
      omega
    have hfin : Fin.ofNat 4 k = ⟨k, hk4⟩ := Fin.ext (Nat.mod_eq_of_lt hk4)
    rw [hfin] at hek
    exact ⟨e.anchor, d, p, ⟨k, hk4⟩, n, hempty, by rw [← hm.strongest?_eq, hp], hk, hn, hek⟩
  · rintro ⟨a, d, p, k, n, hempty, hp, hk, hn, rfl⟩
    refine ⟨hempty, d, p, by rw [← hp, ← hm.strongest?_eq],
      mem_entriesOf.mpr ⟨k.val, n, hk, hn, ?_⟩⟩
    rw [Fin.ofNat_val_eq_self]

lemma settled_empty (a : Cell) : Settled Stones.empty empty a := by
  have hwindow : ∀ color d, Stones.empty.strongest? a color d = none := by
    intro color d
    have hown : (Stones.empty.window a color d).own = 0 := by
      simp [Stones.window, Window.around, Stones.line, Stones.empty, LineTable.word_empty,
        Window.slice]
    rw [Stones.strongest?_eq_window, Window.strongest?, if_pos hown]
  have hnone : ∀ color, patternsAt Stones.empty a color = [] := by
    intro color
    rw [List.eq_nil_iff_forall_not_mem]
    intro f hf
    rw [mem_patternsAt, hwindow] at hf
    cases hf
  have hdue : due Stones.empty a = [] := by
    rw [due, dueFor, dueFor, hnone, hnone]
    split_ifs <;> rfl
  refine ⟨fun color => ?_, fun k => ?_, ?_⟩
  · rw [worthAt, hnone]
    have : empty.attackOf a color = Priority.none := by simp [attackOf, empty]
    rw [this]
    split_ifs <;> rfl
  · have : empty.entriesOn k = [] := by simp [entriesOn, recordOf, empty, DefenceRecord.empty]
    rw [this, hdue]
    rfl
  · have : empty.linksOf a = [] := by simp [linksOf, empty]
    rw [this, hdue]
    rfl

end Threats

namespace Board

variable {b : Board} {c : Cell}

/-- A game that still runs after a move has evaluated it. -/
lemma place_running {color : Color} (h : (b.place c color).status = .inProgress) :
    (b.place c color).threats = reevaluate (b.stones.put c color) b.threats c ∧
      (b.place c color).frontier =
        widen (b.stones.put c color)
          (if b.moves.isEmpty then CellSet.empty else b.frontier.put c false) c := by
  rw [place] at h ⊢
  split_ifs at h ⊢
  · exact ⟨rfl, rfl⟩
  · exact ⟨rfl, rfl⟩

/-- A move evaluates the board again, or ends the game and leaves the threats alone. -/
lemma threats_place (b : Board) (c : Cell) (color : Color) :
    (b.place c color).threats = b.threats ∨
      (b.place c color).threats = reevaluate (b.stones.put c color) b.threats c := by
  simp only [place]
  generalize (if b.moves.isEmpty then CellSet.empty else b.frontier.put c false) = frontier
  split_ifs
  · exact .inl rfl
  · exact .inl rfl
  · exact .inr rfl

/-- The table of threats of a played board is well kept, also when the game has ended. -/
lemma Played.wellKept (h : Played b) : b.threats.WellKept := by
  induction h with
  | new => exact Threats.wellKept_empty
  | @place b c color _ _ ih =>
      rcases b.threats_place c color with heq | heq
      · rw [heq]
        exact ih
      · rw [heq]
        exact (ih.occupy c).foldl_refresh _ _

/-- **While the game runs every cell is settled** on a played board. -/
lemma Played.evaluated (h : Played b) (hs : b.status = .inProgress) :
    b.threats.WellKept ∧ ∀ a, Threats.Settled b.stones b.threats a := by
  induction h with
  | new => exact ⟨Threats.wellKept_empty, Threats.settled_empty⟩
  | @place b c color hb ha ih =>
      obtain ⟨hrun, -⟩ := accepts_iff.mp ha
      obtain ⟨hkept, hsettled⟩ := ih hrun
      rw [(place_running hs).1, stones_place]
      refine ⟨(hkept.occupy c).foldl_refresh _ _, fun a => ?_⟩
      exact Threats.settled_reevaluate hsettled hkept c color a

/-- While the game runs an attack priority is the one that the cells give. -/
lemma Played.attackOf_eq (h : Played b) (hs : b.status = .inProgress) (c : Cell) (color : Color) :
    b.attackOf c (some color) = attackFrom b.get c color := by
  obtain ⟨-, hsettled⟩ := h.evaluated hs
  show b.threats.attackOf c color = _
  rw [(hsettled c).attack, Threats.worthAt]
  cases hc : b.stones.get c with
  | none =>
      rw [if_pos (Stones.isEmpty_iff.mpr hc)]
      exact attackWorth_patternsAt h.judged.mirrored hc color
  | some side =>
      have hne : b.get c ≠ none := by
        show b.stones.get c ≠ none
        rw [hc]
        exact Option.some_ne_none side
      rw [if_neg fun he => hne (Stones.isEmpty_iff.mp he), attackFrom, if_pos hne]

/-- While the game runs a record holds the entries that the cells owe it. -/
lemma Played.mem_recordOf_iff (h : Played b) (hs : b.status = .inProgress) {c : Cell}
    {color : Color} {e : DefenceEntry} :
    e ∈ (b.threats.recordOf c color).entries ↔ Owed b.get c color e :=
  Threats.mem_entriesOn_iff_owed (h.evaluated hs).2 h.judged.mirrored

/-- While the game runs the priority of a record is that of its entries. -/
lemma Played.recordOf_priority (h : Played b) (hs : b.status = .inProgress) (c : Cell)
    (color : Color) :
    (b.threats.recordOf c color).priority =
      defenceFrom (b.threats.recordOf c color).entries.toFinset := by
  rw [← worth_eq_defenceFrom]
  exact (h.evaluated hs).1.weighed c color

/-- **The caches are exact.** While the game runs, on every board that calls lead to, the attack
priority of every cell is the one computed from the cells alone; every defence record holds, once
each, exactly the entries that the cells owe it; and its priority is that of its entries. -/
theorem caches_exact (h : Reachable b) (hs : b.status = .inProgress) (c : Cell) (color : Color) :
    b.attackOf c (some color) = attackFrom b.get c color ∧
    (b.threats.recordOf c color).entries.Nodup ∧
    (∀ e, e ∈ (b.threats.recordOf c color).entries ↔ Owed b.get c color e) ∧
    (b.threats.recordOf c color).priority =
      defenceFrom (b.threats.recordOf c color).entries.toFinset := by
  obtain ⟨-, hsettled⟩ := h.played.evaluated hs
  exact ⟨h.played.attackOf_eq hs c color, Threats.nodup_entriesOn hsettled ⟨c, color⟩,
    fun e => h.played.mem_recordOf_iff hs, h.played.recordOf_priority hs c color⟩

/-- Black has four stones at the start of the first row: what black gains on the fifth cell, and
what white stops there. -/
theorem caches_exact_rowGame :
    ∃ b, b = (rowGame.take 8).foldl after empty ∧ b.status = .inProgress ∧
      b.attackOf ⟨4⟩ (some .white) = attackFrom b.get ⟨4⟩ .white ∧
      (b.threats.recordOf ⟨4⟩ .white).entries.Nodup ∧
      (∀ e, e ∈ (b.threats.recordOf ⟨4⟩ .white).entries ↔ Owed b.get ⟨4⟩ .white e) ∧
      (b.threats.recordOf ⟨4⟩ .white).priority =
        defenceFrom (b.threats.recordOf ⟨4⟩ .white).entries.toFinset := by
  have hr : Reachable ((rowGame.take 8).foldl after empty) := Reachable.new.calls _
  have hs : ((rowGame.take 8).foldl after empty).status = .inProgress := by decide +kernel
  exact ⟨_, rfl, hs, caches_exact hr hs ⟨4⟩ .white⟩

end Board

end FiveInRow
