import Mathlib.Tactic
import FiveInRow.Proofs.Board.Threats
import FiveInRow.Proofs.Board.Reachable
import FiveInRow.Proofs.Board.Stones

/-!
How far a stone reaches. Windows and defence cells lie within four steps on a line, so a stone
matters only to the cells that a move evaluates again.

* `LineView.reach_exact`: what is found on a line depends on the nine bits around the candidate;
* `Cell.InReach`: two cells are at most four steps apart on a line;
* `Threats.target_inReach`: a cell owes entries only to cells in its reach;
* `Threats.due_put`: a stone out of reach leaves alone what a cell owes;
* `Board.mem_seen`: a move finds every empty cell in its reach on one of the eight rays;
* `Threats.Settled.occupy`: cells out of reach stay settled;
* `Threats.settled_reevaluate`: after the evaluation of a move every cell is settled again.
-/

namespace FiveInRow

/-- Two cells are one to four steps apart on a line. -/
def Cell.InReach (c a : Cell) : Prop :=
  ∃ (d : Direction) (n : ℤ), -4 ≤ n ∧ n ≤ 4 ∧ n ≠ 0 ∧ c.offset d.step n = some a

lemma Cell.InReach.symm {c a : Cell} (h : c.InReach a) : a.InReach c := by
  obtain ⟨d, n, h₁, h₂, h₃, h₄⟩ := h
  exact ⟨d, -n, by omega, by omega, by omega, Cell.offset_symm h₄⟩

/-- No pattern can be stopped more than four steps from its anchor. -/
lemma Pattern.defence_le {p : Pattern} (hp : p ∈ patterns) {n : ℤ} (hn : n ∈ p.defence) :
    -4 ≤ n ∧ n ≤ 4 := by
  have hall : ∀ p ∈ patterns, ∀ n ∈ p.defence, -4 ≤ n ∧ n ≤ 4 := by decide
  exact hall p hp n hn

lemma Stones.mem_patterns {s : Stones} {c : Cell} {color : Color} {d : Direction} {p : Pattern}
    (h : s.strongest? c color d = some p) : p ∈ patterns :=
  Window.mem_patterns ((s.strongest?_eq_window c color d).symm.trans h)

/-! ### What a pattern can see -/

/-- A stone that is farther away along a line changes no pattern there. -/
lemma Stones.strongest?_put_of_far {s : Stones} {a c : Cell} {d : Direction} (color side : Color)
    (hfar : ∀ n : ℤ, n.natAbs ≤ Board.refreshReach → c.offset d.step n ≠ some a) :
    (s.put a color).strongest? c side d = s.strongest? c side d := by
  have hbit := d.bit_lt c
  have hline : ∀ other k, k ≤ d.bit c + 4 → d.bit c ≤ k + 4 →
      ((s.put a color).line other d (d.line c)).testBit k =
        (s.line other d (d.line c)).testBit k := by
    intro other k hhigh hlow
    rw [line_put]
    split_ifs with hsame
    · have hne : d.bit a ≠ k := by
        rintro rfl
        refine hfar ((d.bit a : ℤ) - d.bit c) ?_ ?_
        · rw [Board.refreshReach]
          omega
        · rw [Direction.offset_eq_some_iff]
          exact ⟨hsame.2.symm, by ring⟩
      rw [Nat.testBit_or, Nat.one_shiftLeft, Nat.testBit_two_pow, decide_eq_false hne,
        Bool.or_false]
    · rfl
  rw [strongest?, strongest?]
  refine (LineView.alike_ofWords (by omega) fun k hk hhigh hlow => ⟨?_, ?_, rfl⟩).strongest?_eq
    (LineView.inWord_ofWords _ _ _ (by omega)) (LineView.inWord_ofWords _ _ _ (by omega))
  · rw [UInt32.toNat_ofNat', UInt32.toNat_ofNat', Nat.testBit_mod_two_pow, Nat.testBit_mod_two_pow,
      hline _ _ hhigh hlow]
  · rw [UInt32.toNat_ofNat', UInt32.toNat_ofNat', Nat.testBit_mod_two_pow, Nat.testBit_mod_two_pow,
      hline _ _ hhigh hlow]

namespace LineView

/-- **What is found at a bit depends on the nine bits around it, and the test for support hides
nothing.** For any words of own stones, of enemy stones and of the board: the pattern that is found
is the first one of the table that is shown; every bit that is read lies inside the words; views
that are alike at nine bits, wherever on their lines, show the same pattern. So a stone of either
colour farther away than the cells that a move evaluates again changes nothing, on the words and on
the board. -/
theorem reach_exact (own enemy board : UInt32) (bit : Fin 32) :
    let v := ofWords own enemy board bit
    v.strongest? = patterns.find? (fun p => v.shows p.laid) ∧
    (reach ≤ v.pos ∧ v.pos + reach < 64 ∧
      ∀ p ∈ laidPatterns, ∀ m ∈ [p.stones, p.free, p.walls],
        0 ≤ m.offset v.pos ∧ m.offset v.pos < 64 ∧
          ∀ k, m.mask.toNat.testBit k = true → m.offset v.pos + k < 64) ∧
    (∀ own' enemy' board' (bit' : Fin 32), v.Alike (ofWords own' enemy' board' bit') →
      v.strongest? = (ofWords own' enemy' board' bit').strongest?) ∧
    (∀ far : Fin 32, far.val + Board.refreshReach < bit ∨ bit + Board.refreshReach < far.val →
      (ofWords (withStone own far) enemy board bit).strongest? = v.strongest? ∧
      (ofWords own (withStone enemy far) board bit).strongest? = v.strongest?) ∧
    ∀ (s : Stones) (a c : Cell) (d : Direction) (color side : Color),
      (∀ n : ℤ, n.natAbs ≤ Board.refreshReach → c.offset d.step n ≠ some a) →
      (s.put a color).strongest? c side d = s.strongest? c side d := by
  have hbit := bit.isLt
  have hin := inWord_ofWords own enemy board hbit
  refine ⟨hin.strongest?_eq_find?, ⟨hin.low, hin.high, fun p hp m hm => ?_⟩,
    fun own' enemy' board' bit' halike =>
      halike.strongest?_eq hin (inWord_ofWords own' enemy' board' bit'.isLt),
    fun far hfar => strongest?_withStone hbit far.isLt hfar,
    fun s a c d color side hfar => Stones.strongest?_put_of_far color side hfar⟩
  obtain ⟨hlow, hhigh, hread⟩ := within_of_testBit hp hm
  have hpos := hin.low
  have hpos' := hin.high
  rw [Component.offset]
  refine ⟨by omega, by omega, fun k hk => ?_⟩
  have := hread k hk
  omega

/-- Three stones in a row show the same pattern three cells farther on, and a stone in the last cell
of the row changes nothing. -/
theorem reach_exact_threeStones :
    (ofWords 0b11100000 0 0x7ffff 4).strongest? = (ofWords 0b11100000000 0 0x7ffff 7).strongest? ∧
    (ofWords (withStone 0b11100000 18) 0 0x7ffff 4).strongest? =
      (ofWords 0b11100000 0 0x7ffff 4).strongest? ∧
    ((Stones.empty.put ⟨180⟩ .black).put ⟨189⟩ .white).strongest? ⟨184⟩ .black .horizontal =
      (Stones.empty.put ⟨180⟩ .black).strongest? ⟨184⟩ .black .horizontal := by
  obtain ⟨-, -, halike, hfar, hput⟩ := reach_exact 0b11100000 0 0x7ffff 4
  refine ⟨halike 0b11100000000 0 0x7ffff 7 ⟨?_, ?_, ?_⟩, (hfar 18 (by decide)).1,
    hput _ ⟨189⟩ ⟨184⟩ .horizontal .white .black fun n hn hoffset => ?_⟩
  · decide +kernel
  · decide +kernel
  · decide +kernel
  · rw [Direction.offset_eq_some_iff, Board.refreshReach] at *
    have hbits : (Direction.horizontal.bit ⟨189⟩ : ℤ) = Direction.horizontal.bit ⟨184⟩ + 5 := by
      decide
    omega

end LineView

namespace Threats

variable {s : Stones} {t : Threats} {a c : Cell} {color side : Color}

lemma mem_patternsAt {f : Direction × Pattern} :
    f ∈ patternsAt s a color ↔ s.strongest? a color f.1 = some f.2 := by
  rw [patternsAt, List.mem_filterMap]
  constructor
  · rintro ⟨d, -, hd⟩
    obtain ⟨p, hp, rfl⟩ := Option.map_eq_some_iff.mp hd
    exact hp
  · intro h
    exact ⟨f.1, Direction.mem_all f.1, by rw [h]; rfl⟩

/-- The entries of a pattern, one for each defence cell on the board. -/
lemma mem_entriesOf {d : Direction} {p : Pattern} {x : Cell × DefenceEntry} :
    x ∈ entriesOf a d p ↔
      ∃ (k : ℕ) (n : ℤ), p.defence[k]? = some n ∧ a.offset d.step n = some x.1 ∧
        x.2 = ⟨p.ref (Fin.ofNat 4 k) d, a⟩ := by
  rw [entriesOf, List.mem_filterMap]
  constructor
  · rintro ⟨⟨n, k⟩, hk, hx⟩
    obtain ⟨e, he, rfl⟩ := Option.map_eq_some_iff.mp hx
    rw [List.mk_mem_zipIdx_iff_getElem?] at hk
    exact ⟨k, n, hk, he, rfl⟩
  · rintro ⟨k, n, hk, hn, hx⟩
    refine ⟨(n, k), List.mk_mem_zipIdx_iff_getElem?.mpr hk, ?_⟩
    show (a.offset d.step n).map (fun e => (e, DefenceEntry.mk (p.ref (Fin.ofNat 4 k) d) a)) =
      some x
    rw [hn, Option.map_some, ← hx]

lemma mem_dueFor {x : AnchorLink × DefenceEntry} :
    x ∈ dueFor s a color ↔
      ∃ d p, s.strongest? a color d = some p ∧ (x.1.cell, x.2) ∈ entriesOf a d p ∧
        x.1.side = color.other := by
  rw [dueFor, List.mem_flatMap]
  constructor
  · rintro ⟨f, hf, hx⟩
    obtain ⟨e, he, rfl⟩ := List.mem_map.mp hx
    exact ⟨f.1, f.2, mem_patternsAt.mp hf, he, rfl⟩
  · rintro ⟨d, p, hp, he, hside⟩
    refine ⟨(d, p), mem_patternsAt.mpr hp, List.mem_map.mpr ⟨_, he, ?_⟩⟩
    rw [← hside]

/-- A cell owes entries only to itself and to cells in its reach. -/
lemma target_inReach {x : AnchorLink × DefenceEntry} (h : x ∈ due s a) :
    x.1.cell = a ∨ a.InReach x.1.cell := by
  have key : ∀ color, x ∈ dueFor s a color → x.1.cell = a ∨ a.InReach x.1.cell := by
    intro color hx
    obtain ⟨d, p, hp, he, -⟩ := mem_dueFor.mp hx
    obtain ⟨k, n, hk, hn, -⟩ := mem_entriesOf.mp he
    obtain ⟨h₁, h₂⟩ := Pattern.defence_le (Stones.mem_patterns hp) (List.mem_of_getElem? hk)
    by_cases h0 : n = 0
    · subst h0
      rw [Cell.offset_zero] at hn
      exact .inl (Option.some.inj hn).symm
    · exact .inr ⟨d, n, h₁, h₂, h0, hn⟩
  rw [due] at h
  split_ifs at h
  · rcases List.mem_append.mp h with h | h
    · exact key .black h
    · exact key .white h
  · cases h

/-- A stone out of reach changes no pattern of a cell. -/
lemma patternsAt_put (hac : a ≠ c) (hfar : ¬ c.InReach a) (color side : Color) :
    patternsAt (s.put c color) a side = patternsAt s a side := by
  have hstrong : ∀ d, (s.put c color).strongest? a side d = s.strongest? a side d := by
    intro d
    refine Stones.strongest?_put_of_far color side fun n hn he => ?_
    rw [Board.refreshReach] at hn
    by_cases h0 : n = 0
    · subst h0
      rw [Cell.offset_zero] at he
      exact hac (Option.some.inj he)
    · exact hfar (Cell.InReach.symm ⟨d, n, by omega, by omega, h0, he⟩)
  simp only [patternsAt, hstrong]

lemma isEmpty_put (hac : a ≠ c) : (s.put c color).isEmpty a = s.isEmpty a := by
  rw [Stones.isEmpty, Stones.get_put, if_neg hac, Stones.isEmpty]

/-- **A stone out of reach leaves alone what a cell owes.** -/
lemma due_put (hac : a ≠ c) (hfar : ¬ c.InReach a) (color : Color) :
    due (s.put c color) a = due s a := by
  simp only [due, dueFor, isEmpty_put hac, patternsAt_put hac hfar]

lemma worthAt_put (hac : a ≠ c) (hfar : ¬ c.InReach a) (color side : Color) :
    worthAt (s.put c color) a side = worthAt s a side := by
  simp only [worthAt, isEmpty_put hac, patternsAt_put hac hfar]

lemma due_of_not_isEmpty (h : s.isEmpty a = false) : due s a = [] := by
  rw [due, h, if_neg Bool.false_ne_true]

lemma worthAt_of_not_isEmpty (h : s.isEmpty a = false) (side : Color) :
    worthAt s a side = Priority.none := by
  rw [worthAt, h, if_neg Bool.false_ne_true]

/-- A cell with a stone is settled if it is worth nothing and has no entry and no link. -/
lemma settled_of_not_isEmpty (h : s.isEmpty a = false)
    (hattack : ∀ side, t.attackOf a side = Priority.none)
    (hentries : ∀ k, (t.entriesOn k).filter (·.anchor = a) = []) (hlinks : t.linksOf a = []) :
    Settled s t a where
  attack side := by rw [hattack, worthAt_of_not_isEmpty h]
  entries k := by rw [hentries, due_of_not_isEmpty h, List.filter_nil, List.map_nil]
  links := by rw [hlinks, due_of_not_isEmpty h, List.map_nil, List.reverse_nil]

/-- Entries of another anchor survive the stone, except in the records of its own cell. -/
lemma WellKept.filter_entriesOn_occupy (h : WellKept t) (hac : a ≠ c) (k : AnchorLink) :
    ((t.occupy c).entriesOn k).filter (·.anchor = a) =
      if k.cell = c then [] else (t.entriesOn k).filter (·.anchor = a) := by
  rw [h.entriesOn_occupy]
  split_ifs with hk
  · rfl
  · rw [List.filter_filter]
    refine List.filter_congr fun e _ => ?_
    by_cases he : e.anchor = a <;> simp [he, hac]

/-- An empty cell out of reach of a stone stays settled: it owes nothing to the stone's cell. -/
lemma Settled.occupy_of_far (hs : Settled s t a) (h : WellKept t) (hac : a ≠ c)
    (hfar : ¬ c.InReach a) (color : Color) : Settled (s.put c color) (t.occupy c) a := by
  refine ⟨fun side => ?_, fun k => ?_, ?_⟩
  · rw [attackOf_occupy, if_neg hac, hs.attack, worthAt_put hac hfar]
  · rw [h.filter_entriesOn_occupy hac, due_put hac hfar, hs.entries]
    split_ifs with hk
    · -- an entry in a record of the stone's cell would put the anchor in reach
      symm
      rw [List.map_eq_nil_iff, List.filter_eq_nil_iff]
      intro x hx hxk
      rw [decide_eq_true_eq] at hxk
      rcases target_inReach hx with htarget | htarget
      · rw [hxk, hk] at htarget
        exact hac htarget.symm
      · rw [hxk, hk] at htarget
        exact hfar htarget.symm
    · rfl
  · rw [linksOf_occupy, if_neg hac, hs.links, due_put hac hfar]

/-- **Cells out of reach of a stone stay settled**, and so do the cells with stones. -/
lemma Settled.occupy (hs : Settled s t a) (h : WellKept t) (color : Color)
    (hfar : c.InReach a → s.isEmpty a = false) : Settled (s.put c color) (t.occupy c) a := by
  by_cases hac : a = c
  · subst hac
    have hput : (s.put a color).isEmpty a = false := by
      rw [Stones.isEmpty, Stones.get_put, if_pos rfl]
      rfl
    refine settled_of_not_isEmpty hput (fun side => ?_) (fun k => ?_) ?_
    · rw [attackOf_occupy, if_pos rfl]
    · rw [h.entriesOn_occupy]
      split_ifs
      · rfl
      · simp [List.filter_filter]
    · rw [linksOf_occupy, if_pos rfl]
  · cases hempty : s.isEmpty a with
    | false =>
        have hdue := due_of_not_isEmpty hempty
        refine settled_of_not_isEmpty (by rw [isEmpty_put hac, hempty]) (fun side => ?_)
          (fun k => ?_) ?_
        · rw [attackOf_occupy, if_neg hac, hs.attack, worthAt_of_not_isEmpty hempty]
        · rw [h.filter_entriesOn_occupy hac, hs.entries, hdue]
          split_ifs <;> rfl
        · rw [linksOf_occupy, if_neg hac, hs.links, hdue]
          rfl
    | true =>
        refine hs.occupy_of_far h hac (fun hreach => ?_) color
        rw [hfar hreach] at hempty
        cases hempty

end Threats

namespace Board

variable {s : Stones} {a c : Cell}

lemma mem_rays {ray : List Cell} :
    ray ∈ rays c ↔
      ∃ d : Direction, ray = c.ray d.step 7 ∨ ray = c.ray (-d.step.1, -d.step.2) 7 := by
  rw [rays, List.mem_flatMap]
  constructor
  · rintro ⟨d, -, hd⟩
    exact ⟨d, by simpa using hd⟩
  · rintro ⟨d, hd⟩
    exact ⟨d, Direction.mem_all d, by simpa using hd⟩

/-- A cell in reach is one of the cells on a ray that are evaluated again. -/
lemma exists_ray_of_inReach (h : c.InReach a) : ∃ ray ∈ rays c, a ∈ ray.take refreshReach := by
  obtain ⟨d, n, h₁, h₂, h₃, hn⟩ := h
  rw [refreshReach]
  rcases lt_or_gt_of_ne h₃ with hneg | hpos
  · refine ⟨c.ray (-d.step.1, -d.step.2) 7, mem_rays.mpr ⟨d, .inr rfl⟩, ?_⟩
    rw [Cell.mem_take_ray (by omega)]
    refine ⟨(-n - 1).toNat, by omega, ?_⟩
    rw [Cell.offset_neg, ← hn]
    congr 1
    omega
  · refine ⟨c.ray d.step 7, mem_rays.mpr ⟨d, .inl rfl⟩, ?_⟩
    rw [Cell.mem_take_ray (by omega)]
    refine ⟨(n - 1).toNat, by omega, ?_⟩
    rw [← hn]
    congr 1
    omega

/-- The cells of a ray within reach are evaluated again if they are empty. -/
lemma mem_awakened {ray : List Cell} (ha : a ∈ ray.take refreshReach) (he : s.isEmpty a = true) :
    a ∈ awakened s ray := by
  rw [refreshReach] at ha
  rw [awakened, refreshReach]
  cases hb : behind? s ray with
  | none => exact List.mem_filter.mpr ⟨ha, he⟩
  | some behind =>
      match ray, ha, hb with
      | x :: y :: far, ha, hb =>
          have hy : s.isEmpty y = false := by
            rw [behind?] at hb
            by_contra hy
            rw [Bool.not_eq_false] at hy
            rw [if_pos hy] at hb
            cases hb
          simp only [List.take_succ_cons, List.mem_cons] at ha
          rcases ha with rfl | rfl | ha
          · exact List.mem_append_left _ (by simp [he])
          · rw [hy] at he
            cases he
          · by_cases hab : a = behind
            · subst hab
              exact List.mem_append_right _ (List.mem_cons_self ..)
            · refine List.mem_append_right _ (List.mem_cons_of_mem _ ?_)
              simpa [he, hab] using ha

/-- **A move sees every empty cell in its reach.** -/
lemma mem_seen (h : c.InReach a) (he : s.isEmpty a = true) :
    a ∈ (rays c).flatMap (awakened s) := by
  obtain ⟨ray, hray, ha⟩ := exists_ray_of_inReach h
  exact List.mem_flatMap.mpr ⟨ray, hray, mem_awakened ha he⟩

end Board

/-- **After the evaluation of a move every cell is settled again.** -/
lemma Threats.settled_reevaluate {s : Stones} {t : Threats} (hs : ∀ a, Settled s t a)
    (h : WellKept t) (c : Cell) (color : Color) (a : Cell) :
    Settled (s.put c color) (Board.reevaluate (s.put c color) t c) a := by
  rw [Board.reevaluate]
  refine settled_foldl_refresh (h.occupy c) ?_
  by_cases hseen : a ∈ (Board.rays c).flatMap (Board.awakened (s.put c color))
  · exact .inl (List.mem_append_left _ hseen)
  · refine .inr ((hs a).occupy h color fun hreach => ?_)
    by_contra hempty
    rw [Bool.not_eq_false] at hempty
    have hac : a ≠ c := by
      rintro rfl
      obtain ⟨d, n, -, -, hn, ha⟩ := hreach
      have := (Direction.offset_eq_some_iff.mp ha).2
      omega
    exact hseen (Board.mem_seen hreach (by rw [isEmpty_put hac, hempty]))

end FiveInRow
