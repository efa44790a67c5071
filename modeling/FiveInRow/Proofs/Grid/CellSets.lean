import Mathlib.Tactic
import FiveInRow.Grid.CellSet

/-!
A set of cells in six words is a finite set of cells.

Three algorithms run over the words: a walk clears the lowest flag again and again, a rank is found
by counting whole words first, and the number of members is the sum of the counts. All three are
about one list, the indices of the flags that are set (`CellSet.indicesOf`).

* `Flags.positions_eq_cons`: the lowest flag comes first, clearing it leaves the others;
* `CellSet.Walk.indices_eq`, `CellSet.nthOf?_eq`, `CellSet.count_eq`: the three algorithms;
* `CellSet.toList_eq`, `CellSet.nth?_eq`: a walk meets the members in index order, and a rank is a
  place in that order;
* `CellSet.Represents`: a set of cells holds the members of a finite set;
* `CellSet.represents_after`: it does so after any changes, and equal members mean equal words.
-/

namespace FiveInRow

lemma Cell.pairwise_all : Cell.all.Pairwise fun c d => c.index < d.index :=
  List.pairwise_map.mpr (List.pairwise_lt_finRange 361)

lemma Cell.ofIndex_index (c : Cell) : ofIndex c.index.val = c := by
  simp [ofIndex]

/-! ### Words of flags -/

namespace Flags

variable {w : Flags} {i k : ℕ}

/-- The flags of a word that are set, the lowest first. -/
def positions (w : Flags) : List ℕ := (List.range 64).filter w.getLsbD

lemma mem_positions : k ∈ w.positions ↔ w.getLsbD k = true := by
  rw [positions, List.mem_filter, List.mem_range]
  exact and_iff_right_of_imp BitVec.lt_of_getLsbD

lemma pairwise_positions (w : Flags) : w.positions.Pairwise (· < ·) :=
  List.pairwise_lt_range.filter _

lemma lt_of_mem_positions (h : k ∈ w.positions) : k < 64 :=
  BitVec.lt_of_getLsbD (mem_positions.mp h)

lemma count_eq (w : Flags) : w.count = w.positions.length := by
  -- the recursion of the count goes down from the highest flag
  have hdown : ∀ n, w.cpopNatRec n 0 = ((List.range n).filter w.getLsbD).length := by
    intro n
    induction n with
    | zero => rfl
    | succ n ih =>
        rw [BitVec.cpopNatRec_succ, BitVec.cpopNatRec_eq, ih, List.range_succ, List.filter_append,
          List.length_append]
        cases hn : w.getLsbD n <;> simp [hn]
  rw [count, BitVec.toNat_cpop, hdown, positions]

lemma lowest_lt (h : w ≠ 0#64) : w.lowest < 64 := by
  obtain ⟨k, hk, hset⟩ : ∃ k ∈ List.range 64, w.getLsbD k = true := by
    by_contra hall
    refine h (BitVec.eq_of_getLsbD_eq fun k hk => ?_)
    rw [BitVec.getLsbD_zero, Bool.eq_false_iff]
    exact fun hset => hall ⟨k, List.mem_range.mpr hk, hset⟩
  have hfound := List.findIdx_lt_length.mpr ⟨k, hk, hset⟩
  rwa [List.length_range] at hfound

lemma getLsbD_lowest (h : w ≠ 0#64) : w.getLsbD w.lowest = true := by
  have hlt : (List.range 64).findIdx w.getLsbD < (List.range 64).length := by
    rw [List.length_range]
    exact lowest_lt h
  have hset := List.findIdx_getElem (w := hlt)
  rwa [List.getElem_range] at hset

lemma getLsbD_of_lt_lowest (hi : i < w.lowest) : w.getLsbD i = false := by
  have hclear := List.not_of_lt_findIdx hi
  rwa [List.getElem_range] at hclear

/-- Below its lowest one digit, a number and its predecessor have no digit in common; above, they
have the same. -/
lemma testBit_and_pred {n t : ℕ} (hone : n.testBit t = true)
    (hzero : ∀ i < t, n.testBit i = false) (j : ℕ) :
    (n &&& (n - 1)).testBit j = (n.testBit j && decide (j ≠ t)) := by
  have hmod : n % 2 ^ t = 0 := by
    refine Nat.eq_of_testBit_eq fun i => ?_
    rw [Nat.testBit_mod_two_pow, Nat.zero_testBit]
    by_cases hi : i < t
    · rw [hzero i hi, Bool.and_false]
    · rw [decide_eq_false hi, Bool.false_and]
  obtain ⟨q, rfl⟩ := Nat.dvd_of_mod_eq_zero hmod
  have hshift (j : ℕ) : (2 ^ t * q).testBit j = (decide (t ≤ j) && q.testBit (j - t)) := by
    rw [Nat.mul_comm, Nat.testBit_mul_two_pow]
  have hodd : q % 2 = 1 := by
    rw [hshift, Nat.sub_self, Nat.testBit_zero, Bool.and_eq_true] at hone
    exact of_decide_eq_true hone.2
  have hpow : 0 < 2 ^ t := Nat.two_pow_pos t
  have hpred : 2 ^ t * q - 1 = 2 ^ t * (q - 1) + (2 ^ t - 1) := by
    have hq : q = (q - 1) + 1 := by omega
    have hmul : 2 ^ t * q = 2 ^ t * (q - 1) + 2 ^ t := by
      conv_lhs => rw [hq, Nat.mul_succ]
    omega
  rw [Nat.testBit_and, hpred, Nat.testBit_two_pow_mul_add _ (Nat.sub_lt hpow Nat.one_pos), hshift]
  rcases Nat.lt_trichotomy j t with hj | rfl | hj
  · simp [Nat.not_le.mpr hj]
  · have heven : (q - 1).testBit 0 = false := by
      rw [Nat.testBit_zero, decide_eq_false (by omega)]
    simp [heven]
  · obtain ⟨i, hi⟩ : ∃ i, j - t = i + 1 := ⟨j - t - 1, by omega⟩
    have hhalf : (q - 1) / 2 = q / 2 := by omega
    have hne : j ≠ t := by omega
    rw [if_neg (by omega), hi, Nat.testBit_succ, Nat.testBit_succ, hhalf, decide_eq_true hne]
    simp

lemma getLsbD_clearLowest (h : w ≠ 0#64) (j : ℕ) :
    w.clearLowest.getLsbD j = (w.getLsbD j && decide (j ≠ w.lowest)) := by
  have hone : 1#64 ≤ w := by
    rw [BitVec.le_def]
    exact Nat.pos_of_ne_zero fun hw => h (BitVec.eq_of_toNat_eq hw)
  rw [clearLowest, ← BitVec.testBit_toNat, BitVec.toNat_and, BitVec.toNat_sub_of_le hone,
    BitVec.toNat_one (by decide), testBit_and_pred, BitVec.testBit_toNat]
  · rw [BitVec.testBit_toNat, getLsbD_lowest h]
  · intro i hi
    rw [BitVec.testBit_toNat, getLsbD_of_lt_lowest hi]

/-- **The lowest flag comes first, and clearing it leaves the others.** -/
lemma positions_eq_cons (h : w ≠ 0#64) :
    w.positions = w.lowest :: w.clearLowest.positions := by
  have hclear (j : ℕ) : j ∈ w.clearLowest.positions ↔ j ∈ w.positions ∧ j ≠ w.lowest := by
    rw [mem_positions, mem_positions, getLsbD_clearLowest h, Bool.and_eq_true, decide_eq_true_iff]
  refine (pairwise_positions w).eq_of_mem_iff ?_ fun j => ?_
  · refine List.pairwise_cons.mpr ⟨fun j hj => ?_, pairwise_positions _⟩
    obtain ⟨hset, hne⟩ := (hclear j).mp hj
    by_contra hle
    have hbelow := getLsbD_of_lt_lowest (show j < w.lowest by omega)
    rw [mem_positions.mp hset] at hbelow
    cases hbelow
  · rw [List.mem_cons, hclear]
    constructor
    · intro hj
      by_cases hlow : j = w.lowest
      · exact .inl hlow
      · exact .inr ⟨hj, hlow⟩
    · rintro (rfl | ⟨hj, -⟩)
      · exact mem_positions.mpr (getLsbD_lowest h)
      · exact hj

@[simp] lemma positions_zero : positions 0#64 = [] := by
  simp [positions]

lemma head?_positions (h : w ≠ 0#64) : w.positions.head? = some w.lowest := by
  rw [positions_eq_cons h, List.head?_cons]

lemma positions_clearLowest (w : Flags) : w.clearLowest.positions = w.positions.tail := by
  by_cases h : w = 0#64
  · rw [h, clearLowest, BitVec.zero_and, positions_zero, List.tail_nil]
  · rw [positions_eq_cons h, List.tail_cons]

lemma positions_repeat (w : Flags) (n : ℕ) :
    (n.repeat clearLowest w).positions = w.positions.drop n := by
  induction n with
  | zero => rfl
  | succ n ih => rw [Nat.repeat, positions_clearLowest, ih, List.tail_drop]

/-- The lowest flag that is left after `n` clearings is the one of rank `n`. -/
lemma getElem?_positions {n : ℕ} (hn : n < w.count) :
    w.positions[n]? = some (n.repeat clearLowest w).lowest := by
  have hleft : n.repeat clearLowest w ≠ 0#64 := by
    intro h
    have hdrop := positions_repeat w n
    rw [h, positions_zero, eq_comm, List.drop_eq_nil_iff, ← count_eq] at hdrop
    omega
  rw [← head?_positions hleft, positions_repeat, List.head?_drop]

end Flags

/-! ### The flags of several words -/

namespace CellSet

variable {s : CellSet} {c : Cell}

/-- The indices of the flags that are set in some words, the first of which has the given number. -/
def indicesOf (number : ℕ) : List Flags → List ℕ
  | [] => []
  | word :: words => word.positions.map (64 * number + ·) ++ indicesOf (number + 1) words

lemma le_of_mem_indicesOf {number i : ℕ} {words : List Flags} (h : i ∈ indicesOf number words) :
    64 * number ≤ i := by
  induction words generalizing number with
  | nil => cases h
  | cons word words ih =>
      rcases List.mem_append.mp h with h | h
      · obtain ⟨k, -, rfl⟩ := List.mem_map.mp h
        omega
      · have := ih h
        omega

lemma mem_indicesOf {number i : ℕ} {words : List Flags} (hi : 64 * number ≤ i) :
    i ∈ indicesOf number words ↔
      ∃ word, words[i / 64 - number]? = some word ∧ word.getLsbD (i % 64) = true := by
  induction words generalizing number with
  | nil => simp [indicesOf]
  | cons word words ih =>
      rw [indicesOf, List.mem_append, List.mem_map]
      by_cases hword : i / 64 = number
      · have hlater : i ∉ indicesOf (number + 1) words := fun h => by
          have := le_of_mem_indicesOf h
          omega
        rw [or_iff_left hlater, hword, Nat.sub_self, List.getElem?_cons_zero]
        constructor
        · rintro ⟨k, hk, rfl⟩
          have hlt := Flags.lt_of_mem_positions hk
          rw [Nat.mul_add_mod, Nat.mod_eq_of_lt hlt]
          exact ⟨word, rfl, Flags.mem_positions.mp hk⟩
        · rintro ⟨w, hw, hk⟩
          cases hw
          exact ⟨i % 64, Flags.mem_positions.mpr hk, by omega⟩
      · have hfirst : ¬ ∃ k ∈ word.positions, 64 * number + k = i := by
          rintro ⟨k, hk, rfl⟩
          have := Flags.lt_of_mem_positions hk
          omega
        obtain ⟨n, hn⟩ : ∃ n, i / 64 - number = n + 1 := ⟨i / 64 - number - 1, by omega⟩
        have hnext : i / 64 - (number + 1) = n := by omega
        rw [or_iff_right hfirst, ih (by omega), hn, hnext, List.getElem?_cons_succ]

lemma pairwise_indicesOf (number : ℕ) (words : List Flags) :
    (indicesOf number words).Pairwise (· < ·) := by
  induction words generalizing number with
  | nil => exact .nil
  | cons word words ih =>
      refine List.pairwise_append.mpr ⟨?_, ih _, fun i hi j hj => ?_⟩
      · rw [List.pairwise_map]
        exact (Flags.pairwise_positions word).imp fun h => Nat.add_lt_add_left h _
      · obtain ⟨k, hk, rfl⟩ := List.mem_map.mp hi
        have hlt := Flags.lt_of_mem_positions hk
        have hle := le_of_mem_indicesOf hj
        omega

/-- The indices of a set are the flags of its six words. -/
lemma mem_indicesOf_words {i : ℕ} :
    i ∈ indicesOf 0 s.words.toList ↔ ∃ h : i < 361, s.contains ⟨⟨i, h⟩⟩ = true := by
  rw [mem_indicesOf (Nat.zero_le i), Nat.sub_zero]
  constructor
  · rintro ⟨word, hword, hset⟩
    obtain ⟨hsix, rfl⟩ := List.getElem?_eq_some_iff.mp hword
    rw [Vector.length_toList] at hsix
    rw [Vector.getElem_toList] at hset
    have hi : i < 361 := by
      by_contra hout
      have hlast : i / 64 = 5 := by omega
      simp only [hlast] at hset
      rw [s.bounded (i % 64) (by omega)] at hset
      cases hset
    exact ⟨hi, by rw [contains_eq]; exact hset⟩
  · rintro ⟨hi, hset⟩
    rw [contains_eq] at hset
    have hsix : i / 64 < s.words.toList.length := by
      rw [Vector.length_toList]
      omega
    refine ⟨_, List.getElem?_eq_getElem hsix, ?_⟩
    rw [Vector.getElem_toList]
    exact hset

/-! ### The three algorithms -/

/-- The sum of the counts is the number of flags. -/
lemma count_eq (s : CellSet) : s.count = (indicesOf 0 s.words.toList).length := by
  have hfold : ∀ (words : List Flags) (number start : ℕ),
      words.foldl (fun n word => n + word.count) start =
        start + (indicesOf number words).length := by
    intro words
    induction words with
    | nil => exact fun _ _ => rfl
    | cons word words ih =>
        intro number start
        rw [List.foldl_cons, ih (number + 1), indicesOf, List.length_append, List.length_map,
          ← Flags.count_eq, Nat.add_assoc]
  exact (hfold _ 0 0).trans (Nat.zero_add _)

/-- Passing whole words by their counts finds the flag of a given rank. -/
lemma nthOf?_eq (number : ℕ) (words : List Flags) (n : ℕ) :
    nthOf? number words n = (indicesOf number words)[n]?.map Cell.ofIndex := by
  induction words generalizing number n with
  | nil => rfl
  | cons word words ih =>
      rw [nthOf?, indicesOf, List.getElem?_append, List.length_map, ← Flags.count_eq]
      by_cases hn : word.count ≤ n
      · rw [if_pos hn, if_neg (by omega), ih]
      · rw [if_neg hn, if_pos (by omega), List.getElem?_map, Flags.getElem?_positions (by omega)]
        rfl

namespace Walk

/-- The flags ahead of a walk. -/
def ahead (w : Walk) : List ℕ := indicesOf w.number (w.word :: w.behind)

/-- In a word with a flag the lowest one is the first ahead. -/
lemma ahead_eq_cons {number : ℕ} {word : Flags} (behind : List Flags) (hword : word ≠ 0#64) :
    (Walk.mk number word behind).ahead =
      (64 * number + word.lowest) :: (Walk.mk number word.clearLowest behind).ahead := by
  simp only [ahead, indicesOf, Flags.positions_eq_cons hword, List.map_cons, List.cons_append]

/-- A step goes to the first flag ahead. -/
lemma ahead_eq_of_step? {number : ℕ} {word : Flags} {behind : List Flags} :
    (step? number word behind = none → (Walk.mk number word behind).ahead = []) ∧
      ∀ i rest, step? number word behind = some (i, rest) →
        (Walk.mk number word behind).ahead = i :: rest.ahead := by
  induction behind generalizing number word with
  | nil =>
      rw [step?]
      by_cases hword : word = 0#64
      · rw [if_neg (not_not_intro hword), hword]
        refine ⟨fun _ => by simp [ahead, indicesOf], fun i rest h => ?_⟩
        cases h
      · rw [if_pos hword]
        refine ⟨fun h => ?_, fun i rest h => ?_⟩
        · cases h
        · cases h
          exact ahead_eq_cons _ hword
  | cons next behind ih =>
      rw [step?]
      by_cases hword : word = 0#64
      · have hpass : (Walk.mk number word (next :: behind)).ahead =
            (Walk.mk (number + 1) next behind).ahead := by
          simp [ahead, indicesOf, hword]
        rw [if_neg (not_not_intro hword), hpass]
        exact ih
      · rw [if_pos hword]
        refine ⟨fun h => ?_, fun i rest h => ?_⟩
        · cases h
        · cases h
          exact ahead_eq_cons _ hword

/-- **A walk meets the flags that are ahead of it, in order, and ends after the last one.** -/
lemma indices_eq (w : Walk) : w.indices = w.ahead := by
  induction w using indices.induct with
  | case1 w h =>
      rw [indices, ahead_eq_of_step?.1 h]
      split
      · rfl
      · next hsome =>
          rw [h] at hsome
          cases hsome
  | case2 w i rest h ih =>
      rw [indices, ahead_eq_of_step?.2 i rest h]
      split
      · next hnone =>
          rw [h] at hnone
          cases hnone
      · next j rest' hsome =>
          rw [h] at hsome
          cases hsome
          rw [ih]

end Walk

/-! ### Members in index order -/

lemma indices_walk (s : CellSet) : s.walk.indices = indicesOf 0 s.words.toList := by
  rw [Walk.indices_eq]
  have hsix : 0 < s.words.toList.length := by
    rw [Vector.length_toList]
    decide
  exact congrArg (indicesOf 0) (List.getElem_cons_drop hsix)

/-- **A walk meets the members of a set in index order.** -/
lemma toList_eq (s : CellSet) : s.toList = Cell.all.filter s.contains := by
  have hindices : indicesOf 0 s.words.toList =
      (Cell.all.filter s.contains).map fun c => c.index.val := by
    refine (pairwise_indicesOf _ _).eq_of_mem_iff ?_ fun i => ?_
    · rw [List.pairwise_map]
      exact Cell.pairwise_all.filter _
    · rw [mem_indicesOf_words, List.mem_map]
      constructor
      · rintro ⟨hi, hc⟩
        exact ⟨⟨⟨i, hi⟩⟩, List.mem_filter.mpr ⟨Cell.mem_all _, hc⟩, rfl⟩
      · rintro ⟨c, hc, rfl⟩
        exact ⟨c.index.isLt, (List.mem_filter.mp hc).2⟩
  rw [toList, indices_walk, hindices, List.map_map]
  exact (List.map_congr_left fun c _ => Cell.ofIndex_index c).trans (List.map_id _)

@[simp] lemma mem_toList : c ∈ s.toList ↔ s.contains c = true := by
  rw [toList_eq, List.mem_filter]
  exact and_iff_right (Cell.mem_all c)

lemma sublist_toList (s : CellSet) : s.toList.Sublist Cell.all := by
  rw [toList_eq]
  exact List.filter_sublist

lemma pairwise_toList (s : CellSet) : s.toList.Pairwise fun c d => c.index < d.index :=
  Cell.pairwise_all.sublist s.sublist_toList

lemma length_toList (s : CellSet) : s.toList.length = s.count := by
  rw [toList, indices_walk, List.length_map, count_eq]

/-- **The member of rank `n` is the one that a walk meets after `n` others.** -/
lemma nth?_eq (s : CellSet) (n : ℕ) : s.nth? n = s.toList[n]? := by
  rw [nth?, nthOf?_eq, toList, indices_walk, List.getElem?_map]

lemma isEmpty_iff : s.isEmpty = true ↔ ∀ c, s.contains c = false := by
  rw [isEmpty, Vector.all_eq_true]
  constructor
  · intro hzero c
    have hword : s.wordOf c = 0#64 := beq_iff_eq.mp (hzero c.wordNumber c.wordNumber.isLt)
    rw [contains_eq, hword, BitVec.getLsbD_zero]
  · intro hnone n hn
    rw [show s = empty from ext fun c => by rw [hnone, contains_empty]]
    simp [empty]

lemma isEmpty_eq_false (h : s.contains c = true) : s.isEmpty = false := by
  rw [Bool.eq_false_iff]
  intro hempty
  rw [isEmpty_iff.mp hempty c] at h
  cases h

/-! ### Changes of a set -/

/-- A change of a set of cells. -/
inductive Change
  | insert (c : Cell)
  | erase (c : Cell)
  /-- Take out every cell. -/
  | clear
  /-- Start again with the cells of a list, which may name a cell more than once. -/
  | collect (cells : List Cell)

/-- The set after a change. -/
def Change.apply (s : CellSet) : Change → CellSet
  | insert c => (s.insert c).2
  | erase c => (s.erase c).2
  | clear => empty
  | collect cells => ofList cells

/-- What the change is for a finite set. -/
def Change.applyTo (t : Finset Cell) : Change → Finset Cell
  | insert c => Insert.insert c t
  | erase c => t.erase c
  | clear => ∅
  | collect cells => cells.toFinset

/-- The set after some changes, which start without members. -/
def after (changes : List Change) : CellSet := changes.foldl Change.apply empty

/-- The members after some changes. -/
def membersAfter (changes : List Change) : Finset Cell := changes.foldl Change.applyTo ∅

/-- A set of cells has the members of a finite set. -/
def Represents (s : CellSet) (t : Finset Cell) : Prop :=
  ∀ c, s.contains c = true ↔ c ∈ t

variable {s' : CellSet} {t t' : Finset Cell}

lemma contains_foldl_put (cells : List Cell) (s : CellSet) (c : Cell) :
    (cells.foldl (fun s d => s.put d true) s).contains c = true ↔
      c ∈ cells ∨ s.contains c = true := by
  induction cells generalizing s with
  | nil => simp
  | cons d cells ih =>
      rw [List.foldl_cons, ih, contains_put, List.mem_cons]
      by_cases hc : c = d <;> simp [hc]

lemma contains_ofList {cells : List Cell} : (ofList cells).contains c = true ↔ c ∈ cells := by
  rw [ofList, contains_foldl_put, contains_empty]
  simp

lemma represents_empty : Represents empty ∅ := fun c => by
  simp

/-- One change does the same to the words and to the members. -/
lemma Represents.apply (h : Represents s t) (change : Change) :
    Represents (change.apply s) (change.applyTo t) := by
  intro c
  cases change with
  | insert d =>
      show (s.put d true).contains c = true ↔ c ∈ Insert.insert d t
      rw [contains_put, Finset.mem_insert, ← h c]
      by_cases hc : c = d <;> simp [hc]
  | erase d =>
      show (s.put d false).contains c = true ↔ c ∈ t.erase d
      rw [contains_put, Finset.mem_erase, ← h c]
      by_cases hc : c = d <;> simp [hc]
  | clear => exact represents_empty c
  | collect cells =>
      show (ofList cells).contains c = true ↔ c ∈ cells.toFinset
      rw [contains_ofList, List.mem_toFinset]

/-- **After any changes the words hold the members.** -/
lemma represents_after (changes : List Change) :
    Represents (after changes) (membersAfter changes) := by
  have hrun : ∀ {s t}, Represents s t →
      Represents (changes.foldl Change.apply s) (changes.foldl Change.applyTo t) := by
    induction changes with
    | nil => exact fun h => h
    | cons change changes ih => exact fun h => ih (h.apply change)
  exact hrun represents_empty

/-- **Equal members mean equal words.** -/
lemma Represents.eq_iff (h : Represents s t) (h' : Represents s' t') : s = s' ↔ t = t' := by
  constructor
  · rintro rfl
    exact Finset.ext fun c => (h c).symm.trans (h' c)
  · rintro rfl
    exact ext fun c => Bool.eq_iff_iff.mpr ((h c).trans (h' c).symm)

/-- What the operations say about a set of cells with given members. -/
structure ActsAs (s : CellSet) (t : Finset Cell) : Prop where
  contains_iff : ∀ c, s.contains c = true ↔ c ∈ t
  insert_iff : ∀ c, (s.insert c).1 = true ↔ Insert.insert c t ≠ t
  erase_iff : ∀ c, (s.erase c).1 = true ↔ t.erase c ≠ t
  count_eq : s.count = t.card
  isEmpty_iff : s.isEmpty = true ↔ t = ∅
  /-- A walk meets the members and nothing else. -/
  mem_toList : ∀ c, c ∈ s.toList ↔ c ∈ t
  /-- It meets them in index order, so none of them twice. -/
  increasing : s.toList.Pairwise fun c d => c.index < d.index
  nth?_eq : ∀ n, s.nth? n = s.toList[n]?
  nth?_eq_none : ∀ n, s.nth? n = none ↔ t.card ≤ n

lemma Represents.toFinset_toList (h : Represents s t) : s.toList.toFinset = t :=
  Finset.ext fun c => List.mem_toFinset.trans (mem_toList.trans (h c))

lemma nodup_toList (s : CellSet) : s.toList.Nodup :=
  (pairwise_toList s).imp fun hlt heq => absurd (heq ▸ hlt) (lt_irrefl _)

/-- **The operations on the words are those on the members.** -/
lemma Represents.actsAs (h : Represents s t) : ActsAs s t := by
  have hcard : s.count = t.card := by
    rw [← length_toList, ← List.toFinset_card_of_nodup s.nodup_toList, h.toFinset_toList]
  exact {
    contains_iff := h
    insert_iff := fun c => by
      rw [insert, Bool.not_eq_true', Bool.eq_false_iff, Ne, h c, Ne, Finset.insert_eq_self]
    erase_iff := fun c => by
      rw [erase, h c, Ne, Finset.erase_eq_self, not_not]
    count_eq := hcard
    isEmpty_iff := by
      rw [CellSet.isEmpty_iff, Finset.eq_empty_iff_forall_notMem]
      exact forall_congr' fun c => by rw [← h c, Bool.eq_false_iff]
    mem_toList := fun c => CellSet.mem_toList.trans (h c)
    increasing := s.pairwise_toList
    nth?_eq := s.nth?_eq
    nth?_eq_none := fun n => by
      rw [CellSet.nth?_eq, List.getElem?_eq_none_iff, length_toList, hcard] }

/-- Ranks name the members, each of them once. -/
lemma exists_equiv_members (s : CellSet) :
    ∃ e : Fin s.count ≃ {c // s.contains c = true}, ∀ k, s.nth? k.val = some (e k).val := by
  have hget (k : Fin s.count) : k.val < s.toList.length := by
    rw [length_toList]
    exact k.isLt
  refine ⟨Equiv.ofBijective
    (fun k => ⟨s.toList.get ⟨k.val, hget k⟩, mem_toList.mp (List.get_mem _ _)⟩) ⟨?_, ?_⟩, ?_⟩
  · intro k l hkl
    exact Fin.ext ((s.nodup_toList.getElem_inj_iff).mp (congrArg Subtype.val hkl))
  · rintro ⟨c, hc⟩
    obtain ⟨k, hk, hck⟩ := List.getElem_of_mem (mem_toList.mpr hc)
    exact ⟨⟨k, length_toList s ▸ hk⟩, Subtype.ext hck⟩
  · intro k
    rw [nth?_eq, List.getElem?_eq_getElem (hget k)]
    rfl

end CellSet

end FiveInRow
