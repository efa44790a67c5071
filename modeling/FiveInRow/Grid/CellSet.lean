import FiveInRow.Grid.Cell

/-!
Finite sets of cells, as six words with a flag for every cell.

* `CellSet.contains`: membership, the view in which every operation is described;
* `CellSet.insert`, `CellSet.erase`: add or remove a cell and say whether that changed the set;
* `CellSet.Walk`: a walk over the flags, which clears the lowest one that is left at every step;
* `CellSet.toList`: the members in the order of a walk;
* `CellSet.nth?`: the member of a given rank, found by counting the flags of whole words first.
-/

namespace FiveInRow

/-- A word of 64 flags. -/
abbrev Flags := BitVec 64

namespace Flags

/-- The number of flags that are set. -/
def count (w : Flags) : Nat := w.cpop.toNat

/-- The lowest flag that is set, or 64 if there is none. -/
def lowest (w : Flags) : Nat := (List.range 64).findIdx w.getLsbD

/-- Clear the lowest flag that is set. -/
def clearLowest (w : Flags) : Flags := w &&& (w - 1#64)

/-- The word in which only flag `k` is set. -/
def single (k : Nat) : Flags := 1#64 <<< k

theorem clearLowest_lt {w : Flags} (h : w ≠ 0#64) : w.clearLowest.toNat < w.toNat := by
  have hpos : 0 < w.toNat := Nat.pos_of_ne_zero fun hw => h (BitVec.eq_of_toNat_eq hw)
  have hone : 1#64 ≤ w := by
    rw [BitVec.le_def]
    exact hpos
  have hpred : (w - 1#64).toNat = w.toNat - 1 := BitVec.toNat_sub_of_le hone
  calc w.clearLowest.toNat
      ≤ (w - 1#64).toNat := by
        rw [clearLowest, BitVec.toNat_and]
        exact Nat.and_le_right
    _ < w.toNat := by omega

theorem getLsbD_single (k i : Nat) :
    (single k).getLsbD i = (decide (i < 64) && decide (i = k)) := by
  by_cases h : i = k
  · simp [single, BitVec.getLsbD_shiftLeft, h]
  · have : i < k ∨ i - k ≠ 0 := by omega
    simp only [single, BitVec.getLsbD_shiftLeft, BitVec.getLsbD_one, h]
    rcases this with h | h <;> simp [h]

/-- A single flag meets a word exactly if it is set there. -/
theorem and_single_ne_zero {k : Nat} (hk : k < 64) (w : Flags) :
    (w &&& single k != 0#64) = w.getLsbD k := by
  have htwo : single k = BitVec.twoPow 64 k := (BitVec.twoPow_eq 64 k).symm
  have hne : BitVec.twoPow 64 k ≠ 0#64 := by
    intro h
    have hbit := congrArg (·.getLsbD k) h
    simp [hk] at hbit
  rw [htwo, BitVec.and_twoPow]
  cases w.getLsbD k
  · simp
  · simpa using hne

end Flags

/-- A set of cells: the flag of the cell with index `64 * n + k` is flag `k` of word `n`. -/
structure CellSet where
  words : Vector Flags 6
  /-- There are 361 cells, so the last 23 flags are never set. -/
  bounded : ∀ k, 41 ≤ k → words[5].getLsbD k = false
  deriving DecidableEq

namespace Cell

/-- The number of the word with a cell's flag. -/
@[inline] def wordNumber (c : Cell) : Fin 6 :=
  ⟨c.index.val / 64, by have := c.index.isLt; omega⟩

/-- The word in which only a cell's flag is set. -/
@[inline] def flag (c : Cell) : Flags := Flags.single (c.index.val % 64)

/-- The cell with a given index. -/
def ofIndex (i : Nat) : Cell := ⟨Fin.ofNat 361 i⟩

end Cell

namespace CellSet

/-- The set without members. -/
def empty : CellSet where
  words := Vector.replicate 6 0#64
  bounded k _ := by simp

/-- The word with a cell's flag. -/
@[inline] def wordOf (s : CellSet) (c : Cell) : Flags := s.words[c.wordNumber]

/-- Membership. -/
@[inline] def contains (s : CellSet) (c : Cell) : Bool := s.wordOf c &&& c.flag != 0#64

/-- Decide whether one cell is a member. -/
def put (s : CellSet) (c : Cell) (member : Bool) : CellSet where
  words :=
    s.words.set c.wordNumber
      (if member then s.wordOf c ||| c.flag else s.wordOf c &&& ~~~c.flag)
  bounded k hk := by
    have hc := c.index.isLt
    rw [Vector.getElem_set]
    split
    · next hword =>
      have hold : (s.wordOf c).getLsbD k = false := by
        simp only [wordOf, Fin.getElem_fin, hword]
        exact s.bounded k hk
      have hne : k ≠ c.index.val % 64 := by
        simp only [Cell.wordNumber] at hword
        omega
      cases member
      · simp [BitVec.getLsbD_and, hold]
      · simp [BitVec.getLsbD_or, hold, Cell.flag, Flags.getLsbD_single, hne]
    · exact s.bounded k hk

/-- Add a cell; the result says whether it was missing before. -/
@[inline] def insert (s : CellSet) (c : Cell) : Bool × CellSet :=
  (!s.contains c, s.put c true)

/-- Remove a cell; the result says whether it was present before. -/
@[inline] def erase (s : CellSet) (c : Cell) : Bool × CellSet :=
  (s.contains c, s.put c false)

/-- The set of the cells of a list. -/
def ofList (cells : List Cell) : CellSet :=
  cells.foldl (fun s c => s.put c true) empty

/-- The number of members. -/
def count (s : CellSet) : Nat := s.words.toList.foldl (fun n word => n + word.count) 0

/-- Whether there is no member. -/
def isEmpty (s : CellSet) : Bool := s.words.all (· == 0#64)

theorem contains_eq (s : CellSet) (c : Cell) :
    s.contains c = (s.wordOf c).getLsbD (c.index.val % 64) :=
  Flags.and_single_ne_zero (Nat.mod_lt _ (by decide)) _

/-- **Two sets with the same members are the same words.** -/
theorem ext {s t : CellSet} (h : ∀ c, s.contains c = t.contains c) : s = t := by
  have hwords : s.words = t.words := by
    apply Vector.ext
    intro n hn
    apply BitVec.eq_of_getLsbD_eq
    intro k hk
    by_cases hcell : 64 * n + k < 361
    · have hc := h ⟨⟨64 * n + k, hcell⟩⟩
      have hword : (64 * n + k) / 64 = n := by omega
      have hflag : (64 * n + k) % 64 = k := by omega
      simpa only [contains_eq, wordOf, Cell.wordNumber, Fin.getElem_fin, hword, hflag] using hc
    · obtain rfl : n = 5 := by omega
      rw [s.bounded k (by omega), t.bounded k (by omega)]
  cases s
  cases t
  cases hwords
  rfl

@[simp] theorem contains_empty (c : Cell) : empty.contains c = false := by
  simp [contains_eq, wordOf, empty]

theorem contains_put (s : CellSet) (c d : Cell) (member : Bool) :
    (s.put c member).contains d = if d = c then member else s.contains d := by
  have hd : d.index.val % 64 < 64 := Nat.mod_lt _ (by decide)
  by_cases hword : c.wordNumber.val = d.wordNumber.val
  · have hold : s.wordOf c = s.wordOf d := by simp only [wordOf, Fin.getElem_fin, hword]
    have hnew : (s.put c member).wordOf d =
        if member then s.wordOf c ||| c.flag else s.wordOf c &&& ~~~c.flag := by
      simp only [wordOf, put, Fin.getElem_fin, Vector.getElem_set, hword, if_true]
    have hflag : c.flag.getLsbD (d.index.val % 64) = decide (d = c) := by
      rw [Cell.flag, Flags.getLsbD_single, decide_eq_true hd, Bool.true_and]
      refine decide_eq_decide.mpr ⟨fun h => ?_, fun h => by rw [h]⟩
      rcases c with ⟨c⟩
      rcases d with ⟨d⟩
      simp only [Cell.wordNumber] at hword h
      exact congrArg Cell.mk (Fin.ext (by omega))
    rw [contains_eq, contains_eq, hnew, hold]
    cases member
    · rw [if_neg Bool.false_ne_true, BitVec.getLsbD_and, BitVec.getLsbD_not, hflag]
      by_cases h : d = c <;> simp only [h, hd] <;> simp
    · rw [if_pos rfl, BitVec.getLsbD_or, hflag]
      by_cases h : d = c <;> simp only [h] <;> simp
  · have hne : d ≠ c := fun h => hword (by rw [h])
    rw [contains_eq, contains_eq, if_neg hne]
    simp only [wordOf, put, Fin.getElem_fin, Vector.getElem_set, hword, if_false]

/-! ### Walks -/

/-- A walk over the flags: the word in hand with its number, of which only the flags ahead are
left, and the words behind it. -/
structure Walk where
  number : Nat
  word : Flags
  behind : List Flags

namespace Walk

/-- Go to the lowest flag that is left, past empty words, and clear it. The result is its index and
the rest of the walk. -/
def step? (number : Nat) (word : Flags) (behind : List Flags) : Option (Nat × Walk) :=
  if word ≠ 0#64 then
    some (64 * number + word.lowest, ⟨number, word.clearLowest, behind⟩)
  else
    match behind with
    | [] => none
    | word :: behind => step? (number + 1) word behind

/-- The next index of a walk and the rest of it. -/
def next? (w : Walk) : Option (Nat × Walk) := step? w.number w.word w.behind

/-- The flags ahead, read as one number: every step makes it smaller. -/
def measure (w : Walk) : Nat := (w.word :: w.behind).foldr (fun word n => word.toNat + n) 0

theorem step?_measure {number : Nat} {word : Flags} {behind : List Flags} {i : Nat} {rest : Walk}
    (h : step? number word behind = some (i, rest)) :
    rest.measure < (Walk.mk number word behind).measure := by
  induction behind generalizing number word with
  | nil =>
    rw [step?] at h
    split at h
    · next hword =>
      cases h
      exact Nat.add_lt_add_right (Flags.clearLowest_lt hword) _
    · cases h
  | cons next behind ih =>
    rw [step?] at h
    split at h
    · next hword =>
      cases h
      exact Nat.add_lt_add_right (Flags.clearLowest_lt hword) _
    · exact Nat.lt_of_lt_of_le (ih h) (Nat.le_add_left ..)

/-- The indices of a walk. -/
def indices (w : Walk) : List Nat :=
  match _h : w.next? with
  | none => []
  | some (i, rest) => i :: rest.indices
termination_by w.measure
decreasing_by exact step?_measure _h

end Walk

/-- The walk over all flags of a set. -/
def walk (s : CellSet) : Walk := ⟨0, s.words[0], s.words.toList.drop 1⟩

/-- The members in the order of the walk. -/
def toList (s : CellSet) : List Cell := s.walk.indices.map Cell.ofIndex

/-! ### Ranks -/

/-- The cell of rank `n` among the flags of some words, the first of which has the given number:
whole words are passed by their counts, and in the word of the cell the flags below are cleared. -/
def nthOf? (number : Nat) (words : List Flags) (n : Nat) : Option Cell :=
  match words with
  | [] => none
  | word :: words =>
    if word.count ≤ n then
      nthOf? (number + 1) words (n - word.count)
    else
      some (Cell.ofIndex (64 * number + (n.repeat Flags.clearLowest word).lowest))

/-- The member of rank `n` in index order, counted from zero. -/
def nth? (s : CellSet) (n : Nat) : Option Cell := nthOf? 0 s.words.toList n

end CellSet

end FiveInRow
