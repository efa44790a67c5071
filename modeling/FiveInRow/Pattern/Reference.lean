import FiveInRow.Grid.Direction
import FiveInRow.Pattern.Basic

/-!
References to one defence cell of a pattern, as the defence records keep them.

* `PatternRef.raw`, `PatternRef.ofRaw`: the reference packed into one number, and unpacked;
* `PatternRef.group`: threats of one group count as a single threat;
* `PatternRef.pattern?`: the pattern that a reference names.
-/

namespace FiveInRow

/-- Lets numerals name the numbers of patterns. -/
instance neZero_patternNumbers : @NeZero Nat Zero.ofOfNat0 128 := ⟨by decide⟩

/-- Lets numerals name the numbers of families. -/
instance neZero_familyNumbers : @NeZero Nat Zero.ofOfNat0 64 := ⟨by decide⟩

/-- One defence cell of one matched pattern. -/
structure PatternRef where
  /-- The number of the pattern. -/
  id : Fin 128
  /-- Which of the pattern's defence cells. -/
  slot : Fin 4
  /-- The direction in which the pattern lies. -/
  direction : Direction
  /-- The number of the pattern's family. -/
  family : Fin 64
  deriving DecidableEq, Repr

namespace PatternRef

/-- The reference as one number: seven bits for the pattern, two for the slot, two for the
direction, and the family from bit 16. -/
def raw (r : PatternRef) : Nat :=
  r.id.val + r.slot.val <<< 7 + r.direction.number.val <<< 9 + r.family.val <<< 16

/-- The reference that a number packs. -/
def ofRaw (n : Nat) : PatternRef where
  id := .ofNat 128 n
  slot := .ofNat 4 (n >>> 7)
  direction := .ofIndex (n >>> 9)
  family := .ofNat 64 (n >>> 16)

/-- Equivalent threats share their group. -/
def group (r : PatternRef) : Direction × Fin 64 := (r.direction, r.family)

/-- All patterns by number. -/
def table : Array Pattern := patterns.toArray

/-- The pattern a reference names, if there is one. -/
@[inline] def pattern? (r : PatternRef) : Option Pattern := table[r.id.val]?

/-- How urgent the referenced pattern is. -/
@[inline] def priority (r : PatternRef) : Priority :=
  match r.pattern? with
  | some p => p.priority
  | none => Priority.none

end PatternRef

/-- The reference to defence cell number `k` of a pattern that lies in direction `d`. -/
def Pattern.ref (p : Pattern) (k : Fin 4) (d : Direction) : PatternRef where
  id := Fin.ofNat 128 p.id
  slot := k
  direction := d
  family := p.family.code

end FiveInRow
