import FiveInRow.Pattern.Template

/-!
Templates compiled to masks. A mask has nine bits, for the cells from four below the anchor of a
template to four above it; bit `i` is the cell `i - 4` steps from the anchor.

* `Pattern.ofTemplate`: the masks of a template, its anchor moved to bit 4;
* `Pattern.trim`: a mask as its bits and the place of the lowest one;
* `patterns`: the compiled templates, numbered from zero.
-/

namespace FiveInRow

/-- A compiled template. The masks are nine-bit words over the cells around the anchor. -/
structure Pattern where
  id : Nat
  family : Family
  stones : Nat
  free : Nat
  walls : Nat
  /-- Where the opponent can defend, in steps from the anchor. -/
  defence : List Int
  deriving DecidableEq, Repr

namespace Pattern

/-- The place of the anchor in a template. -/
def anchorOf (t : Template) : Nat := t.idxOf .anchor

/-- The cells around the anchor at which a template has a mark that satisfies `p`. -/
def maskOf (t : Template) (p : Mark → Bool) : Nat :=
  (t.zipIdx.filter (p ·.1)).foldl (fun mask m => mask ||| 1 <<< (m.2 + 4 - anchorOf t)) 0

/-- Whether a mark asks for an empty cell. -/
def isFree : Mark → Bool
  | .anchor | .gap | .cover => true
  | .stone | .wall => false

/-- Whether the opponent can defend on a mark. -/
def isDefence : Mark → Bool
  | .anchor | .cover => true
  | .stone | .gap | .wall => false

/-- The compiled form of a template. -/
def ofTemplate (id : Nat) (family : Family) (t : Template) : Pattern where
  id := id
  family := family
  stones := maskOf t (· = .stone)
  free := maskOf t isFree
  walls := maskOf t (· = .wall)
  defence := (t.zipIdx.filter (isDefence ·.1)).map fun m => (m.2 : Int) - anchorOf t

/-- How urgent the pattern is. -/
def priority (p : Pattern) : Priority := p.family.priority

/-- A mask without its trailing zeros, and where its lowest bit lies, in steps from the anchor. The
empty mask starts at the anchor. -/
def trim (mask : Nat) : Nat × Int :=
  match (List.range 9).find? mask.testBit with
  | none => (0, 0)
  | some low => (mask >>> low, (low : Int) - 4)

end Pattern

/-- All patterns, the most urgent first; a pattern's number is its place. -/
def patterns : List Pattern :=
  templates.zipIdx.map fun m => Pattern.ofTemplate m.2 m.1.1 m.1.2

end FiveInRow
