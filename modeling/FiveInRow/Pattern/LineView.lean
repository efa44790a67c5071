import FiveInRow.Pattern.Basic

/-!
Patterns laid on the words of a line. The words get eight bits of padding below, so that the masks
of a pattern, which reach four cells to either side of its anchor, stay inside a word of 64 bits
wherever on the line the anchor is.

* `Component`: a mask and where to lay it; `Component.liesOn` lays it on a word;
* `Pattern.laid`: the three masks of a pattern, ready to be laid;
* `LineView.ofWords`: a line around a candidate cell as one player sees it;
* `LineView.strongest?`: the first pattern that is shown at the candidate. It is looked for only if
  there is an own stone within reach.
-/

namespace FiveInRow

/-- A mask without trailing zeros, and where its lowest bit lies, in steps from the anchor. -/
structure Component where
  mask : UInt64
  shift : Int
  deriving DecidableEq, Repr

namespace Component

/-- The component of a mask of nine bits around the anchor. -/
def ofMask (mask : Nat) : Component :=
  ⟨.ofNat (Pattern.trim mask).1, (Pattern.trim mask).2⟩

/-- The bit of a word that the lowest bit of the mask comes to lie on, for an anchor at `pos`. -/
@[inline] def offset (c : Component) (pos : Nat) : Int := pos + c.shift

/-- Whether a word has every bit of the mask. -/
@[inline] def liesOn (c : Component) (word : UInt64) (pos : Nat) : Bool :=
  (word >>> .ofNat (c.offset pos).toNat) &&& c.mask == c.mask

end Component

/-- A pattern with its three masks ready to be laid on words. -/
structure LaidPattern where
  pattern : Pattern
  stones : Component
  free : Component
  walls : Component
  deriving DecidableEq, Repr

/-- The masks of a pattern, ready to be laid on words. -/
def Pattern.laid (p : Pattern) : LaidPattern where
  pattern := p
  stones := .ofMask p.stones
  free := .ofMask p.free
  walls := .ofMask p.walls

/-- All patterns, the most urgent first. -/
def laidPatterns : List LaidPattern := patterns.map Pattern.laid

/-- A line around a candidate cell as one player sees it: own stones, empty cells, and the cells
that stop a row. Cells off the board are never empty and stop every row. -/
structure LineView where
  own : UInt64
  free : UInt64
  blocked : UInt64
  /-- The bit of the candidate, padding included. -/
  pos : Nat
  deriving DecidableEq, Repr

namespace LineView

/-- The number of bits below a line. -/
def pad : Nat := 8

/-- How far the cells of a pattern are from its anchor, at most. -/
def reach : Nat := 4

/-- The view from bit `bit` of a line, from the words of own stones, of enemy stones and of the
cells on the board. -/
def ofWords (own enemy board : UInt32) (bit : Nat) : LineView :=
  let own := own.toUInt64 <<< .ofNat pad
  let enemy := enemy.toUInt64 <<< .ofNat pad
  let board := board.toUInt64 <<< .ofNat pad
  { own
    free := board &&& ~~~(own ||| enemy)
    blocked := enemy ||| ~~~board
    pos := bit + pad }

/-- Whether an own stone lies within reach of the candidate. -/
@[inline] def hasSupport (v : LineView) : Bool :=
  (v.own >>> .ofNat (v.pos - reach)) &&& ((1 : UInt64) <<< .ofNat (2 * reach + 1) - 1) != 0

/-- Whether a pattern's masks lie on the words, with the anchor on the candidate. -/
@[inline] def shows (v : LineView) (p : LaidPattern) : Bool :=
  p.stones.liesOn v.own v.pos && p.free.liesOn v.free v.pos && p.walls.liesOn v.blocked v.pos

/-- The strongest pattern that a move on the candidate makes. Every pattern has an own stone, so
without one within reach there is none. -/
def strongest? (v : LineView) : Option Pattern :=
  if v.hasSupport then (laidPatterns.find? v.shows).map (·.pattern) else none

end LineView

end FiveInRow
