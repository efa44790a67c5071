import FiveInRow.Board.Stones
import FiveInRow.Pattern.Reference

/-!
What every empty cell is worth to either colour. Playing on a cell may make patterns: the best of
them is the cell's attack priority. Each pattern also tells the opponent where to defend, and every
such defence cell keeps a record of the patterns it would stop, with the cell (the *anchor*) from
which the pattern would be made.

* `DefenceRecord.worth`: how urgent it is to defend on a cell, kept in every record;
* `Threats`: the attack priorities, the defence records, and for every anchor the records that
  mention it;
* `Threats.forget`: drop every entry that has a given anchor;
* `Threats.refresh`: evaluate a cell again from the stones around it.
-/

namespace FiveInRow

/-- A pattern that a defence cell would stop. -/
structure DefenceEntry where
  pattern : PatternRef
  /-- The cell on which the attacker would play. -/
  anchor : Cell
  deriving DecidableEq, Repr

/-- What one colour would stop by playing on one cell. -/
structure DefenceRecord where
  /-- The patterns, oldest first. -/
  entries : List DefenceEntry
  /-- How urgent it is to stop them. -/
  priority : Priority
  deriving DecidableEq, Repr

namespace DefenceRecord

/-- Nothing to stop. -/
def empty : DefenceRecord := ⟨[], Priority.none⟩

/-- The groups of the strong threats among some entries. -/
def strongGroups (entries : List DefenceEntry) : List (Direction × Fin 64) :=
  (entries.filter fun e => Priority.high ≤ e.pattern.priority).map (·.pattern.group)

/-- Whether two strong threats do not count as one. -/
def isFork (entries : List DefenceEntry) : Bool :=
  match strongGroups entries with
  | [] => false
  | g :: rest => rest.any (· ≠ g)

/-- The most urgent entry; to stop two strong threats at once is at least vital. -/
def worth (entries : List DefenceEntry) : Priority :=
  let best := entries.foldl (fun best e => best.max e.pattern.priority) Priority.none
  if isFork entries then best.max Priority.vital else best

/-- The record of some entries. -/
def ofEntries (entries : List DefenceEntry) : DefenceRecord := ⟨entries, worth entries⟩

end DefenceRecord

/-- A record that mentions an anchor: the record of colour `side` at `cell`. -/
structure AnchorLink where
  cell : Cell
  side : Color
  deriving DecidableEq, Repr

/-- The evaluation of all cells. -/
structure Threats where
  /-- The best pattern a colour makes on a cell. -/
  attack : ByColor (CellTable Priority)
  /-- What a colour stops by playing on a cell. -/
  defence : ByColor (CellTable DefenceRecord)
  /-- For every anchor the records with an entry of it, the latest first. -/
  anchored : CellTable (List AnchorLink)
  deriving DecidableEq

namespace Threats

/-- Nothing is worth anything. -/
def empty : Threats where
  attack := ByColor.both (Vector.replicate 361 Priority.none)
  defence := ByColor.both (Vector.replicate 361 DefenceRecord.empty)
  anchored := Vector.replicate 361 []

/-- The attack priority of a cell. -/
@[inline] def attackOf (t : Threats) (c : Cell) (color : Color) : Priority :=
  (t.attack.get color).entry c

/-- The defence record of a cell. -/
@[inline] def recordOf (t : Threats) (c : Cell) (color : Color) : DefenceRecord :=
  (t.defence.get color).entry c

/-- The records that mention an anchor. -/
@[inline] def linksOf (t : Threats) (anchor : Cell) : List AnchorLink :=
  t.anchored.entry anchor

/-- The defence priority of a cell: at least what the opponent would gain by playing there. -/
def defenceOf (t : Threats) (c : Cell) (color : Color) : Priority :=
  (t.recordOf c color).priority.max (t.attackOf c color.other)

/-- Replace an attack priority. -/
@[inline] def setAttack (t : Threats) (c : Cell) (color : Color) (p : Priority) : Threats :=
  { t with attack := t.attack.modify color (·.put c p) }

/-- Change the entries of a defence record. -/
@[inline] def modifyRecord (t : Threats) (c : Cell) (color : Color)
    (f : List DefenceEntry → List DefenceEntry) : Threats :=
  { t with defence := t.defence.modify color fun records =>
      records.put c (DefenceRecord.ofEntries (f (records.entry c).entries)) }

/-- Replace the links of an anchor. -/
@[inline] def setLinks (t : Threats) (anchor : Cell) (links : List AnchorLink) : Threats :=
  { t with anchored := t.anchored.put anchor links }

/-- Drop the entries of an anchor from the record a link names. -/
def unlink (anchor : Cell) (t : Threats) (link : AnchorLink) : Threats :=
  t.modifyRecord link.cell link.side (·.filter (·.anchor ≠ anchor))

/-- Drop every entry of an anchor. -/
def forget (t : Threats) (anchor : Cell) : Threats :=
  let links := t.linksOf anchor
  links.foldl (unlink anchor) (t.setLinks anchor [])

/-- Add one entry to the record of `defender` at `target`. -/
def addEntry (t : Threats) (target : Cell) (defender : Color) (e : DefenceEntry) : Threats :=
  let links := t.linksOf e.anchor
  (t.modifyRecord target defender (· ++ [e])).setLinks e.anchor (⟨target, defender⟩ :: links)

/-- The entries that a pattern of `attacker` at `anchor` makes, with the cells they belong to:
the defence cells that lie on the board. -/
def entriesOf (anchor : Cell) (d : Direction) (p : Pattern) : List (Cell × DefenceEntry) :=
  p.defence.zipIdx.filterMap fun (offset, k) =>
    (anchor.offset d.step offset).map fun target =>
      (target, ⟨p.ref (Fin.ofNat 4 k) d, anchor⟩)

/-- Record a pattern of `attacker` with every cell on which it can be stopped. -/
def register (t : Threats) (anchor : Cell) (attacker : Color) (d : Direction) (p : Pattern) :
    Threats :=
  (entriesOf anchor d p).foldl (fun t e => t.addEntry e.1 attacker.other e.2) t

/-- The patterns that `color` makes by playing on `c`, with their directions. -/
def patternsAt (s : Stones) (c : Cell) (color : Color) : List (Direction × Pattern) :=
  Direction.all.filterMap fun d => (s.strongest? c color d).map (d, ·)

/-- The worth of patterns that are made by one move: the best of them; two strong ones in
different directions are at least vital. -/
def attackWorth (found : List (Direction × Pattern)) : Priority :=
  let best := found.foldl (fun best f => best.max f.2.priority) Priority.none
  let strong := found.countP fun f => Priority.high ≤ f.2.priority
  if 2 ≤ strong then best.max Priority.vital else best

/-- Evaluate an empty cell for one colour. -/
def evaluate (s : Stones) (t : Threats) (c : Cell) (color : Color) : Threats :=
  let found := patternsAt s c color
  found.foldl (fun t f => t.register c color f.1 f.2) (t.setAttack c color (attackWorth found))

/-- Evaluate a cell again; a stone on it makes it worthless. -/
def refresh (s : Stones) (t : Threats) (c : Cell) : Threats :=
  let t := t.forget c
  if s.isEmpty c then evaluate s (evaluate s t c .black) c .white
  else (t.setAttack c .black Priority.none).setAttack c .white Priority.none

/-- The anchors of all entries at `c`. -/
def anchorsAt (t : Threats) (c : Cell) : List Cell :=
  ((t.recordOf c .black).entries ++ (t.recordOf c .white).entries).map (·.anchor)

/-- A stone on `c` ends what the cell was worth: its records, its entries elsewhere and its
attack priorities. -/
def occupy (t : Threats) (c : Cell) : Threats :=
  let t := (t.modifyRecord c .black fun _ => []).modifyRecord c .white fun _ => []
  ((t.forget c).setAttack c .black Priority.none).setAttack c .white Priority.none

end Threats

end FiveInRow
