import FiveInRow.Ranking.Levels

/-!
Which moves of a position deserve attention. The cells of the frontier are sorted twice, by what a
move there attacks and by what it defends against, and the top levels of both decide:

1. a five is played, or else the opponent's five is stopped;
2. an open four is played, or stopped, when the other side has nothing strong;
3. an open four against something strong leaves attack and defence equally good;
4. otherwise every move of the frontier is worth a look.

* `Verdict.of`: these rules;
* `Board.shortlist`: the moves that the verdict leaves, in index order;
* `Board.sample`: one of them, drawn with more weight on the urgent ones;
* `Board.sampleUniform`: any cell of the frontier.
-/

namespace FiveInRow

/-- What the top levels of attack and defence ask for. -/
inductive Verdict
  | attack
  | defence
  | either
  | spread
  deriving DecidableEq, Repr

/-- The verdict on the top level of attack and the top level of defence. -/
def Verdict.of (attack defence : Priority) : Verdict :=
  if Priority.immediate ≤ attack then .attack
  else if Priority.immediate ≤ defence then .defence
  else if Priority.urgent ≤ attack ∧ defence < Priority.high then .attack
  else if Priority.urgent ≤ defence ∧ attack < Priority.high then .defence
  else if Priority.urgent ≤ attack.max defence ∧ Priority.high ≤ attack ∧ Priority.high ≤ defence
    then .either
  else .spread

/-- The frontier sorted by attack and by defence. -/
structure Outlook where
  attack : Levels
  defence : Levels

namespace Outlook

/-- The outlook of a colour. -/
def of (b : Board) (color : Option Color) : Outlook :=
  let cells := b.available
  { attack := Levels.ofCells (b.attackOf · color) cells
    defence := Levels.ofCells (b.defenceOf · color) cells }

/-- The cells of the most urgent attack. -/
def topAttack (o : Outlook) : List Cell := o.attack[o.attack.top]

/-- The cells of the most urgent defence. -/
def topDefence (o : Outlook) : List Cell := o.defence[o.defence.top]

/-- What the position asks for. -/
def verdict (o : Outlook) : Verdict := Verdict.of o.attack.top o.defence.top

end Outlook

namespace Board

/-- The moves worth expanding for a colour, in index order; none in a finished game. -/
def shortlist (b : Board) (color : Option Color) : List Cell :=
  if b.isOver then []
  else
    let o := Outlook.of b color
    match o.verdict with
    | .attack => o.topAttack
    | .defence => o.topDefence
    | .either => (CellSet.ofList (o.topAttack ++ o.topDefence)).toList
    | .spread => b.available

variable {γ : Type} [WordSource γ]

/-- Draw a move for a colour; none in a finished game. -/
def sample (b : Board) (color : Option Color) : Draw γ (Option Cell) := do
  if b.isOver || b.frontier.isEmpty then
    return none
  else
    let o := Outlook.of b color
    match o.verdict with
    | .attack => Draw.pick? o.topAttack
    | .defence => Draw.pick? o.topDefence
    | .either => if ← Draw.coin then Draw.pick? o.topAttack else Draw.pick? o.topDefence
    | .spread => if ← Draw.coin then o.attack.weightedPick? else o.defence.weightedPick?

/-- Draw a cell of the frontier, each with the same chance; none in a finished game. -/
def sampleUniform (b : Board) : Draw γ (Option Cell) := do
  let n := b.frontier.count
  if b.isOver || n = 0 then
    return none
  else
    return b.frontier.nth? (← Draw.below n)

end Board

end FiveInRow
