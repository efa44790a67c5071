import FiveInRow.Color
import FiveInRow.Grid.CellSet
import FiveInRow.Line.Run
import FiveInRow.Pattern.Reference
import FiveInRow.Board.Status
import FiveInRow.Board.WinningLine
import FiveInRow.Playout.Batch
import FiveInRow.Text.Fixed
import FiveInRow.Viewer.Panel
import FiveInRow.Proofs.Ranking.Forced
import FiveInRow.Proofs.Board.Canonical
import FiveInRow.Proofs.Engine.Decisions
import FiveInRow.Proofs.Search.Pruning
import FiveInRow.Proofs.Board.Occupancy
import FiveInRow.Proofs.Pattern.Fours
import FiveInRow.Proofs.Ranking.ForcedWin
import FiveInRow.Proofs.Search.Statistics
import FiveInRow.Proofs.Ranking.Candidates
import FiveInRow.Proofs.Search.Expansion
import FiveInRow.Proofs.Engine.Expansion
import FiveInRow.Proofs.Board.ColorExchange
import FiveInRow.Proofs.Board.Orientation
import FiveInRow.Proofs.Board.Transposition
import FiveInRow.Proofs.Engine.Renewal
import FiveInRow.Proofs.Playout.Decided
import FiveInRow.Proofs.Game.Turns
import FiveInRow.Proofs.Pattern.Shapes
import FiveInRow.Proofs.Board.WinningLine
import FiveInRow.Proofs.Ranking.Support
import FiveInRow.Proofs.Search.Freeing
import FiveInRow.Proofs.Search.NewRoot
import FiveInRow.Proofs.Game.TakeBack
import FiveInRow.Proofs.Engine.Refusals
import FiveInRow.Proofs.Playout.Interleavings
import FiveInRow.Proofs.Ranking.Orientation
import FiveInRow.Proofs.Ranking.UniformDraws
import FiveInRow.Proofs.Board.Mirroring
import FiveInRow.Proofs.Game.Work
import FiveInRow.Proofs.Board.Reach
import FiveInRow.Proofs.Ranking.Weights
import FiveInRow.Proofs.Playout.Seeds
