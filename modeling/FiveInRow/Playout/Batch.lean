import FiveInRow.Event
import FiveInRow.Playout.Basic
import FiveInRow.Random.Generators

/-!
Batches of playouts. Every worker of a batch has a generator of its own, whose seed depends on the
batch's seed and the worker's number only, so a batch does not depend on which worker is done first.

* `workerSeed`: the seed of one worker;
* `Batch.results`: what each worker found, when they finish in a given order;
* `Batch.average`: the mean of the results, or the first worker that failed;
* `Batch.runIn`, `Batch.run`: a batch whose workers finish in a given order, or one after another;
* `Board.batchValue`: the mean value of a batch of playouts.
-/

namespace FiveInRow

/-- Why a search could not go on. -/
inductive SearchError
  | move (e : MoveError)
  | workerFailed (worker : Nat)
  deriving DecidableEq, Repr

/-- What a caller is told. -/
def SearchError.message : SearchError → String
  | move e => e.message
  | workerFailed worker => "playout worker " ++ toString worker ++ " panicked"

/-- The seed of a worker's generator. -/
def workerSeed (base worker : UInt64) : UInt64 :=
  base ^^^ (worker + 1) * 0x9e3779b97f4a7c15

/-- The work of one worker: from its number and its generator to a result, or to none if it
fails. -/
abbrev Job := Nat → Xoshiro → Option Float32

namespace Batch

/-- What the workers found, in the order of their numbers, after they have finished in the order
`finished`: every worker leaves its result in its own slot. A worker that has not finished has
found nothing. -/
def results (workers : Nat) (work : Nat → Option Float32) (finished : List Nat) :
    List (Option Float32) :=
  (finished.foldl (fun slots w => slots.setIfInBounds w (work w))
    (Array.replicate workers none)).toList

/-- The workers that failed. -/
def failures (found : List (Option Float32)) : List Nat :=
  (found.zipIdx.filter (·.1.isNone)).map (·.2)

/-- The mean of the results, added up in the order of the workers. -/
def mean (found : List (Option Float32)) : Float32 :=
  (found.foldl (fun total r => total + r.getD 0) 0) / Float32.ofNat found.length

/-- The mean of a batch. If workers fail, the first of them is the error, and each is reported. -/
def average (found : List (Option Float32)) : Except SearchError Float32 × List Event :=
  match failures found with
  | [] => (.ok (mean found), [])
  | failed@(first :: _) =>
    (.error (.workerFailed first),
      failed.map fun w => ⟨.warning, "playout batch failed: " ++
        (SearchError.workerFailed w).message⟩)

/-- The work of one worker with a generator of its own. -/
def work (base : UInt64) (job : Job) (worker : Nat) : Option Float32 :=
  job worker (Xoshiro.ofSeed (workerSeed base (UInt64.ofNat worker)))

/-- Run a job once for every worker, of whom there is at least one, when they finish in the order
`finished`. -/
def runIn (finished : List Nat) (workers : Nat) (base : UInt64) (job : Job) :
    Except SearchError Float32 × List Event :=
  average (results (max workers 1) (work base job) finished)

/-- Run a job once for every worker, one after another. -/
def run (workers : Nat) (base : UInt64) (job : Job) : Except SearchError Float32 × List Event :=
  runIn (List.range (max workers 1)) workers base job

end Batch

/-- The mean value of a batch of playouts for `side`. -/
def Board.batchValue (b : Board) (last side : Option Color) (workers : Nat) (base : UInt64) :
    Except SearchError Float32 × List Event :=
  Batch.run workers base fun _ g => some (b.playOutValue last side g).1

end FiveInRow
