import BucketElimination.Config.Basic
import BucketElimination.Elimination.Pool
import BucketElimination.Elimination.Task
set_option autoImplicit false

/-!
# Elimination: the sweep over all variables

The variables are eliminated one after the other in the order of the configuration.  Eliminating one
means taking its bucket out of the row, resolving its clauses and merging the resolvents into
buckets of variables that come later; only when all tasks of a bucket have ended is the next bucket
taken.  The sweep ends with the first empty clause, or when no variable is left.
-/

namespace BucketElimination

/-- Whether a formula can be satisfied. -/
inductive Verdict where
  | sat
  | unsat
  deriving DecidableEq, Repr

/-- The state of a sweep. -/
structure Sweep where
  pool : Pool Task Outcome
  row : Row
  stats : Stats
  journal : Journal

namespace Sweep

/-- Add an event to the journal. -/
def note (s : Sweep) (e : Event) : Sweep := { s with journal := s.journal.push e }

/-- Seed for the order of merging of one task. -/
def taskSeed (seed : UInt64) (step number : Nat) : UInt64 :=
  seed ^^^ (UInt64.ofNat step <<< 20) ^^^ UInt64.ofNat number

/-- The tasks for a bucket whose negative clauses were dealt. -/
def tasks (config : Config) (step : Nat) (bucket : Bucket) (hands : List (List Clause)) :
    List Task :=
  hands.mapIdx fun number negatives =>
    { bucket
      negatives
      shuffleSeed := if config.shuffle then some (taskSeed config.seed step number) else none }

/-- Run a task on the shared row and journal. -/
def exec (shuffler : Shuffler) (cancelled : Bool) (t : Task) (shared : Row × Journal) :
    (Row × Journal) × Except Fault Outcome :=
  t.run shuffler (fun _ => cancelled) shared.1 shared.2

/-- Hand tasks to the workers and let them run. -/
def dispatch (shuffler : Shuffler) (s : Sweep) (tasks : List Task) : Sweep :=
  let pool := tasks.foldl Pool.submit s.pool
  let (pool, row, journal) := pool.serve (exec shuffler) (s.row, s.journal)
  { s with pool, row, journal }

/-- Receive `left` of the results of the tasks for a bucket; the result says whether one of the
tasks derived the empty clause. -/
def collect (bucket : Var) (total : Nat) : Nat → Sweep → Sweep × Except Fault Bool
  | 0, s =>
    ({ s with stats := { s.stats with bucketsEliminated := s.stats.bucketsEliminated + 1 } },
      .ok false)
  | left + 1, s =>
    match s.pool.receive? with
    | none => (s, .error .workersGone)
    | some (.error f, pool) => ({ s with pool }, .error f)
    | some (.ok outcome, pool) =>
      let s := { s with pool, stats := s.stats.absorb outcome.stats }
      match outcome.ending with
      | .unsat =>
        ({ s with pool := s.pool.cancel }.note (.emptyClauseDerived bucket), .ok true)
      | .cancelled => (s, .error (.taskStopped bucket))
      | .finished => collect bucket total left (s.note (.taskFinished bucket (total - left) total))

/-- Resolve the clauses of a bucket that was taken out of the row. -/
def resolveBucket (shuffler : Shuffler) (config : Config) (step : Nat) (bucket : Bucket)
    (s : Sweep) : Sweep × Except Fault Bool :=
  match bucket.dealNegatives s.pool.size with
  | .error f => (s, .error f)
  | .ok hands =>
    let total := hands.length
    let s := s.note
      (.resolving bucket.var (bucket.size .positive) (bucket.size .negative) total)
    if s.pool.cancelled then (s, .error (.dispatchedAfterCancel bucket.var))
    else collect bucket.var total total (s.dispatch shuffler (tasks config step bucket hands))

/-- Eliminate a variable; the result says whether the empty clause was derived. -/
def eliminate (shuffler : Shuffler) (config : Config) (step : Nat) (v : Var) (s : Sweep) :
    Sweep × Except Fault Bool :=
  match s.row.take v with
  | (row, .error f) => ({ s with row }, .error f)
  | (row, .ok bucket) =>
    let s := { s with row }.note (.bucketTaken bucket)
    let positive := bucket.size .positive
    let negative := bucket.size .negative
    if positive = 0 ∨ negative = 0 then
      let stats := { s.stats with bucketsSkipped := s.stats.bucketsSkipped + 1 }
      ({ s with stats }.note (.nothingToResolve v positive negative), .ok false)
    else s.resolveBucket shuffler config step bucket

/-- Eliminate the variables of the last `left` out of `varCount` steps. -/
def runFrom (shuffler : Shuffler) (config : Config) (varCount : Nat) :
    Nat → Sweep → Sweep × Except Fault Verdict
  | 0, s => (s, .ok .sat)
  | left + 1, s =>
    let step := varCount - (left + 1)
    match config.order.varAt? step varCount with
    | none => (s, .error .noSuchVar)
    | some v =>
      match s.eliminate shuffler config step v with
      | (s, .error f) => (s, .error f)
      | (s, .ok true) => (s, .ok .unsat)
      | (s, .ok false) => runFrom shuffler config varCount left s

/-- Eliminate all variables. -/
def run (shuffler : Shuffler) (config : Config) (s : Sweep) : Sweep × Except Fault Verdict :=
  runFrom shuffler config s.row.size s.row.size s

end Sweep

end BucketElimination
