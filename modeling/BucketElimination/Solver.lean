import BucketElimination.Dimacs.Source
import BucketElimination.Elimination.Sweep
set_option autoImplicit false

/-!
# The solver

A solver is configured, loaded with clauses and asked for a verdict.  Clauses are filed in the
buckets while they are loaded, and the verdict is found by eliminating all variables.  The
configuration is fixed by the first load, and a solved formula takes no more clauses.
-/

namespace BucketElimination

/-- A solver and what it has reported. -/
structure Solver where
  config : Config
  row : Row
  /-- Number of variables known to the solver. -/
  varCount : Nat
  /-- The verdict, once it is known. -/
  verdict : Option Verdict
  /-- Clauses were loaded, or tried to be. -/
  loading : Bool
  /-- A load ended with an error. -/
  loadFailed : Bool
  /-- The verdict was handed out. -/
  solved : Bool
  stats : Stats
  journal : Journal

namespace Solver

/-- Why the solver refuses what it is asked. -/
inductive Error where
  /-- The update asks for chunks that hold nothing. -/
  | invalidConfig
  | configAfterLoad
  | alreadySolved
  | incompleteFormula
  /-- The input could not be read. -/
  | read (cause : Dimacs.ReadError)
  /-- An internal check failed. -/
  | fault (cause : Fault)
  deriving DecidableEq, Repr

/-- The text of an error. -/
def Error.message : Error → String
  | .invalidConfig => "Invalid configuration: chunk_capacity must be at least 1"
  | .configAfterLoad => "The configuration cannot be changed after clauses were added"
  | .alreadySolved =>
    "The formula was already solved, bucket elimination cannot add clauses afterwards"
  | .incompleteFormula => "A previous load failed, the formula is incomplete"
  | .read cause => cause.message
  | .fault cause => cause.message?.getD ""

/-- The solver before anything was asked of it. -/
def new : Solver where
  config := Config.standard
  row := Row.empty
  varCount := 0
  verdict := none
  loading := false
  loadFailed := false
  solved := false
  stats := Stats.zero
  journal := #[]

instance : Inhabited Solver := ⟨new⟩

/-- Add an event to the journal. -/
def note (s : Solver) (e : Event) : Solver := { s with journal := s.journal.push e }

/-- Change the configuration. -/
def configure (s : Solver) (u : Update) : Solver × Except Error Unit :=
  if s.loading then (s, .error .configAfterLoad)
  else
    match u.applyTo? s.config with
    | none => (s, .error .invalidConfig)
    | some config => ({ s with config }, .ok ())

/-! ## Loading -/

/-- Have a bucket for every variable up to `count`. -/
def growTo (s : Solver) (count : Nat) : Solver :=
  let row := s.row.extend s.config.order s.config.chunkCapacity (count - s.row.size)
  { s with row, varCount := row.size }

/-- Count a loaded clause; an empty one settles the verdict. -/
def countLoaded (s : Solver) : Row.Loaded → Solver
  | .filed => { s with stats := { s.stats with inputClauses := s.stats.inputClauses + 1 } }
  | .duplicate =>
    { s with stats := { s.stats with duplicateInputs := s.stats.duplicateInputs + 1 } }
  | .tautology =>
    { s with stats := { s.stats with tautologicalInputs := s.stats.tautologicalInputs + 1 } }
  | .empty => { s with verdict := some .unsat }.note .emptyClauseLoaded

/-- Load a clause over variables that have buckets.  After an empty clause nothing more is
loaded. -/
def loadClause (s : Solver) (lits : List Lit) : Solver × Except Error Unit :=
  if s.verdict = some .unsat then (s, .ok ())
  else
    match s.row.load s.config.order lits with
    | (row, .error f) => ({ s with row }, .error (.fault f))
    | (row, .ok loaded) => ({ s with row }.countLoaded loaded, .ok ())

/-- Load clauses up to the first fault. -/
def loadClauses : List (List Lit) → Solver → Solver × Except Error Unit
  | [], s => (s, .ok ())
  | lits :: clauses, s =>
    match s.loadClause lits with
    | (s, .error e) => (s, .error e)
    | (s, .ok ()) => loadClauses clauses s

/-- Load clauses over the variables up to `count`. -/
def load (s : Solver) (count : Nat) (clauses : List (List Lit)) : Solver × Except Error Unit :=
  if s.solved then (s, .error .alreadySolved)
  else
    let s := { s with loading := true }
    if Var.maxNumber < count then (s, .error (.fault (.tooManyVars count)))
    else loadClauses clauses (s.growTo count)

/-- Load a formula. -/
def addFormula (s : Solver) (f : Formula) : Solver × Except Error Unit :=
  s.load f.varCount f.clauses

/-- Load a single clause. -/
def addClause (s : Solver) (lits : List Lit) : Solver × Except Error Unit :=
  s.load (Formula.maxVarNumber lits) [lits]

/-- Load a formula from a source while it is read.  After an error the clauses loaded so far stay,
and the formula counts as incomplete. -/
def addDimacs (s : Solver) (source : Dimacs.Source) : Solver × Except Error Unit :=
  match Dimacs.readInto Error.read (fun f s => s.addFormula f) source s with
  | (s, .error e) => ({ s with loadFailed := true }, .error e)
  | (s, .ok reader) => (s.note (.formulaRead reader.varCount reader.clauseCount), .ok ())

/-! ## Solving -/

/-- Find the verdict by eliminating all variables, which uses up the buckets. -/
def eliminate (s : Solver) (shuffler : Shuffler) (parallelism : Nat) :
    Solver × Except Error Verdict :=
  let workers := s.config.workers parallelism
  let s := s.note (.eliminating s.row.size s.stats.inputClauses workers)
  let s := s.note (.initialBuckets s.row)
  match Pool.start workers with
  | .error f => (s, .error (.fault f))
  | .ok pool =>
    let s := s.note (.workersStarted workers)
    let (sweep, result) := Sweep.run shuffler s.config ⟨pool, s.row, s.stats, s.journal⟩
    let s := { s with row := Row.empty, stats := sweep.stats, journal := sweep.journal }
    match result with
    | .error f => (s, .error (.fault f))
    | .ok verdict =>
      ({ s with verdict := some verdict }.note (.eliminated s.stats), .ok verdict)

/-- Whether the formula can be satisfied.  Without workers configured, `parallelism` of them are
used. -/
def solve (s : Solver) (shuffler : Shuffler) (parallelism : Nat) : Solver × Except Error Bool :=
  if s.loadFailed then (s, .error .incompleteFormula)
  else
    match s.verdict with
    | some verdict => ({ s with solved := true }, .ok (verdict == .sat))
    | none =>
      match s.eliminate shuffler parallelism with
      | (s, .error e) => (s, .error e)
      | (s, .ok verdict) => ({ s with solved := true }, .ok (verdict == .sat))

/-- The text of all buckets that have clauses. -/
def dump (s : Solver) : String := s.row.dump

theorem solve_of_loadFailed {s : Solver} (h : s.loadFailed = true) (shuffler : Shuffler)
    (parallelism : Nat) : s.solve shuffler parallelism = (s, .error .incompleteFormula) := by
  simp [solve, h]

end Solver

end BucketElimination
