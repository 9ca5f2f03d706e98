import BucketElimination.Elimination.Stats
import BucketElimination.Storage.Row
set_option autoImplicit false

/-!
# Elimination: the journal

What the solver reports while it works.  An event keeps the facts; its origin, level and wording are
functions of these.  The time that eliminating took is no such fact, so its text is given when the
event is worded.
-/

namespace BucketElimination

/-- How important a report is, the most important first. -/
inductive Level where
  | error
  | warn
  | info
  | debug
  | trace
  deriving DecidableEq, Repr

namespace Level

/-- The name of a level in reports. -/
def name : Level → String
  | .error => "ERROR"
  | .warn => "WARN"
  | .info => "INFO"
  | .debug => "DEBUG"
  | .trace => "TRACE"

/-- Position of a level, the most important first. -/
def rank : Level → Nat
  | .error => 1
  | .warn => 2
  | .info => 3
  | .debug => 4
  | .trace => 5

/-- A report of this level is shown when all reports up to `limit` are. -/
def shownUpTo (level limit : Level) : Bool := level.rank ≤ limit.rank

theorem shownUpTo_error (level : Level) : level.shownUpTo .error = decide (level = .error) := by
  cases level <;> rfl

end Level

/-- Something that happened while solving. -/
inductive Event where
  | emptyClauseLoaded
  | formulaRead (varCount clauseCount : Nat)
  | eliminating (varCount inputClauses workers : Nat)
  | initialBuckets (row : Row)
  | workersStarted (count : Nat)
  | bucketTaken (bucket : Bucket)
  | nothingToResolve (bucket : Var) (positive negative : Nat)
  | resolving (bucket : Var) (positive negative tasks : Nat)
  | merging (count : Nat) (bucket : Var) (present : Nat)
  | taskFinished (bucket : Var) (finished tasks : Nat)
  | emptyClauseDerived (bucket : Var)
  | eliminated (stats : Stats)

namespace Event

/-- The module that reports an event. -/
def target : Event → String
  | .emptyClauseLoaded | .formulaRead .. | .eliminating .. | .initialBuckets _
  | .eliminated _ => "bucketsat::solver"
  | .workersStarted _ => "bucketsat::pool"
  | .bucketTaken _ | .nothingToResolve .. | .resolving .. | .taskFinished ..
  | .emptyClauseDerived _ => "bucketsat::eliminate"
  | .merging .. => "bucketsat::worker"

/-- How important an event is. -/
def level : Event → Level
  | .emptyClauseLoaded | .formulaRead .. | .eliminating .. | .emptyClauseDerived _
  | .eliminated _ => .info
  | .workersStarted _ | .nothingToResolve .. | .resolving .. => .debug
  | .initialBuckets _ | .bucketTaken _ | .merging .. | .taskFinished .. => .trace

/-- Events are no errors. -/
theorem level_ne_error (e : Event) : e.level ≠ .error := by
  cases e <;> nofun

/-- The text of an event, where eliminating took this many seconds. -/
def message (seconds : String) : Event → String
  | .emptyClauseLoaded => "Input contains the empty clause"
  | .formulaRead varCount clauseCount =>
    s!"Parsed formula with {varCount} variables and {clauseCount} clauses"
  | .eliminating varCount inputClauses workers =>
    s!"Eliminating {varCount} variables with {inputClauses} input clauses using {workers} workers"
  | .initialBuckets row => "Initial buckets:\n" ++ row.dump
  | .workersStarted count => s!"Started {count} worker threads"
  | .bucketTaken bucket => bucket.dump
  | .nothingToResolve bucket positive negative =>
    s!"Bucket {bucket}: {positive} positive, {negative} negative clauses, nothing to resolve"
  | .resolving bucket positive negative tasks =>
    s!"Bucket {bucket}: resolving {positive} positive against {negative} negative clauses "
      ++ s!"using {tasks} tasks"
  | .merging count bucket present =>
    s!"Merging {count} clauses into bucket {bucket}, {present} already present"
  | .taskFinished bucket finished tasks =>
    s!"Bucket {bucket}: {finished} of {tasks} tasks finished"
  | .emptyClauseDerived bucket => s!"Derived the empty clause in bucket {bucket}"
  | .eliminated stats =>
    s!"Eliminated {stats.bucketsEliminated} buckets ({stats.bucketsSkipped} skipped), "
      ++ s!"{stats.resolvents} resolvents, {stats.tautologies} tautologies, "
      ++ s!"{stats.duplicateResolvents} duplicates in {seconds}s"

end Event

/-- Events in the order in which they happened. -/
abbrev Journal := Array Event

end BucketElimination
