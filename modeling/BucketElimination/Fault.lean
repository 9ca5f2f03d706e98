import BucketElimination.Logic.Literal
set_option autoImplicit false

/-!
# Faults: internal checks that did not hold

A fault is a broken promise between two parts of the library, in contrast to an error in an input
that a caller hands in.  Operations that check such a promise return `Except Fault`; an operation on
values that keep the promises never does.
-/

namespace BucketElimination

/-- The internal check that did not hold. -/
inductive Fault where
  /-- A number that belongs to no variable. -/
  | noSuchVar
  /-- The pivot of an empty clause was asked for. -/
  | noPivot
  /-- There is no bucket for the variable. -/
  | noSuchBucket
  /-- Clauses were resolved whose pivots are not complementary. -/
  | pivotsDoNotClash
  /-- A resolvent's pivot is not eliminated after the variable just resolved on. -/
  | pivotNotLater
  /-- Clauses were to be dealt to no part at all. -/
  | noParts
  /-- A clause was made of a list that is not canonical. -/
  | notCanonical (lits : List Lit)
  /-- A clause was filed on a side where its pivot does not belong. -/
  | misfiled (lits : List Lit) (side : Polarity) (bucket : Var)
  /-- A clause was taken from a side without clauses. -/
  | sideEmpty (side : Polarity) (bucket : Var)
  /-- A chunk was made that can hold nothing. -/
  | zeroCapacity
  /-- Buckets of two variables were united. -/
  | unionMismatch
  /-- A pool was made without workers. -/
  | noWorkers
  /-- A bucket was handed to workers that had been told to stop. -/
  | dispatchedAfterCancel (bucket : Var)
  /-- A task stopped early although no empty clause was derived. -/
  | taskStopped (bucket : Var)
  /-- More variables were asked for than there are. -/
  | tooManyVars (count : Nat)
  /-- The exhaustive check was asked to try too many assignments. -/
  | tooManyForExhaustive
  /-- A result was awaited although no job was under way. -/
  | workersGone
  /-- A job gave up, with a text of its own or without. -/
  | jobFailed (text : Option String)
  deriving DecidableEq, Repr

/-- The text of a fault, for those that have one. -/
def Fault.message? : Fault → Option String
  | .noSuchVar | .noPivot | .noSuchBucket | .pivotsDoNotClash | .pivotNotLater | .noParts => none
  | .notCanonical lits => some s!"clause {Lit.listText lits} is not canonical"
  | .misfiled lits side bucket =>
    some s!"clause {Lit.listText lits} does not belong to the {side.name} side of bucket {bucket}"
  | .sideEmpty side bucket => some s!"pop from empty {side.name} side of bucket {bucket}"
  | .zeroCapacity => some "chunk capacity must be positive"
  | .unionMismatch => some "union of buckets for different variables"
  | .noWorkers => some "worker pool without workers"
  | .dispatchedAfterCancel bucket => some s!"bucket {bucket} dispatched after cancellation"
  | .taskStopped bucket => some s!"task of bucket {bucket} stopped before finishing"
  | .tooManyVars count => some s!"too many variables ({count} > {Var.maxNumber})"
  | .tooManyForExhaustive => some "too many variables for brute force"
  | .workersGone => some "worker threads terminated"
  | .jobFailed text => text

end BucketElimination
