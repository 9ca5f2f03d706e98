set_option autoImplicit false

/-!
# Elimination: counters

What is counted while clauses are loaded and variables eliminated.
-/

namespace BucketElimination

/-- The counters of one task. -/
structure TaskStats where
  /-- Resolvents that are neither empty nor tautologies. -/
  resolvents : Nat
  tautologies : Nat
  /-- Resolvents dropped because they were there already. -/
  duplicates : Nat
  deriving DecidableEq, Repr

/-- No counts. -/
def TaskStats.zero : TaskStats := ⟨0, 0, 0⟩

/-- The counters of a solver. -/
structure Stats where
  /-- Clauses that were filed in a bucket. -/
  inputClauses : Nat
  tautologicalInputs : Nat
  duplicateInputs : Nat
  /-- Buckets whose clauses were resolved. -/
  bucketsEliminated : Nat
  /-- Buckets with clauses of one polarity at most. -/
  bucketsSkipped : Nat
  resolvents : Nat
  tautologies : Nat
  duplicateResolvents : Nat
  deriving DecidableEq, Repr

namespace Stats

/-- No counts. -/
def zero : Stats := ⟨0, 0, 0, 0, 0, 0, 0, 0⟩

/-- Add the counters of a task. -/
def absorb (s : Stats) (t : TaskStats) : Stats :=
  { s with
    resolvents := s.resolvents + t.resolvents
    tautologies := s.tautologies + t.tautologies
    duplicateResolvents := s.duplicateResolvents + t.duplicates }

end Stats

end BucketElimination
