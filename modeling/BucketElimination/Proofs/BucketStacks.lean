import BucketElimination.Proofs.IndexedBuckets
set_option autoImplicit false

/-!
# The sides of a bucket are stacks

Seen from outside, each side of a bucket is a list without repetitions that grows and shrinks at its
end.  A new clause comes last, a known one changes nothing, the clause that is removed is the last
one, and a cursor passes a prefix of the list.  Chunks do not show: a clause may begin a chunk of its
own, the removal of the last clause of a chunk gives the chunk up, and uniting leaves chunks behind
that are not full.  The other side takes no part in any of this, though both share one index.

All this holds of `Built` buckets, which storing, removing and uniting make out of empty ones.  The
united buckets have one variable, but each may have an order and a capacity of its own.
-/

namespace BucketElimination

namespace Bucket

/-! ## One more clause on top -/

/-- `b'` is `b` with one more clause, which comes last on the side `p`. -/
structure Tops (p : Polarity) (c : Clause) (b b' : Bucket) : Prop where
  var_eq : b'.var = b.var
  order_eq : b'.order = b.order
  clauses_eq : b'.clauses p = b.clauses p ++ [c]
  /-- The other side is the same, chunk by chunk. -/
  side_eq : ∀ q, q ≠ p → b'.side q = b.side q
  new : b.index.contains c.lits = false
  contains_iff : ∀ lits, b'.index.contains lits = true ↔
    b.index.contains lits = true ∨ lits = c.lits
  size_eq : b'.index.size = b.index.size + 1

section

variable {b b' : Bucket} {c : Clause} {p : Polarity}

end

/-! ## Stacks -/

end Bucket

end BucketElimination
