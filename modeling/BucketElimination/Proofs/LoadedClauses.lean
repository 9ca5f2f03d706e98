import BucketElimination.Proofs.BucketStacks
import BucketElimination.Proofs.FiledClauses
set_option autoImplicit false

/-!
# What becomes of a loaded clause

A list of literals is loaded by sorting it, dropping repetitions and filing what is left.  What
becomes of it can be told without any of this: it depends on the set of its literals and on the
clauses that the row stores, and on nothing that the buffer held.  A row is changed only by a clause
that is filed, which comes last on its side of the bucket of its pivot.
-/

namespace BucketElimination

/-! ## Canonical forms -/

namespace Row

variable {order : Order} {r : Row} {lits : List Lit}

/-- What a list of literals is loaded as, told by its literals and the stored clauses. -/
def LoadedAs (order : Order) (lits : List Lit) (r r' : Row) : Loaded → Prop
  | .tautology => Tautological lits ∧ r' = r
  | .empty => lits = [] ∧ r' = r
  | .duplicate => (lits ≠ [] ∧ ∃ c ∈ r.clauses, c.FormOf lits) ∧ r' = r
  | .filed => (lits ≠ [] ∧ ¬ ∃ c ∈ r.clauses, c.FormOf lits) ∧
    ∃ c v p b b', c.FormOf lits ∧ order.pivot? c.lits = some ⟨v, p⟩ ∧ r.get v = .ok b ∧
      Bucket.Tops p c b b' ∧ r' = r.set v b'

section

variable {r' : Row} {loaded : Loaded}

/-- Only a filed clause changes the row. -/
theorem LoadedAs.change (h : LoadedAs order lits r r' loaded) :
    if loaded = .filed then
      ∃ c v p b b', c.FormOf lits ∧ order.pivot? c.lits = some ⟨v, p⟩ ∧ r.get v = .ok b ∧
        Bucket.Tops p c b b' ∧ r' = r.set v b'
    else r' = r := by
  cases loaded with
  | filed => exact h.2
  | tautology | empty | duplicate => exact h.2

end

end Row

end BucketElimination
