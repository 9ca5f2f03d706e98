import BucketElimination.Fault
import BucketElimination.Logic.Canonical
set_option autoImplicit false

/-!
# Logic: clauses

A clause is a canonical list of literals.  Equal sets of literals without a complementary pair have
one canonical list, so clauses are equal exactly if their literals are.
-/

namespace BucketElimination

/-- A disjunction of literals in canonical order. -/
structure Clause where
  lits : List Lit
  canonical : isCanonical lits = true
  deriving DecidableEq

namespace Clause

/-- The clause of a canonical list; any other list is a fault. -/
def ofLits (lits : List Lit) : Except Fault Clause :=
  if h : isCanonical lits = true then .ok ⟨lits, h⟩ else .error (.notCanonical lits)

/-- Number of literals. -/
def length (c : Clause) : Nat := c.lits.length

/-- The text of a clause in messages. -/
def text (c : Clause) : String := Lit.listText c.lits

theorem ext_lits {c d : Clause} (h : c.lits = d.lits) : c = d := by
  cases c; cases d; cases h; rfl

@[simp] theorem ofLits_lits (c : Clause) : ofLits c.lits = .ok c := by
  simp [ofLits, c.canonical]

theorem ofLits_eq_ok_iff {lits : List Lit} {c : Clause} : ofLits lits = .ok c ↔ c.lits = lits := by
  constructor
  · intro h
    unfold ofLits at h
    split at h
    · cases h; rfl
    · cases h
  · rintro rfl
    exact ofLits_lits c

end Clause

end BucketElimination
