import BucketElimination.Logic.Literal
set_option autoImplicit false

/-!
# Logic: canonical lists of literals

A list of literals is canonical if its variables strictly ascend.  A canonical list repeats no
literal and holds no complementary pair.  `canonicalize` brings any list into this form, or reports
that the list is a tautology, that is, holds a literal together with its complement.
`canonicalizeInto` does the same in a buffer that is used again and again.
-/

namespace BucketElimination

/-- The variables of neighbouring literals strictly ascend. -/
def isCanonical : List Lit → Bool
  | a :: b :: rest => a.var < b.var && isCanonical (b :: rest)
  | _ => true

/-- Two neighbouring literals are complementary. -/
def hasClash : List Lit → Bool
  | a :: b :: rest => a == b.negate || hasClash (b :: rest)
  | _ => false

/-- Of each run of equal neighbours only the first literal is kept. -/
def dropRepeats : List Lit → List Lit
  | a :: b :: rest => if a = b then dropRepeats (b :: rest) else a :: dropRepeats (b :: rest)
  | lits => lits

/-- The literals in ascending order, with repetitions. -/
def sortLits (lits : List Lit) : List Lit :=
  lits.mergeSort Lit.le

/-- The canonical list with the same literals, or `none` for a tautology.

After sorting and dropping repetitions complementary literals are neighbours, so it is enough to
look at neighbouring pairs. -/
def canonicalize (lits : List Lit) : Option (List Lit) :=
  let sorted := dropRepeats (sortLits lits)
  if hasClash sorted then none else some sorted

/-- What became of a list that was brought into canonical form in a buffer. -/
inductive Canonicalized where
  /-- The buffer holds the canonical list. -/
  | clause
  /-- The list holds a literal and its complement. -/
  | tautology
  deriving DecidableEq, Repr

/-- Copy a list into a buffer, which is cleared first, and bring it into canonical form there. -/
def canonicalizeInto (lits : List Lit) (buffer : Array Lit) : Canonicalized × Array Lit :=
  let copied := buffer.shrink 0 ++ lits
  let sorted := dropRepeats (sortLits copied.toList)
  (if hasClash sorted then .tautology else .clause, sorted.toArray)

@[simp] theorem isCanonical_nil : isCanonical [] = true := rfl

@[simp] theorem isCanonical_singleton (a : Lit) : isCanonical [a] = true := rfl

/-- The tail of a canonical list is canonical. -/
theorem isCanonical_tail {a : Lit} {lits : List Lit} (h : isCanonical (a :: lits) = true) :
    isCanonical lits = true := by
  cases lits with
  | nil => rfl
  | cons b rest =>
    simp only [isCanonical, Bool.and_eq_true] at h
    exact h.2

/-- Dropping repetitions changes no membership. -/
@[simp] theorem mem_dropRepeats {a : Lit} {lits : List Lit} :
    a ∈ dropRepeats lits ↔ a ∈ lits := by
  fun_induction dropRepeats lits with
  | case1 b rest ih => simp [ih]
  | case2 b c rest hbc ih => simp [ih]
  | case3 lits => simp

end BucketElimination
