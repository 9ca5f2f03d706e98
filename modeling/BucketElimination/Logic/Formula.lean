import BucketElimination.Logic.Literal
set_option autoImplicit false

/-!
# Logic: formulas in conjunctive normal form

A formula keeps its clauses exactly as they were added.  The literals of all clauses stand in one
buffer, in which a clause is the stretch from the end of the clause before it to its own end.
-/

namespace BucketElimination

/-- A formula: a number of variables and a sequence of clauses. -/
structure Formula where
  /-- At least the largest number of a variable in the clauses. -/
  varCount : Nat
  /-- The literals of all clauses, one clause after the other. -/
  literals : Array Lit
  /-- For each clause the position in `literals` where it ends. -/
  ends : Array Nat
  deriving DecidableEq, Repr

namespace Formula

/-- The formula without variables and clauses. -/
def empty : Formula := ⟨0, #[], #[]⟩

instance : Inhabited Formula := ⟨empty⟩

/-- Raise the number of variables to `count` if it is smaller. -/
def raiseVarCount (f : Formula) (count : Nat) : Formula :=
  { f with varCount := max f.varCount count }

/-- The largest number of a variable in a list of literals, 0 for none. -/
def maxVarNumber (lits : List Lit) : Nat :=
  lits.foldl (fun n l => max n l.var.number) 0

/-- Append a clause. -/
def addClause (f : Formula) (lits : List Lit) : Formula :=
  let literals := f.literals ++ lits
  { varCount := max f.varCount (maxVarNumber lits)
    literals := literals
    ends := f.ends.push literals.size }

/-- The formula of a list of clauses. -/
def ofClauses (clauses : List (List Lit)) : Formula :=
  clauses.foldl addClause empty

/-- Number of clauses. -/
def size (f : Formula) : Nat := f.ends.size

/-- The formula has no clause. -/
def isEmpty (f : Formula) : Bool := f.ends.isEmpty

/-- The clauses in the order in which they were added. -/
def clauses (f : Formula) : List (List Lit) :=
  (List.zip (0 :: f.ends.toList) f.ends.toList).map fun (start, stop) =>
    (f.literals.extract start stop).toList

/-- The text of a formula in messages: the number of variables, then the list of clauses. -/
def text (f : Formula) : String :=
  toString f.varCount ++ "[" ++ ", ".intercalate (f.clauses.map Lit.listText) ++ "]"

end Formula

end BucketElimination
