import BucketElimination.Logic.Literal
set_option autoImplicit false

/-!
# Logic: the order of elimination

The order fixes in which sequence the variables are eliminated, and with it the pivot of a clause:
the literal whose variable is eliminated first.  In a canonical clause this is the last literal
when the variables are eliminated from the largest down, and the first literal when they are
eliminated from the smallest up.
-/

namespace BucketElimination

/-- In which sequence the variables are eliminated. -/
inductive Order where
  /-- The variable with the largest number first. -/
  | descending
  /-- The variable with the smallest number first. -/
  | ascending
  deriving DecidableEq, Repr, Inhabited

namespace Order

/-- The word for an order in texts and configurations. -/
def name : Order → String
  | .descending => "descending"
  | .ascending => "ascending"

/-- The order with the given name. -/
def ofName? (s : String) : Option Order :=
  if s = "descending" then some .descending
  else if s = "ascending" then some .ascending
  else none

/-- The pivot literal of a canonical list; an empty list has none. -/
def pivot? (order : Order) (lits : List Lit) : Option Lit :=
  match order with
  | .descending => lits.getLast?
  | .ascending => lits.head?

/-- A canonical list without its pivot literal. -/
def rest (order : Order) (lits : List Lit) : List Lit :=
  match order with
  | .descending => lits.dropLast
  | .ascending => lits.tail

/-- The variable eliminated in a step, counting from 0, out of `varCount` variables. -/
def varAt? (order : Order) (step varCount : Nat) : Option Var :=
  if step < varCount then
    match order with
    | .descending => Var.ofIndex? (varCount - 1 - step)
    | .ascending => Var.ofIndex? step
  else none

/-- `v` is eliminated before `w`. -/
def precedes (order : Order) (v w : Var) : Bool :=
  match order with
  | .descending => w < v
  | .ascending => v < w

@[simp] theorem pivot?_eq_none_iff {order : Order} {lits : List Lit} :
    order.pivot? lits = none ↔ lits = [] := by
  cases order <;> simp [pivot?]

/-- A list with a pivot is the pivot together with the rest, in the place that the order says. -/
theorem eq_rest_pivot {order : Order} {lits : List Lit} {p : Lit}
    (h : order.pivot? lits = some p) :
    lits = match order with
      | .descending => order.rest lits ++ [p]
      | .ascending => p :: order.rest lits := by
  cases order with
  | descending =>
    obtain ⟨ys, rfl⟩ := List.getLast?_eq_some_iff.1 h
    simp [rest]
  | ascending =>
    obtain ⟨ys, rfl⟩ := List.head?_eq_some_iff.1 h
    simp [rest]

theorem precedes_irrefl (order : Order) (v : Var) : order.precedes v v = false := by
  cases order <;> simp [precedes, Var.lt_def]

end Order

end BucketElimination
