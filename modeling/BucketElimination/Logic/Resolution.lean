import BucketElimination.Fault
import BucketElimination.Logic.Order
set_option autoImplicit false

/-!
# Logic: resolution on the pivot

Two canonical clauses with complementary pivots are resolved by merging what remains of them
without the pivots.  Both remainders ascend by variable, so one pass over them yields an ascending
list and meets every clash.  `resolveInto` makes the same pass with a buffer that is used again and
again, and reports only the kind of the resolvent.
-/

namespace BucketElimination

/-- What resolving two clauses on their pivots gives. -/
inductive Resolvent where
  /-- Both clauses were just their pivot. -/
  | empty
  /-- The clauses clash on a further variable; `written` was merged before the clash. -/
  | tautology (written : List Lit)
  /-- The merged remainders. -/
  | clause (lits : List Lit)
  deriving DecidableEq, Repr

namespace Resolvent

/-- The literals written while merging. -/
def written : Resolvent → List Lit
  | .empty => []
  | .tautology lits => lits
  | .clause lits => lits

/-- The resolvent with one more literal in front of what was written. -/
def push (l : Lit) : Resolvent → Resolvent
  | .empty => .clause [l]
  | .tautology lits => .tautology (l :: lits)
  | .clause lits => .clause (l :: lits)

end Resolvent

/-- Merge two lists that ascend by variable; a common literal is kept once, and the merge stops at
the first pair of complementary literals. -/
def mergeLits : List Lit → List Lit → Resolvent
  | [], ys => .clause ys
  | xs, [] => .clause xs
  | x :: xs, y :: ys =>
    match compare x.var y.var with
    | .lt => (mergeLits xs (y :: ys)).push x
    | .gt => (mergeLits (x :: xs) ys).push y
    | .eq => if x = y then (mergeLits xs ys).push x else .tautology []
termination_by xs ys => xs.length + ys.length

/-- Resolve a clause with a positive pivot and one with a negative pivot on the pivot variable. -/
def resolve (order : Order) (positive negative : List Lit) : Except Fault Resolvent :=
  match order.pivot? positive, order.pivot? negative with
  | some p, some n =>
    if p = n.negate then
      match order.rest positive, order.rest negative with
      | [], [] => .ok .empty
      | xs, ys => .ok (mergeLits xs ys)
    else .error .pivotsDoNotClash
  | _, _ => .error .noPivot

/-! ## Resolving into a buffer -/

/-- The kinds of resolvents. -/
inductive Resolvent.Kind where
  | empty
  | tautology
  | clause
  deriving DecidableEq, Repr

/-- The kind of a resolvent. -/
def Resolvent.kind : Resolvent → Kind
  | .empty => .empty
  | .tautology _ => .tautology
  | .clause _ => .clause

/-- Append the merge of two lists that ascend by variable to a buffer, up to the first pair of
complementary literals. -/
def mergeInto : List Lit → List Lit → Array Lit → Resolvent.Kind × Array Lit
  | [], ys, buffer => (.clause, buffer ++ ys)
  | xs, [], buffer => (.clause, buffer ++ xs)
  | x :: xs, y :: ys, buffer =>
    match compare x.var y.var with
    | .lt => mergeInto xs (y :: ys) (buffer.push x)
    | .gt => mergeInto (x :: xs) ys (buffer.push y)
    | .eq => if x = y then mergeInto xs ys (buffer.push x) else (.tautology, buffer)
termination_by xs ys => xs.length + ys.length

/-- Resolve two clauses on their pivots into a buffer, which is cleared first. -/
def resolveInto (order : Order) (positive negative : List Lit) (buffer : Array Lit) :
    Except Fault (Resolvent.Kind × Array Lit) :=
  match order.pivot? positive, order.pivot? negative with
  | some p, some n =>
    if p = n.negate then
      match order.rest positive, order.rest negative with
      | [], [] => .ok (.empty, buffer.shrink 0)
      | xs, ys => .ok (mergeInto xs ys (buffer.shrink 0))
    else .error .pivotsDoNotClash
  | _, _ => .error .noPivot

theorem mergeLits_nil_left (ys : List Lit) : mergeLits [] ys = .clause ys := by
  simp [mergeLits]

theorem mergeLits_nil_right (xs : List Lit) : mergeLits xs [] = .clause xs := by
  cases xs <;> simp [mergeLits]

end BucketElimination
