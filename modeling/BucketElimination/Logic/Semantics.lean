import BucketElimination.Fault
import BucketElimination.Logic.Formula
set_option autoImplicit false

/-!
# Logic: assignments and satisfaction

An assignment gives every variable a truth value.  A clause holds if one of its literals does, and
a list of clauses if each of its clauses does.  `Formula.exhaustive` decides by trying every
assignment to the variables of the formula whether one satisfies it.
-/

namespace BucketElimination

/-- A truth value for every variable. -/
abbrev Assignment := Var → Bool

namespace Assignment

/-- The literal is true. -/
def holds (a : Assignment) (l : Lit) : Bool := a l.var == l.polarity.toBool

/-- Some literal of the clause is true. -/
def satisfies (a : Assignment) (lits : List Lit) : Bool := lits.any a.holds

/-- Every clause is satisfied. -/
def satisfiesAll (a : Assignment) (clauses : List (List Lit)) : Bool := clauses.all a.satisfies

/-- The assignment with the value of one variable replaced. -/
def update (a : Assignment) (v : Var) (value : Bool) : Assignment :=
  fun w => if w = v then value else a w

/-- The assignment that is written down in a word: the value of a variable is the bit at the
variable's index. -/
def ofBits (word : UInt32) : Assignment := fun v => (word >>> UInt32.ofNat v.index) &&& 1 == 1

@[simp] theorem holds_negate (a : Assignment) (l : Lit) : a.holds l.negate = !a.holds l := by
  simp only [holds, Lit.negate, Polarity.toBool_opposite]
  cases a l.var <;> cases l.polarity.toBool <;> rfl

/-- A clause is satisfied exactly if one of its literals holds. -/
theorem satisfies_iff {a : Assignment} {lits : List Lit} :
    a.satisfies lits = true ↔ ∃ l ∈ lits, a.holds l = true := by
  simp [satisfies]

/-- A list of clauses is satisfied exactly if each of its clauses is. -/
theorem satisfiesAll_iff {a : Assignment} {clauses : List (List Lit)} :
    a.satisfiesAll clauses = true ↔ ∀ lits ∈ clauses, a.satisfies lits = true := by
  simp [satisfiesAll]

@[simp] theorem update_self (a : Assignment) (v : Var) (value : Bool) :
    a.update v value v = value := by
  simp [update]

theorem update_of_ne (a : Assignment) {v w : Var} (h : w ≠ v) (value : Bool) :
    a.update v value w = a w := by
  simp [update, h]

end Assignment

/-- Some assignment satisfies every clause. -/
def Satisfiable (clauses : List (List Lit)) : Prop :=
  ∃ a : Assignment, a.satisfiesAll clauses = true

/-- The largest number of variables that the exhaustive check accepts. -/
def Formula.maxExhaustive : Nat := 20

/-- Whether one of the assignments to the variables of the formula satisfies it.  The assignments are
counted in a word. -/
def Formula.exhaustive (f : Formula) : Except Fault Bool :=
  if f.varCount ≤ maxExhaustive then
    let clauses := f.clauses
    let count : UInt32 := 1 <<< UInt32.ofNat f.varCount
    .ok ((List.range count.toNat).any fun n =>
      (Assignment.ofBits (UInt32.ofNat n)).satisfiesAll clauses)
  else .error .tooManyForExhaustive

end BucketElimination
