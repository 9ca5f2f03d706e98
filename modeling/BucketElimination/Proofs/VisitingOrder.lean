import BucketElimination.Proofs.Resolvents
import Mathlib.Data.Set.Function
import Mathlib.Order.Bounds.Defs
set_option autoImplicit false

/-!
# The order of visits

An order of elimination says two things: which variable each step visits, and which literal of a
clause is its pivot.  Both fit together.  The steps number the variables, one variable being
eliminated before another exactly if its step is earlier, and the pivot of a canonical clause is the
literal whose variable is visited first.

Steps have variables only as far as there are variables: out of more than `Var.maxNumber` variables
some step has none.
-/

namespace BucketElimination

theorem Var.exists_ofIndex? {i : Nat} (h : i < Var.maxNumber) : ∃ v, Var.ofIndex? i = some v :=
  ⟨⟨i + 1, Nat.le_add_left 1 i, h⟩, Var.ofNumber?_eq_some_iff.2 rfl⟩

theorem Var.index_of_ofIndex? {i : Nat} {v : Var} (h : Var.ofIndex? i = some v) : v.index = i := by
  rw [Var.ofIndex?, Var.ofNumber?_eq_some_iff] at h
  rw [Var.index, h]
  omega

/-- A variable has a bucket if the variables up to its number have. -/
theorem Var.index_lt_iff {v : Var} {n : Nat} : v.index < n ↔ v.number ≤ n := by
  have hone := v.one_le
  unfold Var.index
  omega

namespace Order

/-! ## Steps and variables -/

/-- The step in which a variable is eliminated, out of `varCount` variables. -/
def stepOf (order : Order) (varCount : Nat) (v : Var) : Nat :=
  match order with
  | .descending => varCount - 1 - v.index
  | .ascending => v.index

variable {order : Order} {i j step varCount : Nat} {v w : Var}

/-- The variable of a step is one of those counted. -/
theorem index_lt_of_varAt? (h : order.varAt? step varCount = some v) : v.index < varCount := by
  unfold varAt? at h
  split at h
  · rename_i hlt
    cases order with
    | descending =>
      rw [Var.index_of_ofIndex? h]
      omega
    | ascending =>
      rw [Var.index_of_ofIndex? h]
      exact hlt
  · cases h

theorem stepOf_of_varAt? (h : order.varAt? step varCount = some v) :
    order.stepOf varCount v = step := by
  unfold varAt? at h
  split at h
  · rename_i hlt
    cases order with
    | descending =>
      simp only [stepOf, Var.index_of_ofIndex? h]
      omega
    | ascending => exact Var.index_of_ofIndex? h
  · cases h

/-- One variable is eliminated before another exactly if its step is earlier. -/
theorem stepOf_lt_iff (hv : v.index < varCount) (hw : w.index < varCount) :
    order.stepOf varCount v < order.stepOf varCount w ↔ order.precedes v w = true := by
  have hv' := v.one_le
  have hw' := w.one_le
  cases order <;> simp only [stepOf, precedes, Var.index, Var.lt_def, decide_eq_true_eq] at * <;>
    omega

theorem stepOf_lt (hv : v.index < varCount) : order.stepOf varCount v < varCount := by
  cases order <;> simp only [stepOf] <;> omega

/-- A variable has a step. -/
theorem varAt?_stepOf (order : Order) {varCount : Nat} {v : Var} (h : v.index < varCount) :
    order.varAt? (order.stepOf varCount v) varCount = some v := by
  unfold Order.varAt?
  rw [if_pos (Order.stepOf_lt h)]
  cases order with
  | descending =>
    have hindex : varCount - 1 - (varCount - 1 - v.index) = v.index := by omega
    simp only [Order.stepOf, hindex, Var.ofIndex?_index]
  | ascending => exact Var.ofIndex?_index v

theorem precedes_iff_lt (hv : order.varAt? i varCount = some v)
    (hw : order.varAt? j varCount = some w) : order.precedes v w = true ↔ i < j := by
  rw [← stepOf_lt_iff (index_lt_of_varAt? hv) (index_lt_of_varAt? hw), stepOf_of_varAt? hv,
    stepOf_of_varAt? hw]

/-! ## The steps number the variables -/

/-- If all variables counted are there, every step has one. -/
theorem exists_varAt? (order : Order) (hvars : ∀ i < varCount, ∃ v, Var.ofIndex? i = some v)
    (hstep : step < varCount) : ∃ v, order.varAt? step varCount = some v := by
  unfold varAt?
  rw [if_pos hstep]
  cases order with
  | descending => exact hvars _ (by omega)
  | ascending => exact hvars step hstep

/-- The steps are the variables up to the number of variables, in another guise. -/
theorem bijOn_varAt? (order : Order) (hcount : varCount ≤ Var.maxNumber) :
    Set.BijOn (fun i => order.varAt? i varCount) {i | i < varCount}
      (some '' {v : Var | v.number ≤ varCount}) := by
  have hvars : ∀ i < varCount, ∃ v, Var.ofIndex? i = some v := by
    intro i hi
    exact Var.exists_ofIndex? (Nat.lt_of_lt_of_le hi hcount)
  refine ⟨?_, ?_, ?_⟩
  · intro i hi
    obtain ⟨v, hv⟩ := exists_varAt? order hvars hi
    exact ⟨v, Var.index_lt_iff.1 (index_lt_of_varAt? hv), hv.symm⟩
  · intro i hi j _ hij
    obtain ⟨v, hv⟩ := exists_varAt? order hvars hi
    rw [← stepOf_of_varAt? hv]
    exact stepOf_of_varAt? (hij.symm.trans hv)
  · rintro _ ⟨v, hv, rfl⟩
    have hlt : v.index < varCount := Var.index_lt_iff.2 hv
    exact ⟨order.stepOf varCount v, stepOf_lt hlt, order.varAt?_stepOf hlt⟩

/-- One variable too many, and the first step of the descending order has none. -/
theorem not_bijOn_varAt?_past_last :
    ¬ Set.BijOn (fun i => Order.descending.varAt? i (Var.maxNumber + 1))
        {i | i < Var.maxNumber + 1} (some '' {v : Var | v.number ≤ Var.maxNumber + 1}) := by
  intro hbij
  obtain ⟨v, -, hv⟩ := hbij.mapsTo (Nat.succ_pos Var.maxNumber : 0 < Var.maxNumber + 1)
  have hnone : Order.descending.varAt? 0 (Var.maxNumber + 1) = none := by decide
  cases hv.trans hnone

/-! ## The pivot is visited first -/

theorem exists_pivot (order : Order) {lits : List Lit} (h : lits ≠ []) :
    ∃ p, order.pivot? lits = some p := by
  cases hp : order.pivot? lits with
  | none => exact absurd (pivot?_eq_none_iff.1 hp) h
  | some p => exact ⟨p, rfl⟩

/-- The first step that visits a variable of a canonical list visits that of the pivot. -/
theorem isLeast_step_of_pivot {lits : List Lit} {p : Lit} (hcanonical : isCanonical lits = true)
    (hle : ∀ l ∈ lits, l.var.number ≤ varCount) (hp : order.pivot? lits = some p) :
    IsLeast {i | ∃ l ∈ lits, order.varAt? i varCount = some l.var}
      (order.stepOf varCount p.var) := by
  have hvisit : order.varAt? (order.stepOf varCount p.var) varCount = some p.var :=
    order.varAt?_stepOf (Var.index_lt_iff.2 (hle p (pivot_mem hp)))
  refine ⟨⟨p, pivot_mem hp, hvisit⟩, ?_⟩
  rintro j ⟨l, hl, hj⟩
  rcases (mem_iff_pivot_or_rest hp l).1 hl with rfl | hrest
  · exact Nat.le_of_eq (stepOf_of_varAt? hj)
  · exact Nat.le_of_lt ((precedes_iff_lt hvisit hj).1 (precedes_of_mem_rest hcanonical hp hrest))

/-- The visits and the pivots agree.  Out of no more variables than there are, the steps are in
bijection with the variables; one variable is eliminated before another exactly if it is visited in
an earlier step.  A canonical list with a literal is its pivot and a canonical rest, all of whose
variables are eliminated later, so the pivot is what is visited first. -/
theorem visits_pivot_first (order : Order) (n : Nat) :
    (n ≤ Var.maxNumber →
      Set.BijOn (fun i => order.varAt? i n) {i | i < n} (some '' {v : Var | v.number ≤ n})) ∧
    (∀ i j v w, order.varAt? i n = some v → order.varAt? j n = some w →
      (order.precedes v w = true ↔ i < j)) ∧
    ∀ lits : List Lit, lits ≠ [] → isCanonical lits = true → (∀ l ∈ lits, l.var.number ≤ n) →
      ∃ p, order.pivot? lits = some p ∧
        (lits = match order with
          | .descending => order.rest lits ++ [p]
          | .ascending => p :: order.rest lits) ∧
        isCanonical (order.rest lits) = true ∧
        (∀ l ∈ order.rest lits, order.precedes p.var l.var = true) ∧
        ∃ i, order.varAt? i n = some p.var ∧
          IsLeast {j | ∃ l ∈ lits, order.varAt? j n = some l.var} i := by
  refine ⟨order.bijOn_varAt?, fun i j v w => precedes_iff_lt, ?_⟩
  intro lits hne hcanonical hle
  obtain ⟨p, hp⟩ := order.exists_pivot hne
  refine ⟨p, hp, ?_, order.isCanonical_rest hcanonical, ?_, ?_⟩
  · have hlits := eq_rest_pivot hp
    cases order <;> exact hlits
  · intro l hl
    exact precedes_of_mem_rest hcanonical hp hl
  · have hlt : p.var.index < n := Var.index_lt_iff.2 (hle p (pivot_mem hp))
    exact ⟨order.stepOf n p.var, order.varAt?_stepOf hlt, isLeast_step_of_pivot hcanonical hle hp⟩

/-- A clause of three variables. -/
def threeLits : List Lit := [litOf (-1), litOf 3, litOf (-4)]

/-- The theorem on this clause out of four variables: from the largest variable down the last literal
is visited in the first step, from the smallest up the first literal is. -/
theorem visits_pivot_first_threeLits :
    4 ≤ Var.maxNumber ∧ isCanonical threeLits = true ∧ (∀ l ∈ threeLits, l.var.number ≤ 4) ∧
      Order.descending.pivot? threeLits = some (litOf (-4)) ∧
      Order.ascending.pivot? threeLits = some (litOf (-1)) ∧
      ∀ order : Order, IsLeast {j | ∃ l ∈ threeLits, order.varAt? j 4 = some l.var} 0 := by
  have hcanonical : isCanonical threeLits = true := by decide
  have hle : ∀ l ∈ threeLits, l.var.number ≤ 4 := by decide
  refine ⟨by decide, hcanonical, hle, by decide, by decide, ?_⟩
  intro order
  obtain ⟨-, -, hpivot⟩ := visits_pivot_first order 4
  obtain ⟨p, hp, -, -, -, i, hi, hleast⟩ := hpivot threeLits (by decide) hcanonical hle
  have hfirst : order.stepOf 4 p.var = 0 := by
    cases order <;> cases hp <;> decide
  rw [← stepOf_of_varAt? hi, hfirst] at hleast
  exact hleast

end Order

end BucketElimination
