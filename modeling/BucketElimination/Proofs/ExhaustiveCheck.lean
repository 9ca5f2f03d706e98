import BucketElimination.Logic.Semantics
import BucketElimination.Proofs.SolverVerdict
import Mathlib.Data.Nat.Init
set_option autoImplicit false

/-!
# The exhaustive check is right, and agrees with the solver

The exhaustive check counts through the words below a power of two and reads each of them as an
assignment.  The words up to there differ in just the bits at the indices of the formula's
variables, so every assignment to these variables is tried, and no other variable occurs in the
clauses.  Hence the check finds out whether the formula can be satisfied, which is also what the
solver answers, whatever its configuration and the schedule of its workers.
-/

namespace BucketElimination

/-! ## Assignments in words -/

namespace Assignment

/-- Shifting by the index of a variable brings its bit to the last place. -/
theorem ofBits_eq_testBit (word : UInt32) {v : Var} (hv : v.index < 32) :
    ofBits word v = word.toNat.testBit v.index := by
  have hindex : (UInt32.ofNat v.index).toNat = v.index :=
    UInt32.toNat_ofNat_of_lt' (Nat.lt_trans hv (by decide))
  have hbit : ((word >>> UInt32.ofNat v.index) &&& 1).toNat = word.toNat >>> v.index % 2 := by
    rw [UInt32.toNat_and, UInt32.toNat_shiftRight, hindex, Nat.mod_eq_of_lt hv]
    exact Nat.and_one_is_mod _
  rw [ofBits, Bool.eq_iff_iff, beq_iff_eq, ← UInt32.toNat_inj, hbit,
    Nat.testBit_eq_decide_div_mod_eq, Nat.shiftRight_eq_div_pow, decide_eq_true_eq]
  rfl

/-- Every assignment to the variables below a bound is written down in some word. -/
theorem exists_ofBits_eq (a : Assignment) {count : Nat} (hcount : count ≤ Formula.maxExhaustive) :
    ∃ n < 2 ^ count, ∀ v : Var, v.index < count → ofBits (UInt32.ofNat n) v = a v := by
  have hmax : count ≤ 20 := hcount
  let bit (i : Fin count) : Bool := (Var.ofIndex? i).elim false a
  refine ⟨Nat.ofBits bit, Nat.ofBits_lt_two_pow bit, fun v hv => ?_⟩
  have hlt : Nat.ofBits bit < 2 ^ 32 :=
    Nat.lt_of_lt_of_le (Nat.ofBits_lt_two_pow bit) (Nat.pow_le_pow_right Nat.two_pos (by omega))
  rw [ofBits_eq_testBit _ (by omega), UInt32.toNat_ofNat_of_lt' hlt, Nat.testBit_ofBits_lt _ _ hv]
  simp [bit]

/-- Only the variables of the clauses matter. -/
theorem satisfiesAll_congr {a a' : Assignment} {clauses : List (List Lit)}
    (h : ∀ lits ∈ clauses, ∀ l ∈ lits, a l.var = a' l.var) :
    a.satisfiesAll clauses = a'.satisfiesAll clauses := by
  have hclause : ∀ lits ∈ clauses, a.satisfies lits = a'.satisfies lits := by
    intro lits hlits
    rw [Bool.eq_iff_iff, satisfies_iff, satisfies_iff]
    refine exists_congr fun l => and_congr_right fun hl => ?_
    rw [holds, holds, h lits hlits l hl]
  rw [Bool.eq_iff_iff, satisfiesAll_iff, satisfiesAll_iff]
  refine forall_congr' fun lits => forall_congr' fun hlits => ?_
  rw [hclause lits hlits]

end Assignment

/-! ## The check -/

namespace Formula

/-- The number of assignments to the variables that the check accepts fits into a word. -/
theorem toNat_one_shiftLeft {count : Nat} (hcount : count ≤ maxExhaustive) :
    ((1 : UInt32) <<< UInt32.ofNat count).toNat = 2 ^ count := by
  have hmax : count ≤ 20 := hcount
  have hword : (UInt32.ofNat count).toNat = count :=
    UInt32.toNat_ofNat_of_lt' (Nat.lt_of_le_of_lt hmax (by decide))
  have hlt : 2 ^ count < 2 ^ 32 := Nat.pow_lt_pow_right Nat.one_lt_two (by omega)
  rw [UInt32.toNat_shiftLeft, hword, Nat.mod_eq_of_lt (by omega : count < 32), Nat.shiftLeft_eq,
    UInt32.toNat_one, Nat.one_mul, Nat.mod_eq_of_lt hlt]

/-- The check finds an assignment if there is one. -/
theorem Reachable.exhaustive_iff {f : Formula} (hf : f.Reachable)
    (hcount : f.varCount ≤ maxExhaustive) :
    ∃ answer, f.exhaustive = .ok answer ∧ (answer = true ↔ Satisfiable f.clauses) := by
  rw [exhaustive, if_pos hcount]
  refine ⟨_, rfl, ?_⟩
  rw [toNat_one_shiftLeft hcount, List.any_eq_true]
  constructor
  · rintro ⟨n, -, hn⟩
    exact ⟨_, hn⟩
  · rintro ⟨a, ha⟩
    obtain ⟨n, hlt, hbits⟩ := a.exists_ofBits_eq hcount
    refine ⟨n, List.mem_range.2 hlt, ?_⟩
    rw [Assignment.satisfiesAll_congr fun lits hlits l hl => ?_, ha]
    apply hbits
    exact Var.index_lt_iff.2 (hf.wellFormed.number_le_of_mem hlits hl)

end Formula

/-! ## The solver -/

namespace Solver

/-- A new solver after some changes of its configuration, refused ones among them. -/
def configured (updates : List Update) : Solver :=
  updates.foldl (fun s u => (s.configure u).1) new

theorem standsFor_configured (updates : List Update) : StandsFor [] (configured updates) := by
  have hfold : ∀ s, StandsFor [] s →
      StandsFor [] (updates.foldl (fun s u => (s.configure u).1) s) := by
    induction updates with
    | nil => exact fun s hs => hs
    | cons u updates ih => exact fun s hs => ih _ (hs.configure u)
  exact hfold new standsFor_new

end Solver

/-- The exhaustive check of a formula with at most twenty variables finds out whether some
assignment satisfies all its clauses.  A solver into which the formula is loaded gives the same
answer, whatever its configuration, the schedule of its workers and the order of their merges. -/
theorem Formula.Reachable.exhaustive_agrees {f : Formula} (hf : f.Reachable)
    (hcount : f.varCount ≤ 20) :
    ∃ answer, f.exhaustive = .ok answer ∧ (answer = true ↔ Satisfiable f.clauses) ∧
      ∀ updates : List Update, ∃ s, (Solver.configured updates).addFormula f = (s, .ok ()) ∧
        ∀ parallelism,
          (∀ shuffler, s.SolvesTo parallelism (s.solve shuffler parallelism).2) ∧
          ∀ result, s.SolvesTo parallelism result → result = .ok answer := by
  obtain ⟨answer, hexhaustive, hiff⟩ := hf.exhaustive_iff hcount
  refine ⟨answer, hexhaustive, hiff, fun updates => ?_⟩
  have hnumbers : ∀ lits ∈ f.clauses, ∀ l ∈ lits, l.var.number ≤ f.varCount :=
    fun _ hlits _ hl => hf.wellFormed.number_le_of_mem hlits hl
  have hmax : f.varCount ≤ Var.maxNumber := Nat.le_trans hcount (by decide)
  obtain ⟨s, hadd, hstands⟩ :=
    (Solver.standsFor_configured updates).load_of_le f.varCount f.clauses hnumbers hmax
  refine ⟨s, hadd, fun parallelism =>
    ⟨fun shuffler => Solver.solvesTo_solve s shuffler parallelism, fun result hs => ?_⟩⟩
  obtain ⟨hsat, hunsat⟩ := hstands.solvesTo hs
  rw [List.nil_append] at hsat hunsat
  cases answer with
  | true => exact hsat (hiff.1 rfl)
  | false => exact hunsat fun h => Bool.false_ne_true (hiff.2 h)

/-- A formula with a clause that always holds, one that repeats a literal, a unit, and a variable
that does not occur. -/
def looseFormula : Formula :=
  (Formula.ofClauses (([[1, -1], [2, 2], [-1]] : List (List Int)).map
    (·.filterMap Lit.ofInt?))).raiseVarCount 3

/-- The theorem on this formula, for solvers with either order. -/
theorem exhaustive_agrees_looseFormula :
    looseFormula.Reachable ∧ looseFormula.varCount ≤ 20 ∧ looseFormula.exhaustive = .ok true ∧
      ∀ order, ∃ s, (Solver.configured [⟨none, none, some order, none, none⟩]).addFormula
        looseFormula = (s, .ok ()) ∧ ∀ shuffler, (s.solve shuffler 2).2 = .ok true := by
  have hreachable : looseFormula.Reachable :=
    .raiseVarCount _ (.addClause _ (.addClause _ (.addClause _ .empty)))
  have hcount : looseFormula.varCount ≤ 20 := by decide
  have htrue : looseFormula.exhaustive = .ok true := by decide +kernel
  obtain ⟨answer, hanswer, -, hsolver⟩ := hreachable.exhaustive_agrees hcount
  rw [htrue] at hanswer
  cases hanswer
  refine ⟨hreachable, hcount, htrue, fun order => ?_⟩
  obtain ⟨s, hadd, hsolves⟩ := hsolver [⟨none, none, some order, none, none⟩]
  obtain ⟨hserial, hall⟩ := hsolves 2
  exact ⟨s, hadd, fun shuffler => hall _ (hserial shuffler)⟩

end BucketElimination
