import BucketElimination.Proofs.FormulaClauses
import Mathlib.Data.List.Induction
import Mathlib.Order.Bounds.Basic
set_option autoImplicit false

/-!
# Formulas are known by what was done to them

A formula is made by adding clauses and raising the number of variables, in any order.  It then yields
the clauses that were added, as they were and in that order, and counts as many variables as the
largest number that was asked for or used.  Two formulas are equal exactly if they count the same
variables and yield the same clauses, for these determine the literals and the ends of the clauses in
the buffer, also where clauses without literals make ends coincide.
-/

namespace BucketElimination.Formula

/-! ## Building a formula -/

/-- What can be done to a formula. -/
inductive Change where
  | addClause (lits : List Lit)
  | raiseVarCount (count : Nat)

/-- The clause that a change adds. -/
def Change.clause? : Change → Option (List Lit)
  | .addClause lits => some lits
  | .raiseVarCount _ => none

/-- A change sets the number of variables to `n` or uses the variable with the number `n`. -/
def Change.Names (n : Nat) : Change → Prop
  | .addClause lits => ∃ l ∈ lits, l.var.number = n
  | .raiseVarCount count => count = n

/-- The formula after a change. -/
def change (f : Formula) : Change → Formula
  | .addClause lits => f.addClause lits
  | .raiseVarCount count => f.raiseVarCount count

/-- The formula that changes make out of the empty one. -/
def build (changes : List Change) : Formula := changes.foldl change empty

theorem build_append (changes : List Change) (last : Change) :
    build (changes ++ [last]) = (build changes).change last := by
  simp [build, List.foldl_append]

theorem reachable_build (changes : List Change) : (build changes).Reachable := by
  induction changes using List.reverseRecOn with
  | nil => exact .empty
  | append_singleton changes last ih =>
    rw [build_append]
    cases last with
    | addClause lits => exact .addClause lits ih
    | raiseVarCount count => exact .raiseVarCount count ih

/-! ## The stretches of the buffer -/

/-- Where each clause begins and ends in the buffer of literals. -/
def spans (f : Formula) : List (Nat × Nat) := List.zip (0 :: f.ends.toList) f.ends.toList

theorem clauses_eq_spans (f : Formula) :
    f.clauses = f.spans.map fun span => (f.literals.extract span.1 span.2).toList := rfl

/-- An added clause begins where the literals ended before. -/
theorem WellFormed.spans_addClause {f : Formula} (h : f.WellFormed) (lits : List Lit) :
    (f.addClause lits).spans = f.spans ++ [(f.literals.size, (f.addClause lits).literals.size)] := by
  simp only [spans, Formula.addClause, Array.toList_push, zip_ends_append, h.last_eq]

/-- Every clause is a stretch of the literals that are there. -/
theorem Reachable.span_le {f : Formula} (h : f.Reachable) :
    ∀ span ∈ f.spans, span.1 ≤ span.2 ∧ span.2 ≤ f.literals.size := by
  induction h with
  | empty => exact fun span hspan => absurd hspan List.not_mem_nil
  | @addClause f lits h ih =>
    have hsize := size_literals_addClause f lits
    intro span hspan
    rw [h.wellFormed.spans_addClause, List.mem_append, List.mem_singleton] at hspan
    rcases hspan with hold | rfl
    · have hle := ih span hold
      exact ⟨hle.1, by omega⟩
    · exact ⟨by simp only; omega, Nat.le_refl _⟩
  | raiseVarCount count _ ih => exact ih

/-! ## The clauses -/

/-- A formula yields the clauses that were added, and no others. -/
theorem clauses_build (changes : List Change) :
    (build changes).clauses = changes.filterMap Change.clause? := by
  induction changes using List.reverseRecOn with
  | nil => rfl
  | append_singleton changes last ih =>
    rw [build_append, List.filterMap_append, ← ih]
    cases last with
    | addClause lits => exact (reachable_build changes).wellFormed.clauses_addClause lits
    | raiseVarCount count => exact (List.append_nil _).symm

/-! ## The number of variables -/

theorem isGreatest_maxVarNumber (lits : List Lit) :
    IsGreatest {n | n = 0 ∨ ∃ l ∈ lits, l.var.number = n} (maxVarNumber lits) := by
  constructor
  · induction lits using List.reverseRecOn with
    | nil => exact .inl rfl
    | append_singleton lits last ih =>
      have hmax : maxVarNumber (lits ++ [last]) = max (maxVarNumber lits) last.var.number := by
        simp [maxVarNumber, List.foldl_append]
      rw [hmax]
      rcases Nat.le_total last.var.number (maxVarNumber lits) with hle | hle
      · rw [Nat.max_eq_left hle]
        refine ih.imp_right ?_
        rintro ⟨l, hl, hnumber⟩
        exact ⟨l, List.mem_append_left _ hl, hnumber⟩
      · rw [Nat.max_eq_right hle]
        exact .inr ⟨last, List.mem_append_right _ (List.mem_singleton_self last), rfl⟩
  · rintro n (rfl | ⟨l, hl, rfl⟩)
    · exact Nat.zero_le _
    · exact number_le_maxVarNumber hl

/-- A change raises the number of variables to the largest number that it names. -/
theorem exists_isGreatest_change (f : Formula) (last : Change) :
    ∃ m, IsGreatest {n | n = 0 ∨ last.Names n} m ∧ (f.change last).varCount = max f.varCount m := by
  cases last with
  | addClause lits => exact ⟨maxVarNumber lits, isGreatest_maxVarNumber lits, rfl⟩
  | raiseVarCount count =>
    refine ⟨count, ⟨.inr rfl, ?_⟩, rfl⟩
    rintro n (rfl | hn)
    · exact Nat.zero_le _
    · exact Nat.le_of_eq hn.symm

/-- The number of variables is the largest number that was named, 0 if none was. -/
theorem isGreatest_varCount_build (changes : List Change) :
    IsGreatest {n | n = 0 ∨ ∃ c ∈ changes, c.Names n} (build changes).varCount := by
  induction changes using List.reverseRecOn with
  | nil =>
    refine ⟨.inl rfl, ?_⟩
    rintro n (rfl | ⟨c, hc, -⟩)
    · exact Nat.le_refl _
    · cases hc
  | append_singleton changes last ih =>
    obtain ⟨m, hm, hcount⟩ := exists_isGreatest_change (build changes) last
    rw [build_append, hcount]
    have hboth : {n | n = 0 ∨ ∃ c ∈ changes ++ [last], c.Names n} =
        {n | n = 0 ∨ ∃ c ∈ changes, c.Names n} ∪ {n | n = 0 ∨ last.Names n} := by
      ext n
      simp only [List.mem_append, List.mem_singleton, or_and_right, exists_or, exists_eq_left,
        Set.mem_ofPred_eq, Set.mem_union]
      exact or_or_distrib_left
    rw [hboth]
    exact ih.union hm

/-! ## Built formulas -/

/-- Whatever was done to a formula, it yields the clauses that were added, each cut out of the literals
that are there, counts them, and has as many variables as the largest number named.  Two such formulas
compare as equal exactly if they have the same number of variables and the same clauses. -/
theorem build_exact (changes : List Change) :
    (build changes).clauses = changes.filterMap Change.clause? ∧
      ((build changes).clauses = (build changes).spans.map fun span =>
        ((build changes).literals.extract span.1 span.2).toList) ∧
      (∀ span ∈ (build changes).spans,
        span.1 ≤ span.2 ∧ span.2 ≤ (build changes).literals.size) ∧
      (build changes).size = (changes.filterMap Change.clause?).length ∧
      IsGreatest {n | n = 0 ∨ ∃ c ∈ changes, c.Names n} (build changes).varCount ∧
      ∀ changes', (build changes == build changes') = true ↔
        (build changes).varCount = (build changes').varCount ∧
          (build changes).clauses = (build changes').clauses := by
  have hreachable := reachable_build changes
  refine ⟨clauses_build changes, clauses_eq_spans _, hreachable.span_le, ?_,
    isGreatest_varCount_build changes, ?_⟩
  · rw [← length_clauses, clauses_build]
  · intro changes'
    rw [beq_iff_eq]
    constructor
    · intro heq
      rw [heq]
      exact ⟨rfl, rfl⟩
    · intro hsame
      exact hreachable.ext (reachable_build changes') hsame.1 hsame.2

-- The same literals in the buffer, but not the same clauses: the ends tell them apart.
example : (build [.addClause [⟨default, .positive⟩], .addClause []] ==
    build [.addClause [], .addClause [⟨default, .positive⟩]]) = false := by decide

end BucketElimination.Formula
