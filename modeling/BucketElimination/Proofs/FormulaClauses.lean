import BucketElimination.Logic.Formula
set_option autoImplicit false

/-!
# Formulas keep their clauses

A formula that was made clause by clause keeps its clauses as they were added and counts all their
variables.  Its number of variables and its clauses say all there is to say about it.
-/

namespace BucketElimination.Formula

/-- The ends of the clauses fit the literals, and all variables are counted. -/
structure WellFormed (f : Formula) : Prop where
  last_eq : f.ends.toList.getLastD 0 = f.literals.size
  ends_le : ∀ e ∈ f.ends.toList, e ≤ f.literals.size
  number_le : ∀ l ∈ f.literals.toList, l.var.number ≤ f.varCount

/-- The formulas that can be made out of the empty one. -/
inductive Reachable : Formula → Prop
  | empty : Reachable Formula.empty
  | addClause {f : Formula} (lits : List Lit) : Reachable f → Reachable (f.addClause lits)
  | raiseVarCount {f : Formula} (count : Nat) : Reachable f → Reachable (f.raiseVarCount count)

theorem wellFormed_empty : empty.WellFormed := ⟨rfl, by simp [empty], by simp [empty]⟩

/-- The largest number is a bound that is reached. -/
theorem maxVarNumber_le_iff {lits : List Lit} {n : Nat} :
    maxVarNumber lits ≤ n ↔ ∀ l ∈ lits, l.var.number ≤ n := by
  have hfold : ∀ (ls : List Lit) (m : Nat), ls.foldl (fun n l => max n l.var.number) m ≤ n ↔
      m ≤ n ∧ ∀ l ∈ ls, l.var.number ≤ n := by
    intro ls
    induction ls with
    | nil => simp
    | cons x xs ih =>
      intro m
      rw [List.foldl_cons, ih, List.forall_mem_cons, Nat.max_le, and_assoc]
  rw [maxVarNumber, hfold]
  simp

/-- Every literal is counted. -/
theorem number_le_maxVarNumber {lits : List Lit} {l : Lit} (hl : l ∈ lits) :
    l.var.number ≤ maxVarNumber lits :=
  maxVarNumber_le_iff.1 (Nat.le_refl _) l hl

theorem size_literals_addClause (f : Formula) (lits : List Lit) :
    (f.addClause lits).literals.size = f.literals.size + lits.length := by
  show (f.literals ++ lits).size = _
  rw [← Array.length_toList, Array.toList_appendList, List.length_append, Array.length_toList]

theorem WellFormed.addClause {f : Formula} (h : f.WellFormed) (lits : List Lit) :
    (f.addClause lits).WellFormed where
  last_eq := by simp [Formula.addClause]
  ends_le := by
    intro e he
    simp only [Formula.addClause, Array.toList_push, List.mem_append, List.mem_singleton] at he
    rcases he with he | rfl
    · have hle := h.ends_le e he
      rw [size_literals_addClause]
      omega
    · exact Nat.le_refl _
  number_le := by
    intro l hl
    simp only [Formula.addClause, Array.toList_appendList, List.mem_append] at hl
    show _ ≤ max _ _
    rcases hl with hl | hl
    · have := h.number_le l hl
      omega
    · have := number_le_maxVarNumber hl
      omega

theorem WellFormed.raiseVarCount {f : Formula} (h : f.WellFormed) (count : Nat) :
    (f.raiseVarCount count).WellFormed :=
  ⟨h.last_eq, h.ends_le, fun l hl => Nat.le_trans (h.number_le l hl) (Nat.le_max_left _ _)⟩

theorem Reachable.wellFormed {f : Formula} (h : f.Reachable) : f.WellFormed := by
  induction h with
  | empty => exact wellFormed_empty
  | addClause lits _ ih => exact ih.addClause lits
  | raiseVarCount count _ ih => exact ih.raiseVarCount count

theorem length_clauses (f : Formula) : f.clauses.length = f.size := by
  simp [clauses, size]

/-- One more end is one more stretch, which begins where the last one ended. -/
theorem zip_ends_append (start : Nat) (ends : List Nat) (e : Nat) :
    List.zip (start :: (ends ++ [e])) (ends ++ [e]) =
      List.zip (start :: ends) ends ++ [(ends.getLastD start, e)] := by
  induction ends generalizing start with
  | nil => rfl
  | cons x xs ih =>
    rw [List.cons_append, List.zip_cons_cons, ih, List.zip_cons_cons, List.cons_append]
    cases xs <;> rfl

/-- A clause is appended to the others as it is. -/
theorem WellFormed.clauses_addClause {f : Formula} (h : f.WellFormed) (lits : List Lit) :
    (f.addClause lits).clauses = f.clauses ++ [lits] := by
  have hold : ∀ x ∈ List.zip (0 :: f.ends.toList) f.ends.toList,
      ((f.literals ++ lits).extract x.1 x.2).toList = (f.literals.extract x.1 x.2).toList := by
    intro x hx
    -- the stretch of an old clause ends before the new literals
    have hle : x.2 ≤ f.literals.toList.length := h.ends_le x.2 (List.of_mem_zip hx).2
    rw [Array.toList_extract, Array.toList_extract, Array.toList_appendList,
      List.extract_eq_drop_take', List.extract_eq_drop_take', List.take_append_of_le_length hle]
  have hnew : ((f.literals ++ lits).extract f.literals.size (f.literals ++ lits).size).toList =
      lits := by
    have hall : (f.literals ++ lits).toList.take (f.literals ++ lits).size =
        f.literals.toList ++ lits := by
      rw [← Array.length_toList, List.take_length, Array.toList_appendList]
    rw [Array.toList_extract, List.extract_eq_drop_take', hall, ← Array.length_toList,
      List.drop_left]
  simp only [clauses, Formula.addClause, Array.toList_push, zip_ends_append, List.map_append,
    List.map_congr_left hold, List.map_cons, List.map_nil, h.last_eq, hnew]

/-- A formula counts the variables of its clauses. -/
theorem WellFormed.number_le_of_mem {f : Formula} (h : f.WellFormed) {lits : List Lit}
    (hlits : lits ∈ f.clauses) {l : Lit} (hl : l ∈ lits) : l.var.number ≤ f.varCount := by
  obtain ⟨⟨start, stop⟩, -, rfl⟩ := List.mem_map.1 hlits
  refine h.number_le l ?_
  simp only at hl
  rw [Array.toList_extract, List.extract_eq_drop_take'] at hl
  exact List.mem_of_mem_take (List.mem_of_mem_drop hl)

/-! ## Formulas are known by their clauses -/

theorem ofClauses_append (clauses : List (List Lit)) (lits : List Lit) :
    ofClauses (clauses ++ [lits]) = (ofClauses clauses).addClause lits := by
  simp [ofClauses, List.foldl_append]

/-- A formula is made out of its clauses, and counts as many variables as it was told to. -/
theorem Reachable.eq_ofClauses {f : Formula} (h : f.Reachable) :
    f = (ofClauses f.clauses).raiseVarCount f.varCount := by
  have hparts : (ofClauses f.clauses).varCount ≤ f.varCount ∧
      (ofClauses f.clauses).literals = f.literals ∧ (ofClauses f.clauses).ends = f.ends := by
    induction h with
    | empty => exact ⟨Nat.le_refl _, rfl, rfl⟩
    | @addClause f lits h ih =>
      obtain ⟨hle, hliterals, hends⟩ := ih
      rw [h.wellFormed.clauses_addClause, ofClauses_append]
      refine ⟨?_, ?_, ?_⟩
      · show max _ _ ≤ max _ _
        omega
      · simp only [Formula.addClause, hliterals]
      · simp only [Formula.addClause, hliterals, hends]
    | raiseVarCount count _ ih => exact ⟨Nat.le_trans ih.1 (Nat.le_max_left _ _), ih.2⟩
  obtain ⟨hle, hliterals, hends⟩ := hparts
  rw [Formula.raiseVarCount, hliterals, hends, Nat.max_eq_right hle]

/-- Formulas with the same clauses and the same number of variables are the same. -/
theorem Reachable.ext {f g : Formula} (hf : f.Reachable) (hg : g.Reachable)
    (hcount : f.varCount = g.varCount) (hclauses : f.clauses = g.clauses) : f = g := by
  rw [hf.eq_ofClauses, hg.eq_ofClauses, hcount, hclauses]

end BucketElimination.Formula
