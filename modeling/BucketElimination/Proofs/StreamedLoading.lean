import BucketElimination.Proofs.HandedFormulas
import BucketElimination.Proofs.SolverRuns
import BucketElimination.Proofs.WrittenFormulas
set_option autoImplicit false

/-!
# Loading a formula while it is read

Clauses over the same number of variables may be loaded at once or one part after the other, and a
part without variables and clauses may come before.  The formulas that come out of a source while it
is read are such parts, so a solver that loads them ends up as if it had been given the formula as a
whole.  In a state that a solver can come to, loading a formula does not fail unless it was solved.
-/

namespace BucketElimination

/-- A row grows to the number of variables that is asked for. -/
theorem Row.WellFormed.le_size_extend {order : Order} {r : Row} (h : r.WellFormed order)
    (capacity : Capacity) {count : Nat} (hmax : count ≤ Var.maxNumber) :
    count ≤ (r.extend order capacity (count - r.size)).size := by
  obtain ⟨-, -, hgrow, hsize⟩ := h.extend capacity (count - r.size)
  by_cases hcount : count ≤ r.size
  · omega
  · rw [hsize (by omega)]
    omega

namespace Solver

/-! ## Loading part after part -/

/-- Clauses are loaded at once or one part after the other. -/
theorem loadClauses_append (clauses more : List (List Lit)) (s : Solver) :
    loadClauses (clauses ++ more) s =
      match loadClauses clauses s with
      | (s', .ok ()) => loadClauses more s'
      | (s', .error e) => (s', .error e) := by
  induction clauses generalizing s with
  | nil => rfl
  | cons lits clauses ih =>
    rw [List.cons_append, loadClauses, loadClauses]
    rcases s.loadClause lits with ⟨s₁, e | done⟩
    · rfl
    · exact ih s₁

section

variable {s s' : Solver} {count : Nat} {clauses : List (List Lit)}

/-- With the variables counted, loading is growing and then loading the clauses. -/
theorem load_of_unsolved (h : s.solved = false) (hmax : count ≤ Var.maxNumber)
    (clauses : List (List Lit)) :
    s.load count clauses = loadClauses clauses ({ s with loading := true }.growTo count) := by
  rw [Solver.load, if_neg (by rw [h]; decide)]
  exact if_neg (Nat.not_lt_of_le hmax)

/-- A solver with enough buckets has nothing to grow. -/
theorem load_of_le_size (h : s.solved = false) (hmax : count ≤ Var.maxNumber)
    (hloading : s.loading = true) (hvars : s.varCount = s.row.size) (hle : count ≤ s.row.size)
    (clauses : List (List Lit)) : s.load count clauses = loadClauses clauses s := by
  have hgrow : { s with loading := true }.growTo count = s := by
    have hstays : count - s.row.size = 0 := Nat.sub_eq_zero_of_le hle
    simp only [Solver.growTo, hstays, Row.extend]
    rw [← hloading, ← hvars]
  rw [load_of_unsolved h hmax, hgrow]

/-- A solver that has loaded clauses goes on with more of them as if they had come together. -/
theorem Tidy.load_load (h : s.Tidy) (hunsolved : s.solved = false) (hmax : count ≤ Var.maxNumber)
    (hload : s.load count clauses = (s', .ok ())) :
    s'.solved = false ∧ ∀ more, s'.load count more = s.load count (clauses ++ more) := by
  rw [load_of_unsolved hunsolved hmax] at hload
  have hgrown := (h.wellFormed.extend s.config.chunkCapacity (count - s.row.size)).1
  have hlarge := h.wellFormed.le_size_extend s.config.chunkCapacity hmax
  obtain ⟨row, verdict, stats, journal, heq, -, hsize⟩ :=
    loads_loadClauses (s := { s with loading := true }.growTo count) hgrown clauses
  simp only [hload] at heq
  have hs' : s'.solved = false ∧ s'.loading = true ∧ s'.varCount = s'.row.size ∧
      count ≤ s'.row.size := by
    rw [heq]
    exact ⟨hunsolved, rfl, hsize.symm, hsize ▸ hlarge⟩
  obtain ⟨hunsolved', hloading, hvars, hle⟩ := hs'
  refine ⟨hunsolved', fun more => ?_⟩
  rw [load_of_le_size hunsolved' hmax hloading hvars hle, load_of_unsolved hunsolved hmax,
    loadClauses_append, hload]

/-- If all clauses are loaded, the first of them are. -/
theorem exists_load_of_append {more : List (List Lit)} (hunsolved : s.solved = false)
    (hmax : count ≤ Var.maxNumber) (hload : s.load count (clauses ++ more) = (s', .ok ())) :
    ∃ s₁, s.load count clauses = (s₁, .ok ()) := by
  rw [load_of_unsolved hunsolved hmax, loadClauses_append] at hload
  rw [load_of_unsolved hunsolved hmax]
  rcases hrun : loadClauses clauses _ with ⟨s₁, e | done⟩
  · rw [hrun] at hload
    cases hload
  · exact ⟨s₁, rfl⟩

/-- Nothing is loaded before the formula. -/
theorem load_zero (h : s.solved = false) (hmax : count ≤ Var.maxNumber) :
    ∃ s', s.load 0 [] = (s', .ok ()) ∧ s'.solved = false ∧
      ∀ clauses, s'.load count clauses = s.load count clauses := by
  refine ⟨_, load_of_unsolved h (Nat.zero_le _) [], h, fun clauses => ?_⟩
  have hthen := load_of_unsolved (s := { s with loading := true }.growTo 0) h hmax clauses
  rw [hthen, load_of_unsolved h hmax]
  simp only [Solver.growTo, Nat.zero_sub, Row.extend]

/-- A clause over variables with buckets is loaded without a fault. -/
theorem loadClause_ok (h : s.row.WellFormed s.config.order) {lits : List Lit}
    (hlt : ∀ l ∈ lits, l.var.index < s.row.size) : (s.loadClause lits).2 = .ok () := by
  rw [Solver.loadClause]
  split
  · rfl
  · obtain ⟨row, loaded, hload, -⟩ := h.load hlt
    rw [hload]

theorem loadClauses_ok (h : s.row.WellFormed s.config.order) {clauses : List (List Lit)}
    (hlt : ∀ lits ∈ clauses, ∀ l ∈ lits, l.var.index < s.row.size) :
    (loadClauses clauses s).2 = .ok () := by
  induction clauses generalizing s with
  | nil => rfl
  | cons lits clauses ih =>
    rw [List.forall_mem_cons] at hlt
    have hok := loadClause_ok h hlt.1
    have hloads := loads_loadClause h lits
    rcases hrun : s.loadClause lits with ⟨s₁, result⟩
    rw [hrun] at hok hloads
    cases hok
    obtain ⟨row, verdict, stats, journal, rfl, hwf, hsize⟩ := hloads
    rw [loadClauses, hrun]
    apply ih (s := { s with row, verdict, stats, journal }) hwf
    intro lits' hlits' l hl
    show l.var.index < row.size
    rw [hsize]
    exact hlt.2 lits' hlits' l hl

/-- A formula with no more variables than there are is loaded without a fault. -/
theorem Tidy.addFormula_ok {F : Formula} (h : s.Tidy) (hunsolved : s.solved = false)
    (hF : F.Reachable) (hmax : F.varCount ≤ Var.maxNumber) :
    ∃ s', s.addFormula F = (s', .ok ()) := by
  have hgrown := (h.wellFormed.extend s.config.chunkCapacity (F.varCount - s.row.size)).1
  have hlarge := h.wellFormed.le_size_extend s.config.chunkCapacity hmax
  have hok : (s.addFormula F).2 = .ok () := by
    rw [Solver.addFormula, load_of_unsolved hunsolved hmax]
    apply loadClauses_ok hgrown
    intro lits hlits l hl
    have hnumber := hF.wellFormed.number_le_of_mem hlits hl
    exact Nat.lt_of_lt_of_le (Var.index_lt_iff.2 hnumber) hlarge
  exact ⟨_, Prod.ext rfl hok⟩

/-- The parts in which a formula comes are loaded as the formula is. -/
theorem Tidy.visitAll_eq {formulas : List Formula} (h : s.Tidy) (hunsolved : s.solved = false)
    (hmax : count ≤ Var.maxNumber) (hdeals : Dimacs.Deals count formulas)
    (hload : s.load count (formulas.flatMap Formula.clauses) = (s', .ok ())) :
    Dimacs.visitAll (fun f s => s.addFormula f) formulas s = (s', .ok ()) := by
  induction hdeals generalizing s with
  | @last f hcount =>
    rw [List.flatMap_singleton, ← hcount] at hload
    exact Dimacs.visitAll_cons_eq_ok_iff.2 ⟨s', hload, rfl⟩
  | @empty f formulas hcount hclauses _ ih =>
    obtain ⟨s₁, hzero, hunsolved₁, hsame⟩ := load_zero hunsolved hmax
    have hadd : s.addFormula f = (s₁, .ok ()) := by rw [Solver.addFormula, hcount, hclauses, hzero]
    have htidy : s₁.Tidy := by simpa only [hzero] using h.load 0 []
    rw [List.flatMap_cons, hclauses, List.nil_append, ← hsame] at hload
    exact Dimacs.visitAll_cons_eq_ok_iff.2 ⟨s₁, hadd, ih htidy hunsolved₁ hload⟩
  | @next f formulas hcount _ ih =>
    rw [List.flatMap_cons] at hload
    obtain ⟨s₁, hfirst⟩ := exists_load_of_append hunsolved hmax hload
    obtain ⟨hunsolved₁, hsame⟩ := h.load_load hunsolved hmax hfirst
    have hadd : s.addFormula f = (s₁, .ok ()) := by rw [Solver.addFormula, hcount, hfirst]
    have htidy : s₁.Tidy := by simpa only [hfirst] using h.load count f.clauses
    rw [← hsame] at hload
    exact Dimacs.visitAll_cons_eq_ok_iff.2 ⟨s₁, hadd, ih htidy hunsolved₁ hload⟩

/-- A source that delivers a formula is loaded as the formula is, and the reading noted. -/
theorem Tidy.addDimacs_of_read {source : Dimacs.Source} {F : Formula} (h : s.Tidy)
    (hunsolved : s.solved = false) (hmax : F.varCount ≤ Var.maxNumber)
    (hread : Dimacs.read source = .ok F) (hadd : s.addFormula F = (s', .ok ())) :
    s.addDimacs source = (s'.note (.formulaRead F.varCount F.size), .ok ()) := by
  obtain ⟨formulas, hdeals, hclauses, hinto⟩ := Dimacs.exists_readInto_of_read hread
  have hload : s.load F.varCount (formulas.flatMap Formula.clauses) = (s', .ok ()) := by
    rw [← hclauses]
    exact hadd
  have hvisits := h.visitAll_eq hunsolved hmax hdeals hload
  obtain ⟨r, hrun, hcount, hnumber⟩ :=
    hinto Error.read (fun f (s : Solver) => s.addFormula f) s s' hvisits
  simp only [Solver.addDimacs, hrun, hcount, hnumber]

end

/-- A clause, a clause without literals, and a variable that no clause has. -/
def sparseFormula : Formula := (Formula.ofClauses [[⟨default, .negative⟩], []]).raiseVarCount 2

/-- What is written for it, cut inside of the header and after the minus sign. -/
def sparseParts : List (List UInt8) :=
  [[112, 32, 99], [110, 102, 32, 50, 32, 50, 10, 45], [49, 32, 48, 10, 48, 10]]

theorem flatten_sparseParts : sparseParts.flatten = Dimacs.write sparseFormula := by
  have hone : Decimal.bytes 1 = [49] := Decimal.bytes_of_lt (by decide)
  have htwo : Decimal.bytes 2 = [50] := Decimal.bytes_of_lt (by decide)
  have hline : Dimacs.Header.line ⟨sparseFormula.varCount, sparseFormula.size⟩ =
      [112, 32, 99, 110, 102, 32] ++ Decimal.bytes 2 ++ 32 :: Decimal.bytes 2 := rfl
  have hclauses : sparseFormula.clauses = [[⟨default, .negative⟩], []] := rfl
  have hlit : Dimacs.litBytes ⟨default, .negative⟩ = 45 :: Decimal.bytes 1 ++ [32] := rfl
  rw [Dimacs.write_eq, hline, hclauses, htwo]
  simp only [Dimacs.clausesBytes, List.flatMap_cons, List.flatMap_nil, Dimacs.clauseBytes, hlit,
    hone]
  rfl

/-- The formula is read, wherever its text is cut. -/
theorem read_sparseFormula {parts : List (List UInt8)} (h : parts.flatten = sparseParts.flatten) :
    Dimacs.read (parts.map .data) = .ok sparseFormula := by
  have hF : sparseFormula.Reachable := .raiseVarCount _ (.addClause _ (.addClause _ .empty))
  exact Dimacs.read_of_flatten_eq_write hF (by decide) (by decide) (h.trans flatten_sparseParts)

end Solver

end BucketElimination
