import BucketElimination.Proofs.HandedFormulas
set_option autoImplicit false

/-!
# Streamed reading: the formulas that come out of any source

Reading builds its formulas by adding clauses and by raising the number of variables to the one that
a header declares, so whatever these two keep holds of every formula that is handed on, also of
those that come out of a source before it fails.  In particular they are made clause by clause and
have no more variables than there are.  A visitor that accepts all such formulas is therefore shown
the formulas of `Dimacs.readParts`, one after the other, whatever becomes of the reading.
-/

namespace BucketElimination.Dimacs

/-- Adding a clause, and counting the variables that a header may declare, keep the property. -/
structure Kept (P : Formula → Prop) : Prop where
  empty : P .empty
  addClause : ∀ f lits, P f → P (f.addClause lits)
  raiseVarCount : ∀ f count, count ≤ Var.maxNumber → P f → P (f.raiseVarCount count)

/-! ## What reading keeps -/

namespace Kept

variable {P : Formula → Prop} {r r' : Reader} {b : UInt8}

theorem finishToken (hP : Kept P) (h : P r.formula) (hrun : r.finishToken b = (r', .ok ())) :
    P r'.formula := by
  unfold Reader.finishToken at hrun
  split at hrun
  · cases hrun
    exact h
  · cases hrun
  · split at hrun
    · cases hrun
    · split at hrun
      · cases hrun
        exact hP.addClause _ _ h
      · split at hrun
        · cases hrun
        · split at hrun
          · cases hrun
          · cases hrun
            exact h

theorem finishHeader (hP : Kept P) (h : P r.formula) (hrun : r.finishHeader = (r', .ok ())) :
    P r'.formula := by
  unfold Reader.finishHeader at hrun
  cases hheader : Header.ofBytes r.lineNumber r.headerBytes.toList with
  | error e =>
    rw [hheader] at hrun
    cases hrun
  | ok header =>
    rw [hheader] at hrun
    cases hrun
    exact hP.raiseVarCount _ _ (Header.varCount_le_of_ofBytes hheader) h

theorem finishLine (hP : Kept P) (h : P r.formula) (hrun : r.finishLine b = (r', .ok ())) :
    P r'.formula := by
  unfold Reader.finishLine at hrun
  rcases htoken : r.finishToken b with ⟨r₁, e | done⟩
  · rw [htoken] at hrun
    cases hrun
  · have h₁ := hP.finishToken h htoken
    simp only [htoken] at hrun
    split at hrun
    · rcases hheader : r₁.finishHeader with ⟨r₂, e | done⟩
      · rw [hheader] at hrun
        cases hrun
      · have h₂ := hP.finishHeader h₁ hheader
        rw [hheader] at hrun
        cases hrun
        exact h₂
    · cases hrun
      exact h₁

theorem takeByte (hP : Kept P) (h : P r.formula) (hrun : r.takeByte b = (r', .ok ())) :
    P r'.formula := by
  obtain hline | htoken | ⟨line, token, headerBytes, rfl, -⟩ := Reader.takeByte_cases hrun
  · exact hP.finishLine h hline
  · exact hP.finishToken h htoken
  · exact h

theorem step (hP : Kept P) (h : P r.formula) (hrun : r.step b = (r', .ok ())) :
    P r'.formula := by
  unfold Reader.step at hrun
  split at hrun
  · cases hrun
    exact h
  · split at hrun
    · exact hP.takeByte h hrun
    · cases hrun
      exact h
  · split at hrun
    · exact hP.takeByte h hrun
    · cases hrun
      exact h
  · exact hP.takeByte h hrun

theorem feedBytes (hP : Kept P) (h : P r.formula) {bytes : List UInt8}
    (hrun : r.feedBytes bytes = (r', .ok ())) : P r'.formula := by
  induction bytes generalizing r with
  | nil =>
    cases hrun
    exact h
  | cons b bytes ih =>
    unfold Reader.feedBytes at hrun
    rcases hstep : r.step b with ⟨r₁, e | done⟩
    · rw [hstep] at hrun
      cases hrun
    · rw [hstep] at hrun
      have hcount : (r₁.countLine b).formula = r₁.formula := by
        unfold Reader.countLine
        split <;> rfl
      apply ih _ hrun
      rw [hcount]
      exact hP.step h hstep

theorem feed (hP : Kept P) (h : P r.formula) {bytes : List UInt8}
    (hrun : r.feed bytes = (r', .ok ())) : P r'.formula := by
  unfold Reader.feed at hrun
  split at hrun
  · cases hrun
  · exact hP.feedBytes h hrun

theorem finishClauses (hP : Kept P) (h : P r.formula) (hrun : r.finishClauses = (r', .ok ())) :
    P r'.formula := by
  unfold Reader.finishClauses at hrun
  split at hrun
  · cases hrun
  · rcases htoken : r.finishToken lineFeed with ⟨r₁, e | done⟩
    · rw [htoken] at hrun
      cases hrun
    · simp only [htoken, Prod.mk.injEq] at hrun
      obtain ⟨rfl, -⟩ := hrun
      exact hP.finishToken h htoken

theorem finish (hP : Kept P) (h : P r.formula) (hrun : r.finish = (r', .ok ())) :
    P r'.formula := by
  unfold Reader.finish at hrun
  split at hrun
  · cases hrun
  · split at hrun
    · rcases hheader : r.finishHeader with ⟨r₁, e | done⟩
      · rw [hheader] at hrun
        cases hrun
      · rw [hheader] at hrun
        exact hP.finishClauses (hP.finishHeader h hheader) hrun
    · exact hP.finishClauses h hrun

theorem feedAll (hP : Kept P) (h : P r.formula) {reads : List Part}
    (hrun : Dimacs.feedAll reads r = .ok r') : P r'.formula := by
  induction reads generalizing r with
  | nil => exact hP.finish h (of_finishRead_eq_ok hrun).1
  | cons part reads ih =>
    cases part with
    | failure text => cases hrun
    | data bytes =>
      simp only [Dimacs.feedAll] at hrun
      rcases hfeed : r.feed bytes with ⟨r₁, e | done⟩
      · rw [hfeed] at hrun
        cases hrun
      · rw [hfeed] at hrun
        exact ih (hP.feed h hfeed) hrun

/-- What is read as a whole. -/
theorem read (hP : Kept P) {source : Source} {F : Formula} (h : Dimacs.read source = .ok F) :
    P F := by
  unfold Dimacs.read at h
  cases hrun : Dimacs.feedAll source.reads .start with
  | error e =>
    rw [hrun] at h
    cases h
  | ok r =>
    rw [hrun] at h
    cases h
    exact hP.feedAll hP.empty hrun

end Kept

/-! ## The formulas that are handed on -/

/-- The formula was made clause by clause and has no more variables than there are. -/
structure Deliverable (f : Formula) : Prop where
  reachable : f.Reachable
  varCount_le : f.varCount ≤ Var.maxNumber

theorem kept_deliverable : Kept Deliverable where
  empty := ⟨.empty, Nat.zero_le _⟩
  addClause := by
    intro f lits h
    refine ⟨.addClause lits h.reachable, ?_⟩
    have hlits : Formula.maxVarNumber lits ≤ Var.maxNumber :=
      Formula.maxVarNumber_le_iff.2 fun l _ => l.var.le_max
    exact Nat.max_le.2 ⟨h.varCount_le, hlits⟩
  raiseVarCount := fun f count hcount h =>
    ⟨.raiseVarCount count h.reachable, Nat.max_le.2 ⟨h.varCount_le, hcount⟩⟩

/-- A formula that a source delivers can be loaded. -/
theorem deliverable_of_read {source : Source} {F : Formula} (h : read source = .ok F) :
    Deliverable F :=
  kept_deliverable.read h

section

variable {σ ε : Type} {fail : ReadError → ε} {visit : Formula → σ → σ × Except ε Unit}
  {P : List Formula → σ → Prop}

/-- The visitor accepts one more formula, whichever it is. -/
def Accepting (visit : Formula → σ → σ × Except ε Unit) (P : List Formula → σ → Prop) : Prop :=
  ∀ formulas f s, Deliverable f → P formulas s →
    ∃ s', visit f s = (s', .ok ()) ∧ P (formulas ++ [f]) s'

/-- The visitor that collects the formulas, the last one first. -/
def collect (f : Formula) (taken : List Formula) : List Formula × Except ReadError Unit :=
  (f :: taken, .ok ())

/-- Handing on what was read shows it to the visitor and leaves an empty formula. -/
theorem Accepting.handOn (hvisit : Accepting visit P) {r : Reader} (hr : Deliverable r.formula)
    {taken : List Formula} {s : σ} (hs : P taken.reverse s) :
    Deliverable r.takeFormula.2.formula ∧
      Dimacs.handOn collect r taken = (r.formula :: taken, .ok r.takeFormula.2) ∧
      ∃ s', Dimacs.handOn visit r s = (s', .ok r.takeFormula.2) ∧
        P (r.formula :: taken).reverse s' := by
  obtain ⟨s', hrun, hs'⟩ := hvisit _ r.formula s hr hs
  refine ⟨?_, rfl, s', handOn_of_visit hrun, ?_⟩
  · exact kept_deliverable.raiseVarCount _ _ hr.varCount_le kept_deliverable.empty
  · rwa [List.reverse_cons]

theorem Accepting.finishInto (hvisit : Accepting visit P) {r : Reader}
    (hr : Deliverable r.formula) {taken : List Formula} {s : σ} (hs : P taken.reverse s) :
    P (Dimacs.finishInto id collect r taken).1.reverse (Dimacs.finishInto fail visit r s).1 := by
  simp only [Dimacs.finishInto]
  rcases hfinish : r.finish with ⟨r₁, e | done⟩
  · exact hs
  · obtain ⟨-, hcollect, s', hhand, hs'⟩ :=
      hvisit.handOn (kept_deliverable.finish hr hfinish) hs
    simp only [hcollect, hhand]
    cases r₁.takeFormula.2.checkHeader with
    | error e => exact hs'
    | ok done => exact hs'

theorem Accepting.feedInto (hvisit : Accepting visit P) {r : Reader} (hr : Deliverable r.formula)
    {taken : List Formula} {s : σ} (hs : P taken.reverse s) (reads : List Part) :
    P (Dimacs.feedInto id collect reads r taken).1.reverse
      (Dimacs.feedInto fail visit reads r s).1 := by
  induction reads generalizing r taken s with
  | nil => exact hvisit.finishInto hr hs
  | cons part reads ih =>
    cases part with
    | failure text => exact hs
    | data bytes =>
      simp only [Dimacs.feedInto]
      rcases hfeed : r.feed bytes with ⟨r₁, e | done⟩
      · exact hs
      · obtain ⟨hr', hcollect, s', hhand, hs'⟩ :=
          hvisit.handOn (kept_deliverable.feed hr hfeed) hs
        simp only [hcollect, hhand]
        exact ih hr' hs'

/-- A visitor that accepts all formulas is shown those that come out of the source, whether or not
the source can be read to its end. -/
theorem Accepting.readInto (hvisit : Accepting visit P) (fail : ReadError → ε) {s : σ}
    (hs : P [] s) (source : Source) :
    P (readParts source).1 (Dimacs.readInto fail visit source s).1 := by
  have hnone : P ([] : List Formula).reverse s := hs
  exact hvisit.feedInto kept_deliverable.empty hnone source.reads

end

theorem visitAll_collect (formulas taken : List Formula) :
    visitAll collect formulas taken = (formulas.reverse ++ taken, .ok ()) := by
  induction formulas generalizing taken with
  | nil => rfl
  | cons f formulas ih =>
    rw [visitAll, List.reverse_cons, List.append_assoc]
    exact ih (f :: taken)

/-- The formulas that come out of a source which can be read have the clauses of the formula that is
read. -/
theorem flatMap_readParts_of_read {source : Source} {F : Formula} (h : read source = .ok F) :
    (readParts source).1.flatMap Formula.clauses = F.clauses := by
  obtain ⟨formulas, -, hclauses, hinto⟩ :=
    exists_readInto_of_read (σ := List Formula) (ε := ReadError) h
  obtain ⟨r, hrun, -, -⟩ := hinto id collect [] _ (visitAll_collect formulas [])
  have hparts : (readParts source).1 = formulas := by
    show (readInto id collect source []).1.reverse = _
    rw [hrun, List.append_nil, List.reverse_reverse]
  rw [hparts, hclauses]

end BucketElimination.Dimacs
