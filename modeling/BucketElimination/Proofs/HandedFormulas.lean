import BucketElimination.Proofs.StreamedReading
set_option autoImplicit false

/-!
# Streamed reading: what is handed on, read by read

The number of variables of a formula being read is the one that the header declares: before the
header there is nothing, and after it no clause can raise the number.  So when a source can be read
as a whole, it can be read into any visitor that accepts what it is shown, and this is one formula
after each read: empty ones up to the header, then formulas with as many variables as the header
declares.
-/

namespace BucketElimination.Dimacs

/-! ## Variables are counted by the header -/

namespace Reader

/-- The formula has the variables that the header declares, and as many clauses as were counted. -/
structure Counted (r : Reader) : Prop where
  /-- A header line begins only if there was none yet. -/
  of_line : r.line = .header → r.header = none
  of_none : r.header = none → r.formula = .empty ∧ r.partialClause = #[]
  of_some : ∀ header, r.header = some header →
    r.formula.varCount = header.varCount ∧ ∀ l ∈ r.partialClause, l.var.number ≤ header.varCount
  clauseCount_eq : r.clauseCount = r.formula.size

/-- The second reader has gone on from the first. -/
structure Onward (r r' : Reader) : Prop where
  counted : r'.Counted
  /-- A header stays. -/
  header_eq : ∀ header, r.header = some header → r'.header = some header

variable {r r' r'' : Reader} {b : UInt8}

theorem counted_start : start.Counted := ⟨nofun, fun _ => ⟨rfl, rfl⟩, nofun, rfl⟩

theorem Counted.onward (h : r.Counted) : Onward r r := ⟨h, fun _ hheader => hheader⟩

theorem Onward.trans (h : Onward r r') (h' : Onward r' r'') : Onward r r'' :=
  ⟨h'.counted, fun header hheader => h'.header_eq header (h.header_eq header hheader)⟩

/-- From one place to another the formula was empty, or has the same number of variables. -/
theorem Onward.varCount_eq (h : r.Counted) (h' : Onward r r') :
    r.formula = .empty ∨ r.formula.varCount = r'.formula.varCount := by
  cases hheader : r.header with
  | none => exact .inl (h.of_none hheader).1
  | some header =>
    refine .inr ?_
    rw [(h.of_some header hheader).1, (h'.counted.of_some header (h'.header_eq header hheader)).1]

/-- A change that has no part in the clauses and the header. -/
theorem Counted.change (h : r.Counted) (line : LineKind) (hline : line = .header → r.header = none)
    (token : Token) (lineNumber : Nat) (headerBytes : Array UInt8) :
    Onward r { r with line, token, lineNumber, headerBytes } :=
  ⟨⟨hline, h.of_none, h.of_some, h.clauseCount_eq⟩, fun _ hheader => hheader⟩

theorem Counted.dropToken (h : r.Counted) : Onward r r.dropToken :=
  h.change r.line h.of_line .idle r.lineNumber r.headerBytes

/-- After the header, a change of the clauses that counts them and no variable besides. -/
theorem Counted.of_header {header : Header} (h : r.Counted) (hheader : r.header = some header)
    {formula : Formula} {lits : Array Lit} {clauseCount : Nat}
    (hcount : formula.varCount = header.varCount)
    (hle : ∀ l ∈ lits, l.var.number ≤ header.varCount) (hclauses : clauseCount = formula.size) :
    Onward r { r with formula, partialClause := lits, clauseCount } := by
  refine ⟨⟨h.of_line, ?_, ?_, hclauses⟩, fun _ hkept => hkept⟩
  · intro hnone
    cases hheader.symm.trans hnone
  · intro header' hheader'
    cases hheader.symm.trans hheader'
    exact ⟨hcount, hle⟩

theorem Counted.closeClause {header : Header} (h : r.Counted) (hheader : r.header = some header) :
    Onward r r.closeClause := by
  obtain ⟨hcount, hle⟩ := h.of_some header hheader
  apply h.of_header hheader
  · have hmax : Formula.maxVarNumber r.partialClause.toList ≤ header.varCount :=
      Formula.maxVarNumber_le_iff.2 fun l hl => hle l (by simpa using hl)
    show max r.formula.varCount _ = _
    rw [hcount, Nat.max_eq_left hmax]
  · simp
  · show r.clauseCount + 1 = (r.formula.addClause _).ends.size
    rw [h.clauseCount_eq]
    simp [Formula.addClause, Formula.size]

theorem Counted.addLit {header : Header} {l : Lit} (h : r.Counted)
    (hheader : r.header = some header) (hl : l.var.number ≤ header.varCount) :
    Onward r (r.addLit l) := by
  obtain ⟨hcount, hle⟩ := h.of_some header hheader
  apply h.of_header hheader hcount
  · intro l' hl'
    rcases Array.mem_push.1 hl' with hl' | rfl
    · exact hle l' hl'
    · exact hl
  · exact h.clauseCount_eq

theorem Counted.finishToken (h : r.Counted) (hrun : r.finishToken b = (r', .ok ())) :
    Onward r r' := by
  have hdrop := h.dropToken
  unfold Reader.finishToken at hrun
  cases htoken : r.token with
  | idle =>
    rw [htoken] at hrun
    cases hrun
    exact h.onward
  | minus =>
    rw [htoken] at hrun
    cases hrun
  | number value negative =>
    simp only [htoken] at hrun
    cases hheader : r.header with
    | none =>
      simp only [hheader] at hrun
      cases hrun
    | some header =>
      simp only [hheader] at hrun
      split at hrun
      · cases hrun
        exact hdrop.trans (hdrop.counted.closeClause hheader)
      · split at hrun
        · cases hrun
        · rename_i hle
          cases hv : Var.ofNumber? value with
          | none =>
            rw [hv] at hrun
            cases hrun
          | some v =>
            rw [hv] at hrun
            cases hrun
            refine hdrop.trans (hdrop.counted.addLit hheader ?_)
            rw [Var.ofNumber?_eq_some_iff.1 hv]
            exact Nat.le_of_not_lt hle

theorem Counted.finishHeader (h : r.Counted) (hline : r.line = .header)
    (hrun : r.finishHeader = (r', .ok ())) : Onward r r' := by
  have hnone := h.of_line hline
  obtain ⟨hformula, hpartial⟩ := h.of_none hnone
  unfold Reader.finishHeader at hrun
  cases hheader : Header.ofBytes r.lineNumber r.headerBytes.toList with
  | error e =>
    rw [hheader] at hrun
    cases hrun
  | ok header =>
    rw [hheader] at hrun
    cases hrun
    refine ⟨⟨nofun, nofun, ?_, h.clauseCount_eq⟩, ?_⟩
    · intro header' hheader'
      cases hheader'
      refine ⟨?_, by simp [hpartial]⟩
      show max r.formula.varCount _ = _
      rw [hformula]
      exact Nat.zero_max _
    · intro header' hheader'
      rw [hnone] at hheader'
      cases hheader'

theorem Counted.finishLine (h : r.Counted) (hrun : r.finishLine b = (r', .ok ())) :
    Onward r r' := by
  unfold Reader.finishLine at hrun
  rcases htoken : r.finishToken b with ⟨r₁, e | done⟩
  · rw [htoken] at hrun
    cases hrun
  · have h₁ := h.finishToken htoken
    simp only [htoken] at hrun
    split at hrun
    · rename_i hline
      rcases hheader : r₁.finishHeader with ⟨r₂, e | done⟩
      · rw [hheader] at hrun
        cases hrun
      · have h₂ := h₁.trans (h₁.counted.finishHeader hline hheader)
        rw [hheader] at hrun
        cases hrun
        exact h₂.trans (h₂.counted.change .start nofun r₂.token r₂.lineNumber r₂.headerBytes)
    · cases hrun
      exact h₁.trans (h₁.counted.change .start nofun r₁.token r₁.lineNumber r₁.headerBytes)

/-- A byte completes a line or a number, or has no part in the clauses and the header. -/
theorem takeByte_cases (hrun : r.takeByte b = (r', .ok ())) :
    r.finishLine b = (r', .ok ()) ∨ r.finishToken b = (r', .ok ()) ∨
      ∃ line token headerBytes, r' = { r with line, token, headerBytes } ∧
        (line = .header → r.header = none) := by
  unfold Reader.takeByte at hrun
  split at hrun
  · exact .inl hrun
  · split at hrun
    · exact .inr (.inl hrun)
    · refine .inr (.inr ?_)
      split at hrun
      · rw [addDigit_eq] at hrun
        split at hrun
        · cases hrun
        · cases hrun
          exact ⟨_, _, _, rfl, nofun⟩
      · split at hrun
        · cases hrun
          exact ⟨_, _, _, rfl, nofun⟩
        · split at hrun
          · cases hrun
            exact ⟨_, _, _, rfl, nofun⟩
          · split at hrun
            · rename_i hstart
              cases hrun
              exact ⟨_, _, _, rfl, fun _ => hstart.2.2⟩
            · split at hrun
              · cases hrun
                exact ⟨_, _, _, rfl, nofun⟩
              · cases hrun

theorem Counted.takeByte (h : r.Counted) (hrun : r.takeByte b = (r', .ok ())) : Onward r r' := by
  obtain hline | htoken | ⟨line, token, headerBytes, rfl, hnone⟩ := takeByte_cases hrun
  · exact h.finishLine hline
  · exact h.finishToken htoken
  · exact h.change line hnone token r.lineNumber headerBytes

theorem Counted.step (h : r.Counted) (hrun : r.step b = (r', .ok ())) : Onward r r' := by
  unfold Reader.step at hrun
  cases hline : r.line with
  | start | clause =>
    rw [hline] at hrun
    exact h.takeByte hrun
  | trailer =>
    rw [hline] at hrun
    cases hrun
    exact h.onward
  | comment =>
    simp only [hline] at hrun
    split at hrun
    · exact h.takeByte hrun
    · cases hrun
      exact h.onward
  | header =>
    simp only [hline] at hrun
    split at hrun
    · exact h.takeByte hrun
    · cases hrun
      exact h.change .header (fun _ => h.of_line hline) r.token r.lineNumber (r.headerBytes.push b)

theorem Counted.countLine (h : r.Counted) (b : UInt8) : Onward r (r.countLine b) := by
  unfold Reader.countLine
  split
  · exact h.change r.line h.of_line r.token _ r.headerBytes
  · exact h.onward

theorem Counted.feedBytes (h : r.Counted) {bytes : List UInt8}
    (hrun : r.feedBytes bytes = (r', .ok ())) : Onward r r' := by
  induction bytes generalizing r with
  | nil =>
    cases hrun
    exact h.onward
  | cons b bytes ih =>
    unfold Reader.feedBytes at hrun
    rcases hstep : r.step b with ⟨r₁, e | done⟩
    · rw [hstep] at hrun
      cases hrun
    · rw [hstep] at hrun
      have h₁ := h.step hstep
      have h₂ := h₁.trans (h₁.counted.countLine b)
      exact h₂.trans (ih h₂.counted hrun)

theorem Counted.feed (h : r.Counted) {bytes : List UInt8} (hrun : r.feed bytes = (r', .ok ())) :
    Onward r r' := by
  unfold Reader.feed at hrun
  split at hrun
  · cases hrun
  · exact h.feedBytes hrun

theorem Counted.finishClauses (h : r.Counted) (hrun : r.finishClauses = (r', .ok ())) :
    Onward r r' := by
  unfold Reader.finishClauses at hrun
  split at hrun
  · cases hrun
  · rcases htoken : r.finishToken lineFeed with ⟨r₁, e | done⟩
    · rw [htoken] at hrun
      cases hrun
    · simp only [htoken, Prod.mk.injEq] at hrun
      obtain ⟨rfl, -⟩ := hrun
      exact h.finishToken htoken

theorem Counted.finish (h : r.Counted) (hrun : r.finish = (r', .ok ())) : Onward r r' := by
  unfold Reader.finish at hrun
  split at hrun
  · cases hrun
  · split at hrun
    · rename_i hline
      rcases hheader : r.finishHeader with ⟨r₁, e | done⟩
      · rw [hheader] at hrun
        cases hrun
      · rw [hheader] at hrun
        have h₁ := h.finishHeader hline hheader
        exact h₁.trans (h₁.counted.finishClauses hrun)
    · exact h.finishClauses hrun

end Reader

/-- A reading ends with success if the last clause is complete and the header was right. -/
theorem of_finishRead_eq_ok {r r' : Reader} (h : finishRead r = .ok r') :
    r.finish = (r', .ok ()) ∧ r'.checkHeader = .ok () := by
  unfold finishRead at h
  rcases hfinish : r.finish with ⟨r₁, e | done⟩
  · rw [hfinish] at h
    cases h
  · simp only [hfinish] at h
    cases hcheck : r₁.checkHeader with
    | error e =>
      rw [hcheck] at h
      cases h
    | ok done =>
      rw [hcheck] at h
      cases h
      exact ⟨rfl, hcheck⟩

/-- A reading that succeeds goes on from where it began. -/
theorem onward_feedAll {reads : List Part} {r r' : Reader} (h : r.Counted)
    (hrun : feedAll reads r = .ok r') : Reader.Onward r r' := by
  induction reads generalizing r with
  | nil =>
    obtain ⟨hfinish, -⟩ := of_finishRead_eq_ok hrun
    exact h.finish hfinish
  | cons part reads ih =>
    cases part with
    | failure text => cases hrun
    | data bytes =>
      simp only [feedAll] at hrun
      rcases hfeed : r.feed bytes with ⟨r₁, e | done⟩
      · rw [hfeed] at hrun
        cases hrun
      · rw [hfeed] at hrun
        have h₁ := h.feed hfeed
        exact h₁.trans (ih h₁.counted hrun)

/-! ## What the visitor is shown -/

/-- The parts in which a formula of `count` variables comes: some without anything, the others, and
the last one in any case, with all variables. -/
inductive Deals (count : Nat) : List Formula → Prop
  | last {f : Formula} : f.varCount = count → Deals count [f]
  | empty {f : Formula} {formulas : List Formula} : f.varCount = 0 → f.clauses = [] →
      Deals count formulas → Deals count (f :: formulas)
  | next {f : Formula} {formulas : List Formula} : f.varCount = count →
      Deals count formulas → Deals count (f :: formulas)

section

variable {σ ε : Type} {visit : Formula → σ → σ × Except ε Unit} {taken : List (List Lit)}
  {full r : Reader}

theorem visitAll_cons_eq_ok_iff {f : Formula} {formulas : List Formula} {s s' : σ} :
    visitAll visit (f :: formulas) s = (s', .ok ()) ↔
      ∃ s₁, visit f s = (s₁, .ok ()) ∧ visitAll visit formulas s₁ = (s', .ok ()) := by
  rw [visitAll]
  rcases visit f s with ⟨s₁, e | done⟩
  · simp
  · simp

/-- A visitor that accepts the formula leaves a reader without clauses. -/
theorem handOn_of_visit {s s' : σ} (h : visit r.formula s = (s', .ok ())) :
    handOn visit r s = (s', .ok r.takeFormula.2) := by
  simp only [handOn, Reader.takeFormula, h]

/-- How a reader that handed on its clauses stands beside one that kept them. -/
theorem Ahead.counts (h : Ahead taken full r) :
    r.formula.varCount = full.formula.varCount ∧
      full.formula.clauses = taken ++ r.formula.clauses ∧ r.clauseCount = full.clauseCount ∧
      r.takeFormula.2.checkHeader = full.checkHeader := by
  obtain ⟨F, rfl, -, hcount, hclauses, -⟩ := h
  exact ⟨hcount.symm, hclauses, rfl, rfl⟩

/-- At the end of the input the visitor is shown what the reader still has. -/
theorem Ahead.finishInto_of_finishRead {full' : Reader} (h : Ahead taken full r)
    (hrun : finishRead full = .ok full') :
    ∃ f : Formula, f.varCount = full'.formula.varCount ∧
      full'.formula.clauses = taken ++ f.clauses ∧
      ∀ (fail : ReadError → ε) (visit : Formula → σ → σ × Except ε Unit) (s s' : σ),
        visit f s = (s', .ok ()) →
          ∃ r', finishInto fail visit r s = (s', .ok r') ∧
            r'.varCount = full'.formula.varCount ∧ r'.clauseCount = full'.clauseCount := by
  obtain ⟨hfinish, hcheck⟩ := of_finishRead_eq_ok hrun
  obtain ⟨full₁, r₁, result, hfull, hr, hahead⟩ := h.finish
  rw [hfinish] at hfull
  cases hfull
  obtain ⟨hcount, hclauses, hnumber, hcheck'⟩ := hahead.counts
  refine ⟨r₁.formula, hcount, hclauses, ?_⟩
  intro fail visit s s' hvisit
  refine ⟨r₁.takeFormula.2, ?_, ?_, hnumber⟩
  · simp only [finishInto, hr, handOn_of_visit hvisit, hcheck', hcheck]
  · exact (Nat.zero_max _).trans hcount

/-- A source that can be read as a whole can be read into every visitor that accepts the formulas
which come out, and these make up what is read as a whole. -/
theorem Ahead.feedInto_of_feedAll {reads : List Part} {full' : Reader} (h : Ahead taken full r)
    (hcounted : full.Counted) (hrun : feedAll reads full = .ok full') :
    ∃ formulas, Deals full'.formula.varCount formulas ∧
      full'.formula.clauses = taken ++ formulas.flatMap Formula.clauses ∧
      ∀ (fail : ReadError → ε) (visit : Formula → σ → σ × Except ε Unit) (s s' : σ),
        visitAll visit formulas s = (s', .ok ()) →
          ∃ r', Dimacs.feedInto fail visit reads r s = (s', .ok r') ∧
            r'.varCount = full'.formula.varCount ∧ r'.clauseCount = full'.clauseCount := by
  induction reads generalizing taken full r with
  | nil =>
    obtain ⟨f, hcount, hclauses, hinto⟩ := h.finishInto_of_finishRead hrun
    refine ⟨[f], .last hcount, by simpa using hclauses, ?_⟩
    intro fail visit s s' hvisits
    obtain ⟨s₁, hvisit, hdone⟩ := visitAll_cons_eq_ok_iff.1 hvisits
    cases hdone
    exact hinto fail visit s s' hvisit
  | cons part reads ih =>
    cases part with
    | failure text => cases hrun
    | data bytes =>
      obtain ⟨full₁, r₁, result, hfull, hr, hahead⟩ := h.feed bytes
      simp only [feedAll, hfull] at hrun
      cases result with
      | error e => cases hrun
      | ok done =>
        have hcounted₁ := (hcounted.feed hfull).counted
        obtain ⟨formulas, hdeals, hclauses, hinto⟩ := ih hahead.takeFormula hcounted₁ hrun
        obtain ⟨hcount, htaken, -, -⟩ := hahead.counts
        have hdeals' : Deals full'.formula.varCount (r₁.formula :: formulas) := by
          -- before the header the formula is empty, after it the number of variables stays
          rcases Reader.Onward.varCount_eq hcounted₁ (onward_feedAll hcounted₁ hrun) with
            hempty | hsame
          · rw [hempty] at hcount htaken
            exact .empty hcount (List.append_eq_nil_iff.1 htaken.symm).2 hdeals
          · exact .next (hcount.trans hsame) hdeals
        refine ⟨r₁.formula :: formulas, hdeals', ?_, ?_⟩
        · rw [hclauses, List.flatMap_cons, List.append_assoc]
          rfl
        · intro fail visit s s' hvisits
          obtain ⟨s₁, hvisit, hvisits'⟩ := visitAll_cons_eq_ok_iff.1 hvisits
          obtain ⟨r', hrun', hr'⟩ := hinto fail visit s₁ s' hvisits'
          refine ⟨r', ?_, hr'⟩
          simp only [Dimacs.feedInto, hr, handOn_of_visit hvisit, hrun']

/-- A source with a formula can be read into every visitor that accepts the parts of the formula
which come out. -/
theorem exists_readInto_of_read {source : Source} {F : Formula} (h : read source = .ok F) :
    ∃ formulas, Deals F.varCount formulas ∧ F.clauses = formulas.flatMap Formula.clauses ∧
      ∀ (fail : ReadError → ε) (visit : Formula → σ → σ × Except ε Unit) (s s' : σ),
        visitAll visit formulas s = (s', .ok ()) →
          ∃ r, readInto fail visit source s = (s', .ok r) ∧
            r.varCount = F.varCount ∧ r.clauseCount = F.size := by
  have hstart : Ahead [] .start .start :=
    ⟨.empty, rfl, Formula.wellFormed_empty, rfl, rfl, .empty⟩
  unfold read at h
  cases hrun : feedAll source.reads .start with
  | error e =>
    rw [hrun] at h
    cases h
  | ok full =>
    rw [hrun] at h
    cases h
    have hcounted := (onward_feedAll Reader.counted_start hrun).counted
    obtain ⟨formulas, hdeals, hclauses, hinto⟩ :=
      hstart.feedInto_of_feedAll Reader.counted_start hrun
    refine ⟨formulas, hdeals, hclauses, fun fail visit s s' hvisits => ?_⟩
    obtain ⟨r, hread, hcount, hnumber⟩ := hinto fail visit s s' hvisits
    exact ⟨r, hread, hcount, hnumber.trans hcounted.clauseCount_eq⟩

end

end BucketElimination.Dimacs
