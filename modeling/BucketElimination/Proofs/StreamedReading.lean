import BucketElimination.Dimacs.Source
import BucketElimination.Proofs.FormulaClauses
set_option autoImplicit false

/-!
# Streamed reading: handing on clauses while reading loses none

`Dimacs.readInto` takes the clauses out of the reader after each read and hands them to a visitor.
Taking clauses out has no part in how the bytes are understood: the reader goes on as one that keeps
its clauses, and what the visitor was handed, formula after formula, is what `Dimacs.read` returns
at the end.
-/

namespace BucketElimination.Dimacs

/-! ## The number being read -/

namespace Token

/-- The value of the digits read so far. -/
def value : Token → Nat
  | .number value _ => value
  | _ => 0

/-- A minus sign was read. -/
def negative : Token → Bool
  | .number _ negative => negative
  | .minus => true
  | .idle => false

end Token

/-- A digit is appended to the number being read, unless this makes it too large. -/
theorem Reader.addDigit_eq (r : Reader) (digit : Nat) :
    r.addDigit digit =
      if Var.maxNumber < r.token.value * 10 + digit then
        (r, .error (.literalTooLarge r.lineNumber r.token.value digit))
      else
        ({ r with
          token := .number (r.token.value * 10 + digit) r.token.negative, line := .clause },
          .ok ()) := by
  obtain ⟨formula, partialClause, header, lineNumber, clauseCount, line, token, failed, bytes⟩ := r
  cases token <;> rfl

/-! ## A reader whose clauses were taken out -/

/-- `full` is the reader `r` before the clauses `taken` were taken out of it. -/
def Ahead (taken : List (List Lit)) (full r : Reader) : Prop :=
  ∃ F : Formula, full = { r with formula := F } ∧ F.WellFormed ∧
    F.varCount = r.formula.varCount ∧ F.clauses = taken ++ r.formula.clauses ∧
    r.formula.Reachable

/-- Both readers came to the same result, and one is still ahead of the other. -/
def SameResult (taken : List (List Lit)) (x y : Reader × Except Error Unit) : Prop :=
  ∃ full r result, x = (full, result) ∧ y = (r, result) ∧ Ahead taken full r

variable {taken : List (List Lit)} {full r : Reader}

theorem Ahead.closeClause (h : Ahead taken full r) :
    Ahead taken full.closeClause r.closeClause := by
  obtain ⟨F, rfl, hwf, hcount, hclauses, hreachable⟩ := h
  refine ⟨F.addClause r.partialClause.toList, rfl, hwf.addClause _, ?_, ?_, hreachable.addClause _⟩
  · show max _ _ = max _ _
    rw [hcount]
  · show _ = taken ++ (r.formula.addClause _).clauses
    rw [hwf.clauses_addClause, hreachable.wellFormed.clauses_addClause, hclauses, List.append_assoc]

/-- A change of the state that leaves the formula alone. -/
theorem Ahead.change (h : Ahead taken full r) (change : Reader → Reader)
    (hchange : ∀ r F, change { r with formula := F } = { change r with formula := F })
    (hformula : (change r).formula = r.formula) : Ahead taken (change full) (change r) := by
  obtain ⟨F, rfl, hF⟩ := h
  rw [← hformula] at hF
  exact ⟨F, hchange r F, hF⟩

/-- Both readers are in the same place. -/
theorem Ahead.fields (h : Ahead taken full r) :
    full.token = r.token ∧ full.header = r.header ∧ full.lineNumber = r.lineNumber ∧
      full.line = r.line ∧ full.failed = r.failed ∧ full.headerBytes = r.headerBytes ∧
      full.partialClause = r.partialClause := by
  obtain ⟨F, rfl, -⟩ := h
  exact ⟨rfl, rfl, rfl, rfl, rfl, rfl, rfl⟩

theorem Ahead.dropToken (h : Ahead taken full r) : Ahead taken full.dropToken r.dropToken :=
  h.change Reader.dropToken (fun _ _ => rfl) rfl

theorem Ahead.finishToken (h : Ahead taken full r) (b : UInt8) :
    SameResult taken (full.finishToken b) (r.finishToken b) := by
  have hdrop := h.dropToken
  obtain ⟨htoken, hheader, hnumber, -⟩ := h.fields
  simp only [Reader.finishToken, htoken, hheader, hnumber]
  cases r.token with
  | idle => exact ⟨_, _, _, rfl, rfl, h⟩
  | minus => exact ⟨_, _, _, rfl, rfl, hdrop⟩
  | number value negative =>
    cases r.header with
    | none => exact ⟨_, _, _, rfl, rfl, hdrop⟩
    | some header =>
      simp only
      by_cases hzero : value = 0
      · simp only [if_pos hzero]
        exact ⟨_, _, _, rfl, rfl, hdrop.closeClause⟩
      · simp only [if_neg hzero]
        by_cases hlt : header.varCount < value
        · simp only [if_pos hlt]
          exact ⟨_, _, _, rfl, rfl, hdrop⟩
        · simp only [if_neg hlt]
          cases Var.ofNumber? value with
          | none => exact ⟨_, _, _, rfl, rfl, hdrop⟩
          | some v =>
            exact ⟨_, _, _, rfl, rfl,
              hdrop.change (·.addLit ⟨v, .ofBool !negative⟩) (fun _ _ => rfl) rfl⟩

theorem Ahead.finishHeader (h : Ahead taken full r) :
    SameResult taken full.finishHeader r.finishHeader := by
  obtain ⟨-, -, hnumber, -, -, hbytes, -⟩ := h.fields
  simp only [Reader.finishHeader, hnumber, hbytes]
  cases Header.ofBytes r.lineNumber r.headerBytes.toList with
  | error e => exact ⟨_, _, _, rfl, rfl, h⟩
  | ok header =>
    obtain ⟨F, rfl, hwf, hcount, hclauses, hreachable⟩ := h
    refine ⟨_, _, _, rfl, rfl, F.raiseVarCount header.varCount, rfl, hwf.raiseVarCount _, ?_,
      hclauses, hreachable.raiseVarCount _⟩
    show max _ _ = max _ _
    rw [hcount]

theorem Ahead.addDigit (h : Ahead taken full r) (digit : Nat) :
    SameResult taken (full.addDigit digit) (r.addDigit digit) := by
  obtain ⟨htoken, -, hnumber, -⟩ := h.fields
  rw [Reader.addDigit_eq, Reader.addDigit_eq, htoken]
  by_cases hmax : Var.maxNumber < r.token.value * 10 + digit
  · simp only [if_pos hmax, hnumber]
    exact ⟨_, _, _, rfl, rfl, h⟩
  · simp only [if_neg hmax]
    exact ⟨_, _, _, rfl, rfl, h.change (fun s => { s with
      token := .number (r.token.value * 10 + digit) r.token.negative, line := .clause })
      (fun _ _ => rfl) rfl⟩

/-- A new line begins. -/
theorem Ahead.newLine (h : Ahead taken full r) :
    Ahead taken { full with line := .start } { r with line := .start } :=
  h.change (fun r => { r with line := .start }) (fun _ _ => rfl) rfl

theorem Ahead.finishLine (h : Ahead taken full r) (b : UInt8) :
    SameResult taken (full.finishLine b) (r.finishLine b) := by
  obtain ⟨full, r, result, hfull, hr, hahead⟩ := h.finishToken b
  simp only [Reader.finishLine, hfull, hr]
  cases result with
  | error e => exact ⟨_, _, _, rfl, rfl, hahead⟩
  | ok done =>
    obtain ⟨-, -, -, hline, -⟩ := hahead.fields
    by_cases hheader : r.line = .header
    · simp only [if_pos hheader, if_pos (hline.trans hheader)]
      obtain ⟨full, r, result, hfull, hr, hahead⟩ := hahead.finishHeader
      simp only [hfull, hr]
      cases result with
      | error e => exact ⟨_, _, _, rfl, rfl, hahead⟩
      | ok done => exact ⟨_, _, _, rfl, rfl, hahead.newLine⟩
    · simp only [if_neg hheader, if_neg fun he => hheader (hline.symm.trans he)]
      exact ⟨_, _, _, rfl, rfl, hahead.newLine⟩

theorem Ahead.takeByte (h : Ahead taken full r) (b : UInt8) :
    SameResult taken (full.takeByte b) (r.takeByte b) := by
  have hline := h.finishLine b
  have htoken := h.finishToken b
  have hdigit := h.addDigit
  obtain ⟨F, rfl, hF⟩ := h
  simp only [Reader.takeByte]
  split
  · exact hline
  · split
    · exact htoken
    · split
      · exact hdigit _
      · split
        · exact ⟨_, _, _, rfl, rfl, F, rfl, hF⟩
        · split
          · exact ⟨_, _, _, rfl, rfl, F, rfl, hF⟩
          · split
            · exact ⟨_, _, _, rfl, rfl, F, rfl, hF⟩
            · split
              · exact ⟨_, _, _, rfl, rfl, F, rfl, hF⟩
              · exact ⟨_, _, _, rfl, rfl, F, rfl, hF⟩

theorem Ahead.step (h : Ahead taken full r) (b : UInt8) :
    SameResult taken (full.step b) (r.step b) := by
  obtain ⟨-, -, -, hline, -⟩ := h.fields
  simp only [Reader.step, hline]
  cases r.line with
  | start => exact h.takeByte b
  | clause => exact h.takeByte b
  | trailer => exact ⟨_, _, _, rfl, rfl, h⟩
  | comment =>
    simp only
    split
    · exact h.takeByte b
    · exact ⟨_, _, _, rfl, rfl, h⟩
  | header =>
    simp only
    split
    · exact h.takeByte b
    · exact ⟨_, _, _, rfl, rfl, h.change (fun r => { r with
        line := .header, headerBytes := r.headerBytes.push b }) (fun _ _ => rfl) rfl⟩

theorem Ahead.feedBytes (h : Ahead taken full r) (bytes : List UInt8) :
    SameResult taken (full.feedBytes bytes) (r.feedBytes bytes) := by
  induction bytes generalizing full r with
  | nil => exact ⟨_, _, _, rfl, rfl, h⟩
  | cons b bytes ih =>
    obtain ⟨full, r, result, hfull, hr, hahead⟩ := h.step b
    simp only [Reader.feedBytes, hfull, hr]
    cases result with
    | error e =>
      exact ⟨_, _, _, rfl, rfl,
        hahead.change (fun r => { r with failed := true }) (fun _ _ => rfl) rfl⟩
    | ok done =>
      refine ih (hahead.change (·.countLine b) (fun r F => ?_) ?_)
      · simp only [Reader.countLine]
        split <;> rfl
      · simp only [Reader.countLine]
        split <;> rfl

theorem Ahead.feed (h : Ahead taken full r) (bytes : List UInt8) :
    SameResult taken (full.feed bytes) (r.feed bytes) := by
  obtain ⟨-, -, -, -, hfailed, -⟩ := h.fields
  simp only [Reader.feed, hfailed]
  split
  · exact ⟨_, _, _, rfl, rfl, h⟩
  · exact h.feedBytes bytes

theorem Ahead.finishClauses (h : Ahead taken full r) :
    SameResult taken full.finishClauses r.finishClauses := by
  obtain ⟨htoken, -, hnumber, -⟩ := h.fields
  obtain ⟨full', r', result, hfull, hr, hahead⟩ := h.finishToken lineFeed
  simp only [Reader.finishClauses, htoken, hnumber, hfull, hr]
  split
  · exact ⟨_, _, _, rfl, rfl, h⟩
  · cases result with
    | error e => exact ⟨_, _, _, rfl, rfl, hahead⟩
    | ok done =>
      obtain ⟨-, hheader, hnumber, -, -, -, hpartial⟩ := hahead.fields
      refine ⟨_, _, _, rfl, ?_, hahead⟩
      simp only [Reader.checkComplete, hheader, hnumber, hpartial]

theorem Ahead.finish (h : Ahead taken full r) : SameResult taken full.finish r.finish := by
  obtain ⟨-, -, -, hline, hfailed, -⟩ := h.fields
  obtain ⟨full', r', result, hfull, hr, hahead⟩ := h.finishHeader
  simp only [Reader.finish, hline, hfailed, hfull, hr]
  split
  · exact ⟨_, _, _, rfl, rfl, h⟩
  · split
    · cases result with
      | error e => exact ⟨_, _, _, rfl, rfl, hahead⟩
      | ok done => exact hahead.finishClauses
    · exact h.finishClauses

/-! ## Handing on -/

variable {σ ε : Type} {fail : ReadError → ε} {visit : Formula → σ → σ × Except ε Unit}

/-- Show formulas to a visitor one after the other, as long as it accepts them. -/
def visitAll (visit : Formula → σ → σ × Except ε Unit) : List Formula → σ → σ × Except ε Unit
  | [], s => (s, .ok ())
  | f :: formulas, s =>
    match visit f s with
    | (s, .error e) => (s, .error e)
    | (s, .ok ()) => visitAll visit formulas s

/-- Taking the clauses out leaves a reader that is further behind. -/
theorem Ahead.takeFormula (h : Ahead taken full r) :
    Ahead (taken ++ r.takeFormula.1.clauses) full r.takeFormula.2 := by
  obtain ⟨F, rfl, hwf, hcount, hclauses, -⟩ := h
  refine ⟨F, rfl, hwf, ?_, ?_, .raiseVarCount _ .empty⟩
  · show F.varCount = max 0 r.formula.varCount
    rw [hcount, Nat.zero_max]
  · exact hclauses.trans (List.append_nil _).symm

/-- An accepted formula was shown to the visitor, and its clauses were taken out. -/
theorem Ahead.handOn (h : Ahead taken full r) {r' : Reader} {s s' : σ}
    (hrun : Dimacs.handOn visit r s = (s', .ok r')) :
    ∃ f : Formula, f.Reachable ∧ visit f s = (s', .ok ()) ∧ r'.formula.clauses = [] ∧
      Ahead (taken ++ f.clauses) full r' := by
  simp only [Dimacs.handOn] at hrun
  split at hrun
  · cases hrun
  · rename_i hvisit
    cases hrun
    refine ⟨r.takeFormula.1, ?_, hvisit, rfl, h.takeFormula⟩
    obtain ⟨F, rfl, -, -, -, hreachable⟩ := h
    exact hreachable

/-- A reading that hands on its clauses and succeeds shows the visitor the clauses that a reading as
a whole returns. -/
theorem Ahead.feedInto {reads : List Part} {r' : Reader} {s s' : σ} (h : Ahead taken full r)
    (hrun : feedInto fail visit reads r s = (s', .ok r')) :
    ∃ formulas full', visitAll visit formulas s = (s', .ok ()) ∧ (∀ f ∈ formulas, f.Reachable) ∧
      feedAll reads full = .ok full' ∧
      full'.formula.clauses = taken ++ formulas.flatMap Formula.clauses := by
  induction reads generalizing taken full r s with
  | nil =>
    simp only [Dimacs.feedInto, finishInto] at hrun
    obtain ⟨full₁, r₁, result, hfull, hr, hahead⟩ := h.finish
    rw [hr] at hrun
    cases result with
    | error e => cases hrun
    | ok done =>
      simp only at hrun
      rcases hhand : Dimacs.handOn visit r₁ s with ⟨s₁, result⟩
      rw [hhand] at hrun
      cases result with
      | error e => cases hrun
      | ok r₂ =>
        obtain ⟨f, hreachable, hvisit, hnil, F, rfl, -, -, hclauses, -⟩ := hahead.handOn hhand
        simp only at hrun
        cases hcheck : r₂.checkHeader with
        | error e => rw [hcheck] at hrun; cases hrun
        | ok done =>
          rw [hcheck] at hrun
          cases hrun
          have hcheck' : Reader.checkHeader { r' with formula := F } = .ok () := hcheck
          refine ⟨[f], { r' with formula := F }, ?_, by simpa using hreachable, ?_, ?_⟩
          · simp only [visitAll, hvisit]
          · simp only [feedAll, finishRead, hfull, hcheck']
          · show F.clauses = _
            simp [hclauses, hnil]
  | cons part reads ih =>
    cases part with
    | failure text => cases hrun
    | data bytes =>
      simp only [Dimacs.feedInto] at hrun
      obtain ⟨full₁, r₁, result, hfull, hr, hahead⟩ := h.feed bytes
      rw [hr] at hrun
      cases result with
      | error e => cases hrun
      | ok done =>
        simp only at hrun
        rcases hhand : Dimacs.handOn visit r₁ s with ⟨s₁, result⟩
        rw [hhand] at hrun
        cases result with
        | error e => cases hrun
        | ok r₂ =>
          obtain ⟨f, hreachable, hvisit, -, hahead'⟩ := hahead.handOn hhand
          obtain ⟨formulas, full', hvisits, hall, hfeed, hclauses⟩ := ih hahead' hrun
          refine ⟨f :: formulas, full', ?_, ?_, ?_, ?_⟩
          · simp only [visitAll, hvisit, hvisits]
          · intro g hg
            rcases List.mem_cons.1 hg with rfl | hg
            · exact hreachable
            · exact hall g hg
          · simp only [feedAll, hfull, hfeed]
          · rw [hclauses, List.flatMap_cons, List.append_assoc]

/-- If reading into a visitor succeeds, the source has a formula, and its clauses are those of the
formulas that were shown to the visitor. -/
theorem of_readInto_eq_ok {source : Source} {r' : Reader} {s s' : σ}
    (h : readInto fail visit source s = (s', .ok r')) :
    ∃ formulas F, visitAll visit formulas s = (s', .ok ()) ∧ (∀ f ∈ formulas, f.Reachable) ∧
      read source = .ok F ∧ F.clauses = formulas.flatMap Formula.clauses := by
  have hstart : Ahead [] .start .start :=
    ⟨.empty, rfl, Formula.wellFormed_empty, rfl, rfl, .empty⟩
  obtain ⟨formulas, full, hvisits, hall, hfeed, hclauses⟩ := hstart.feedInto h
  refine ⟨formulas, full.formula, hvisits, hall, ?_, hclauses⟩
  rw [read, hfeed]
  rfl

variable (fail visit) in
/-- What the visitor keeps is kept by the whole reading. -/
theorem readInto_induction {P : σ → Prop} (hvisit : ∀ f s, P s → P (visit f s).1) {s : σ} (hs : P s)
    (source : Source) : P (readInto fail visit source s).1 := by
  have hhand : ∀ r s, P s → P (handOn visit r s).1 := by
    intro r s hs
    have hnext := hvisit r.formula s hs
    simp only [handOn, Reader.takeFormula]
    rcases hrun : visit r.formula s with ⟨s', e | done⟩
    · rwa [hrun] at hnext
    · rwa [hrun] at hnext
  unfold readInto
  generalize source.reads = reads
  generalize Reader.start = r
  induction reads generalizing r s with
  | nil =>
    simp only [feedInto, finishInto]
    rcases r.finish with ⟨r, e | done⟩
    · exact hs
    · have hnext := hhand r s hs
      rcases hrun : handOn visit r s with ⟨s', e | r'⟩
      · rw [hrun] at hnext
        simpa only [hrun] using hnext
      · rw [hrun] at hnext
        simp only [hrun]
        cases r'.checkHeader with
        | error e => exact hnext
        | ok done => exact hnext
  | cons part reads ih =>
    cases part with
    | failure text => exact hs
    | data bytes =>
      simp only [feedInto]
      rcases r.feed bytes with ⟨r, e | done⟩
      · exact hs
      · have hnext := hhand r s hs
        rcases hrun : handOn visit r s with ⟨s', e | r'⟩
        · rw [hrun] at hnext
          simpa only [hrun] using hnext
        · rw [hrun] at hnext
          simpa only [hrun] using ih hnext r'

end BucketElimination.Dimacs
