import BucketElimination.Proofs.Acceptance
import BucketElimination.Proofs.StreamedReading
set_option autoImplicit false

/-!
# Reading stays in range

Whatever becomes of a byte or of the end of the input, the number being read is that of a variable,
or 0, and the stored literals are those of variables that the header declares.  So a byte or the end
of the input is refused only because something is wrong with the input.  The error names the line
that the reader has come to, which is one more than the number of line feeds before.
-/

namespace BucketElimination.Dimacs

/-- The line that an error names. -/
def Error.line? : Error → Option Nat
  | .unexpectedInput line _ | .literalTooLarge line _ _ | .invalidHeader line _
  | .varCountTooLarge line _ | .missingHeader line | .varOutOfRange line _ _
  | .unterminatedClause line => some line
  | .clauseCount _ _ | .previousError | .fault _ => none

/-- An error in a header names the line of the header. -/
theorem Header.line?_of_ofBytes {line : Nat} {bytes : List UInt8} {e : Error}
    (h : Header.ofBytes line bytes = .error e) : e.line? = some line := by
  simp only [Header.ofBytes] at h
  split at h
  · cases h
    rfl
  · split at h
    · cases h
      rfl
    · cases h

/-! ## What holds of a reader at all times -/

namespace Reader

/-- Numbers and literals are in range. -/
structure InRange (r : Reader) : Prop where
  value_le : r.token.value ≤ Var.maxNumber
  /-- A header line begins only if there was none yet. -/
  of_line : r.line = .header → r.header = none
  of_none : r.header = none → r.formula = .empty ∧ r.partialClause = #[]
  of_some : ∀ header, r.header = some header → header.varCount ≤ Var.maxNumber ∧
    r.formula.varCount = header.varCount ∧ ∀ l ∈ r.partialClause, l.var.number ≤ header.varCount
  reachable : r.formula.Reachable

/-- The clauses read so far, and one more that the number being read may close. -/
def clauseBound (r : Reader) : Nat := r.clauseCount + if r.token = .idle then 0 else 1

/-- What any part of reading comes to, whether it succeeds or not, if at most `begun` numbers begin
in it.  Lines are not counted in it, and the reader is not stopped. -/
structure Advances (r : Reader) (begun : Nat) (x : Reader × Except Error Unit) : Prop where
  inRange : x.1.InRange
  lineNumber_eq : x.1.lineNumber = r.lineNumber
  failed_eq : x.1.failed = r.failed
  clauseBound_le : x.1.clauseBound ≤ r.clauseBound + begun
  line?_eq : ∀ e, x.2 = .error e → e.line? = some r.lineNumber

variable {r r' : Reader} {b : UInt8}

theorem inRange_start : start.InRange :=
  ⟨Nat.zero_le _, nofun, fun _ => ⟨rfl, rfl⟩, nofun, .empty⟩

/-- Nothing happened. -/
theorem InRange.advances_self (h : r.InRange) (begun : Nat) : Advances r begun (r, .ok ()) :=
  ⟨h, rfl, rfl, Nat.le_add_right _ _, nofun⟩

/-- The reader refused something and did not change. -/
theorem InRange.refuses (h : r.InRange) (begun : Nat) {e : Error}
    (he : e.line? = some r.lineNumber) : Advances r begun (r, .error e) :=
  ⟨h, rfl, rfl, Nat.le_add_right _ _, fun e' he' => by cases he'; exact he⟩

/-- What comes after a success. -/
theorem Advances.trans {r₁ : Reader} {begun begun' : Nat} {x : Reader × Except Error Unit}
    (h : Advances r begun (r₁, .ok ())) (h' : Advances r₁ begun' x) :
    Advances r (begun + begun') x where
  inRange := h'.inRange
  lineNumber_eq := h'.lineNumber_eq.trans h.lineNumber_eq
  failed_eq := h'.failed_eq.trans h.failed_eq
  clauseBound_le := by
    have hle : r₁.clauseBound ≤ r.clauseBound + begun := h.clauseBound_le
    have hle' := h'.clauseBound_le
    omega
  line?_eq := fun e he => (h'.line?_eq e he).trans (congrArg some h.lineNumber_eq)

/-- A change of place in the input. -/
theorem InRange.change (h : r.InRange) (line : LineKind) (hline : line = .header → r.header = none)
    (token : Token) (hvalue : token.value ≤ Var.maxNumber) (lineNumber : Nat)
    (headerBytes : Array UInt8) (failed : Bool) :
    InRange { r with line, token, lineNumber, headerBytes, failed } :=
  ⟨hvalue, hline, h.of_none, h.of_some, h.reachable⟩

theorem InRange.dropToken (h : r.InRange) : r.dropToken.InRange :=
  h.change r.line h.of_line .idle (Nat.zero_le _) r.lineNumber r.headerBytes r.failed

/-- After the header, a change of the clauses that stays in the range of the header. -/
theorem InRange.of_header {header : Header} (h : r.InRange) (hheader : r.header = some header)
    {formula : Formula} (hreachable : formula.Reachable)
    (hcount : formula.varCount = header.varCount) {lits : Array Lit}
    (hle : ∀ l ∈ lits, l.var.number ≤ header.varCount) (clauseCount : Nat) :
    InRange { r with formula, partialClause := lits, clauseCount } := by
  refine ⟨h.value_le, h.of_line, ?_, ?_, hreachable⟩
  · intro hnone
    cases hheader.symm.trans hnone
  · intro header' hheader'
    cases hheader.symm.trans hheader'
    exact ⟨(h.of_some header hheader).1, hcount, hle⟩

theorem InRange.closeClause {header : Header} (h : r.InRange) (hheader : r.header = some header) :
    r.closeClause.InRange := by
  obtain ⟨-, hcount, hle⟩ := h.of_some header hheader
  apply h.of_header hheader (.addClause _ h.reachable)
  · have hmax : Formula.maxVarNumber r.partialClause.toList ≤ header.varCount :=
      Formula.maxVarNumber_le_iff.2 fun l hl => hle l (by simpa using hl)
    show max r.formula.varCount _ = _
    rw [hcount, Nat.max_eq_left hmax]
  · simp

theorem InRange.addLit {header : Header} {l : Lit} (h : r.InRange)
    (hheader : r.header = some header) (hl : l.var.number ≤ header.varCount) :
    (r.addLit l).InRange := by
  obtain ⟨-, hcount, hle⟩ := h.of_some header hheader
  apply h.of_header hheader h.reachable hcount
  intro l' hl'
  rcases Array.mem_push.1 hl' with hl' | rfl
  · exact hle l' hl'
  · exact hl

/-- The reader has a header from now on. -/
theorem InRange.declare {header : Header} (h : r.InRange) (hline : r.line = .header)
    (hmax : header.varCount ≤ Var.maxNumber) :
    InRange { r with
      header := some header
      formula := r.formula.raiseVarCount header.varCount
      line := .start } := by
  obtain ⟨hformula, hpartial⟩ := h.of_none (h.of_line hline)
  refine ⟨h.value_le, nofun, nofun, ?_, .raiseVarCount _ h.reachable⟩
  intro header' hheader'
  cases hheader'
  refine ⟨hmax, ?_, by simp [hpartial]⟩
  show max r.formula.varCount _ = _
  rw [hformula]
  exact Nat.zero_max _

/-- The clauses that are taken out leave no clause. -/
theorem InRange.takeFormula (h : r.InRange) : r.takeFormula.2.InRange := by
  refine ⟨h.value_le, h.of_line, ?_, ?_, .raiseVarCount _ .empty⟩
  · intro hnone
    obtain ⟨hformula, hpartial⟩ := h.of_none hnone
    refine ⟨?_, hpartial⟩
    show Formula.empty.raiseVarCount r.formula.varCount = _
    rw [hformula]
    rfl
  · intro header hheader
    obtain ⟨hmax, hcount, hle⟩ := h.of_some header hheader
    exact ⟨hmax, (Nat.zero_max _).trans hcount, hle⟩

/-! ## What a byte comes to -/

/-- Forgetting a number that was begun makes up for a clause. -/
theorem clauseBound_of_number {value : Nat} {negative : Bool}
    (htoken : r.token = .number value negative) : r.clauseBound = r.clauseCount + 1 := by
  rw [clauseBound, htoken, if_neg nofun]

theorem clauseBound_dropToken_le (r : Reader) : r.dropToken.clauseBound ≤ r.clauseBound :=
  Nat.le_add_right r.clauseCount _

/-- The reader refused the number being read, which it forgets. -/
theorem InRange.refusesToken (h : r.InRange) {e : Error} (he : e.line? = some r.lineNumber) :
    Advances r 0 (r.dropToken, .error e) :=
  ⟨h.dropToken, rfl, rfl, clauseBound_dropToken_le r, fun e' he' => by cases he'; exact he⟩

theorem InRange.finishToken (h : r.InRange) (b : UInt8) : Advances r 0 (r.finishToken b) := by
  have hdrop := h.dropToken
  unfold Reader.finishToken
  cases htoken : r.token with
  | idle => exact h.advances_self 0
  | minus => exact h.refusesToken rfl
  | number value negative =>
    have hbound : r.clauseBound = r.clauseCount + 1 := clauseBound_of_number htoken
    cases hheader : r.header with
    | none => exact h.refusesToken rfl
    | some header =>
      simp only
      split
      · refine ⟨hdrop.closeClause hheader, rfl, rfl, ?_, nofun⟩
        exact Nat.le_of_eq hbound.symm
      · split
        · exact h.refusesToken rfl
        · -- what is left to check is that the number belongs to a variable
          rename_i hzero hle
          have hvalue : value ≤ Var.maxNumber := by
            have hmax := h.value_le
            rwa [htoken] at hmax
          cases hv : Var.ofNumber? value with
          | none =>
            rcases Var.ofNumber?_eq_none_iff.1 hv with hnone | hnone
            · exact absurd hnone hzero
            · omega
          | some v =>
            refine ⟨hdrop.addLit hheader ?_, rfl, rfl, ?_, nofun⟩
            · rw [Var.ofNumber?_eq_some_iff.1 hv]
              exact Nat.le_of_not_lt hle
            · exact clauseBound_dropToken_le r

theorem InRange.finishHeader (h : r.InRange) (hline : r.line = .header) :
    Advances r 0 r.finishHeader := by
  unfold Reader.finishHeader
  cases hheader : Header.ofBytes r.lineNumber r.headerBytes.toList with
  | error e => exact h.refuses 0 (Header.line?_of_ofBytes hheader)
  | ok header =>
    exact ⟨h.declare hline (Header.varCount_le_of_ofBytes hheader), rfl, rfl, Nat.le_refl _, nofun⟩

/-- A new place in the input, at which at most one number is begun. -/
theorem InRange.moves (h : r.InRange) (line : LineKind) (hline : line = .header → r.header = none)
    (token : Token) (hvalue : token.value ≤ Var.maxNumber) (headerBytes : Array UInt8) :
    Advances r 1 ({ r with line, token, headerBytes }, .ok ()) := by
  refine ⟨h.change line hline token hvalue r.lineNumber headerBytes r.failed, rfl, rfl, ?_, nofun⟩
  show r.clauseCount + (if token = .idle then 0 else 1) ≤ _ + 1
  unfold clauseBound
  split <;> omega

theorem InRange.addDigit (h : r.InRange) (digit : Nat) : Advances r 1 (r.addDigit digit) := by
  rw [addDigit_eq]
  split
  · exact h.refuses 1 rfl
  · rename_i hmax
    exact h.moves .clause nofun (.number (r.token.value * 10 + digit) r.token.negative)
      (Nat.le_of_not_lt hmax) r.headerBytes

theorem InRange.newLine (h : r.InRange) : Advances r 0 ({ r with line := .start }, .ok ()) :=
  ⟨h.change .start nofun r.token h.value_le r.lineNumber r.headerBytes r.failed, rfl, rfl,
    Nat.le_refl _, nofun⟩

theorem InRange.finishLine (h : r.InRange) (b : UInt8) : Advances r 0 (r.finishLine b) := by
  have htoken := h.finishToken b
  unfold Reader.finishLine
  rcases hrun : r.finishToken b with ⟨r₁, e | done⟩
  · rw [hrun] at htoken
    exact htoken
  · rw [hrun] at htoken
    simp only
    split
    · rename_i hline
      have hheader := htoken.inRange.finishHeader hline
      rcases hrun' : r₁.finishHeader with ⟨r₂, e | done⟩
      · rw [hrun'] at hheader
        exact htoken.trans hheader
      · rw [hrun'] at hheader
        exact (htoken.trans hheader).trans hheader.inRange.newLine
    · exact htoken.trans htoken.inRange.newLine

theorem InRange.takeByte (h : r.InRange) (b : UInt8) : Advances r 1 (r.takeByte b) := by
  unfold Reader.takeByte
  split
  · exact (h.advances_self 1).trans (h.finishLine b)
  · split
    · exact (h.advances_self 1).trans (h.finishToken b)
    · split
      · exact h.addDigit _
      · split
        · exact h.moves .clause nofun .minus (Nat.zero_le _) r.headerBytes
        · split
          · exact h.moves .comment nofun r.token h.value_le r.headerBytes
          · split
            · rename_i hstart
              exact h.moves .header (fun _ => hstart.2.2) r.token h.value_le (r.headerBytes.push b)
            · split
              · exact h.moves .trailer nofun r.token h.value_le r.headerBytes
              · exact h.refuses 1 rfl

theorem InRange.step (h : r.InRange) (b : UInt8) : Advances r 1 (r.step b) := by
  unfold Reader.step
  cases hline : r.line with
  | start | clause => exact h.takeByte b
  | trailer => exact h.advances_self 1
  | comment =>
    simp only
    split
    · exact h.takeByte b
    · exact h.advances_self 1
  | header =>
    simp only
    split
    · exact h.takeByte b
    · exact h.moves .header (fun _ => h.of_line hline) r.token h.value_le (r.headerBytes.push b)

/-! ## What a piece and the end of the input come to -/

/-- Counting a line changes nothing else. -/
theorem InRange.countLine (h : r.InRange) (b : UInt8) :
    (r.countLine b).InRange ∧ (r.countLine b).failed = r.failed ∧
      (r.countLine b).lineNumber = r.lineNumber + [b].count lineFeed ∧
      (r.countLine b).clauseBound = r.clauseBound := by
  unfold Reader.countLine
  split
  · rename_i hb
    rw [hb, List.count_singleton_self]
    exact ⟨h.change r.line h.of_line r.token h.value_le _ _ _, rfl, rfl, rfl⟩
  · rename_i hb
    rw [List.count_singleton, beq_eq_false_iff_ne.2 hb]
    exact ⟨h, rfl, rfl, rfl⟩

/-- Bytes that are taken in are counted, and so are the lines that they end. -/
theorem InRange.feedBytes_ok (h : r.InRange) {bytes : List UInt8}
    (hrun : r.feedBytes bytes = (r', .ok ())) :
    r'.InRange ∧ r'.failed = r.failed ∧ r'.lineNumber = r.lineNumber + bytes.count lineFeed ∧
      r'.clauseBound ≤ r.clauseBound + bytes.length := by
  induction bytes generalizing r with
  | nil =>
    cases hrun
    exact ⟨h, rfl, rfl, Nat.le_refl _⟩
  | cons b bytes ih =>
    have hstep := h.step b
    rw [feedBytes] at hrun
    rcases hb : r.step b with ⟨r₁, e | done⟩
    · rw [hb] at hrun
      cases hrun
    · rw [hb] at hrun hstep
      have hrange₁ : r₁.InRange := hstep.inRange
      have hnumber₁ : r₁.lineNumber = r.lineNumber := hstep.lineNumber_eq
      have hbound₁ : r₁.clauseBound ≤ r.clauseBound + 1 := hstep.clauseBound_le
      obtain ⟨hrange₂, hfailed₂, hnumber₂, hbound₂⟩ := hrange₁.countLine b
      obtain ⟨hrange, hfailed, hnumber, hbound⟩ := ih hrange₂ hrun
      refine ⟨hrange, hfailed.trans (hfailed₂.trans hstep.failed_eq), ?_, ?_⟩
      · rw [hnumber, hnumber₂, hnumber₁, Nat.add_assoc, ← List.count_append]
        rfl
      · rw [List.length_cons]
        omega

/-- Bytes are refused at one of them, after those before it were taken in. -/
theorem exists_step_of_feedBytes_error {bytes : List UInt8} {e : Error}
    (hrun : r.feedBytes bytes = (r', .error e)) :
    ∃ before b after r₁ r₂, bytes = before ++ b :: after ∧ r.feedBytes before = (r₁, .ok ()) ∧
      r₁.step b = (r₂, .error e) ∧ r' = { r₂ with failed := true } := by
  induction bytes generalizing r with
  | nil => cases hrun
  | cons b bytes ih =>
    rw [feedBytes] at hrun
    rcases hb : r.step b with ⟨r₁, e' | done⟩
    · rw [hb] at hrun
      cases hrun
      exact ⟨[], b, bytes, r, r₁, rfl, rfl, hb, rfl⟩
    · rw [hb] at hrun
      obtain ⟨before, b', after, r₂, r₃, hbytes, hbefore, hrefused⟩ := ih hrun
      refine ⟨b :: before, b', after, r₂, r₃, by rw [hbytes, List.cons_append], ?_, hrefused⟩
      rw [feedBytes, hb]
      exact hbefore

/-- The error names the line on which the refused byte stands. -/
theorem InRange.line?_feedBytes (h : r.InRange) {bytes : List UInt8} {e : Error}
    (hrun : r.feedBytes bytes = (r', .error e)) :
    ∃ before b after, bytes = before ++ b :: after ∧ (r.feedBytes before).2 = .ok () ∧
      (r.feedBytes (before ++ [b])).2 = .error e ∧
      e.line? = some (r.lineNumber + before.count lineFeed) := by
  obtain ⟨before, b, after, r₁, r₂, hbytes, hbefore, hstep, -⟩ :=
    exists_step_of_feedBytes_error hrun
  obtain ⟨hrange, -, hnumber, -⟩ := h.feedBytes_ok hbefore
  refine ⟨before, b, after, hbytes, by rw [hbefore], ?_, ?_⟩
  · rw [feedBytes_append, hbefore]
    simp only [feedBytes, hstep]
  · rw [← hnumber]
    exact (hrange.step b).line?_eq e (by rw [hstep])

theorem InRange.checkComplete (h : r.InRange) : Advances r 0 (r, r.checkComplete) := by
  unfold Reader.checkComplete
  split
  · split
    · exact h.advances_self 0
    · exact h.refuses 0 rfl
  · exact h.refuses 0 rfl

theorem InRange.finishClauses (h : r.InRange) : Advances r 0 r.finishClauses := by
  have htoken := h.finishToken lineFeed
  unfold Reader.finishClauses
  split
  · exact h.refuses 0 rfl
  · rcases hrun : r.finishToken lineFeed with ⟨r₁, e | done⟩
    · rw [hrun] at htoken
      exact htoken
    · rw [hrun] at htoken
      exact htoken.trans htoken.inRange.checkComplete

theorem InRange.finish (h : r.InRange) (hfailed : r.failed = false) : Advances r 0 r.finish := by
  rw [Reader.finish, if_neg (by rw [hfailed]; decide)]
  split
  · rename_i hline
    have hheader := h.finishHeader hline
    rcases hrun : r.finishHeader with ⟨r₁, e | done⟩
    · rw [hrun] at hheader
      exact hheader
    · rw [hrun] at hheader
      exact hheader.trans hheader.inRange.finishClauses
  · exact h.finishClauses

end Reader

end BucketElimination.Dimacs
