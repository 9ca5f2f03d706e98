import BucketElimination.Proofs.LineReading
set_option autoImplicit false

/-!
# Reading accepts the grammar

The end of the input counts as the end of a line, so an input is read line by line, up to the first
trailer.  The lines can all be taken in, and leave no clause open, exactly if the input is in the
grammar.  The formula that is read has the number of variables that the header declares, and its
clauses are the groups of numbers between the zeros.
-/

namespace BucketElimination.Dimacs

/-! ## Lines one after the other -/

/-- Bytes may be taken in at once or one part after the other. -/
theorem Reader.feedBytes_append (r : Reader) (bytes more : List UInt8) :
    r.feedBytes (bytes ++ more) =
      match r.feedBytes bytes with
      | (r', .ok ()) => r'.feedBytes more
      | (r', .error e) => (r', .error e) := by
  induction bytes generalizing r with
  | nil => rfl
  | cons b bytes ih =>
    rw [List.cons_append, Reader.feedBytes, Reader.feedBytes]
    rcases r.step b with ⟨r₁, e | done⟩
    · rfl
    · exact ih _

section

variable {s : Reading} {r : Reader}

/-- What comes after the trailer is ignored. -/
theorem Holds.feedBytes_trailer (h : Holds s r) (hline : r.line = .trailer) (bytes : List UInt8) :
    Follows Holds (r.feedBytes bytes) (some s) := by
  induction bytes generalizing r with
  | nil => exact .ok h
  | cons b bytes ih =>
    have hstep : r.step b = (r, .ok ()) := by simp only [Reader.step, hline]
    rw [Reader.feedBytes, hstep]
    simp only [Reader.countLine]
    split
    · exact ih (h.change rfl rfl rfl rfl rfl) hline
    · exact ih h hline

/-- From the start of a trailer on nothing is read. -/
theorem AtStart.feedBytes_trailer (h : AtStart s r) {line : List UInt8}
    (hends : ∀ b ∈ line, endsLine b = false) (hkind : LineKind.ofLine line = .trailer)
    (more : List UInt8) : Follows Holds (r.feedBytes (line ++ more)) (some s) := by
  induction line with
  | nil => cases hkind
  | cons b line ih =>
    have hb := hends b List.mem_cons_self
    have hcount : ∀ r : Reader, r.countLine b = r := Reader.countLine_of_not_endsLine hb
    rw [List.cons_append, Reader.feedBytes]
    by_cases hgap : isGap b = true
    · have hstep : r.step b = (r, .ok ()) := by
        simp only [Reader.step, h.line_eq, Reader.takeByte, hb, hgap, Bool.false_eq_true, if_false,
          if_true, Reader.finishToken, h.token_eq]
      simp only [hstep, hcount]
      rw [LineKind.ofLine, content, List.dropWhile_cons_of_pos hgap] at hkind
      exact ih (fun x hx => hends x (List.mem_cons_of_mem _ hx)) hkind
    · rw [LineKind.ofLine, content, List.dropWhile_cons_of_neg hgap] at hkind
      have htrailer : b = 37 := by
        by_cases hb' : b = 37
        · exact hb'
        · simp only [if_neg hb'] at hkind
          split at hkind
          · cases hkind
          · split at hkind <;> cases hkind
      subst htrailer
      have hstep : r.step 37 = ({ r with line := .trailer }, .ok ()) := by
        simp only [Reader.step, Reader.takeByte, h.line_eq, h.token_eq]
        rfl
      simp only [hstep, hcount]
      exact Holds.feedBytes_trailer (r := { r with line := .trailer })
        (h.toHolds.change rfl rfl rfl rfl rfl) rfl _

/-- An input is empty of line ends, or has a first line. -/
theorem lines_cases (bytes : List UInt8) :
    (∀ b ∈ bytes, endsLine b = false) ∧ lines bytes = [bytes] ∨
      ∃ line stop more, bytes = line ++ stop :: more ∧ (∀ b ∈ line, endsLine b = false) ∧
        endsLine stop = true ∧ lines bytes = line :: lines more := by
  induction bytes with
  | nil => exact .inl ⟨by simp, rfl⟩
  | cons b bytes ih =>
    by_cases hb : endsLine b = true
    · refine .inr ⟨[], b, bytes, rfl, by simp, hb, ?_⟩
      rw [lines, List.splitOnP_cons_eq_if_modifyHead, if_pos hb]
      rfl
    · have hb : endsLine b = false := by simpa using hb
      rcases ih with ⟨hends, -⟩ | ⟨line, stop, more, rfl, hends, hstop, -⟩
      · have hends' : ∀ x ∈ b :: bytes, endsLine x = false := List.forall_mem_cons.2 ⟨hb, hends⟩
        exact .inl ⟨hends', List.splitOnP_eq_singleton hends'⟩
      · have hends' : ∀ x ∈ b :: line, endsLine x = false := List.forall_mem_cons.2 ⟨hb, hends⟩
        exact .inr ⟨b :: line, stop, more, rfl, hends', hstop,
          List.splitOnP_append_cons_of_forall_mem hends' stop hstop more⟩

/-- An input, read as if a line feed followed it. -/
theorem AtStart.feedBytes (h : AtStart s r) (bytes : List UInt8) :
    Follows Holds (r.feedLine bytes lineFeed) (s.takeLines? (countedLines bytes)) := by
  induction hn : bytes.length using Nat.strongRecOn generalizing bytes s r with
  | ind n ih =>
    subst hn
    rcases lines_cases bytes with ⟨hends, hlines⟩ | ⟨line, stop, more, hbytes, hends, hstop, hlines⟩
    · rw [countedLines, hlines]
      by_cases hkind : LineKind.ofLine bytes = .trailer
      · rw [List.takeWhile_cons_of_neg (by simpa using hkind)]
        exact h.feedBytes_trailer hends hkind [lineFeed]
      · rw [List.takeWhile_cons_of_pos (by simpa using hkind), List.takeWhile_nil,
          Reading.takeLines?]
        have hline : Follows AtStart (r.feedLine bytes lineFeed) (s.takeLine? bytes) :=
          h.feedLine rfl hends hkind
        generalize r.feedLine bytes lineFeed = x at hline
        generalize s.takeLine? bytes = y at hline
        cases hline with
        | ok h' => exact .ok h'.toHolds
        | error => exact .error
    · rw [countedLines, hlines]
      subst hbytes
      by_cases hkind : LineKind.ofLine line = .trailer
      · rw [List.takeWhile_cons_of_neg (by simpa using hkind), Reader.feedLine, List.append_assoc]
        exact h.feedBytes_trailer hends hkind _
      · rw [List.takeWhile_cons_of_pos (by simpa using hkind), Reading.takeLines?]
        have hsplit : (line ++ stop :: more) ++ [lineFeed] =
            (line ++ [stop]) ++ (more ++ [lineFeed]) := by
          simp
        have hline := h.feedLine hstop hends hkind
        unfold Reader.feedLine at hline
        rw [Reader.feedLine, hsplit, Reader.feedBytes_append]
        generalize r.feedBytes (line ++ [stop]) = x at hline
        generalize s.takeLine? line = y at hline
        cases hline with
        | error => exact .error
        | ok h' => exact ih more.length (by simp; omega) h' more rfl

end

/-! ## The end of the input -/

namespace Reader

variable {r r' : Reader} {b : UInt8}

/-- The reader goes on, and only a clause line has a number begun. -/
structure Settled (r : Reader) : Prop where
  unfailed : r.failed = false
  token_eq : r.line = .clause ∨ r.token = .idle

/-- Completing a number leaves none begun, and the line as it was. -/
theorem of_finishToken_eq_ok (h : r.finishToken b = (r', .ok ())) :
    r'.token = .idle ∧ r'.line = r.line ∧ r'.failed = r.failed := by
  unfold finishToken at h
  cases htoken : r.token with
  | idle =>
    rw [htoken] at h
    cases h
    exact ⟨htoken, rfl, rfl⟩
  | minus =>
    rw [htoken] at h
    cases h
  | number value negative =>
    simp only [htoken] at h
    cases hheader : r.header with
    | none =>
      simp only [hheader] at h
      cases h
    | some header =>
      simp only [hheader] at h
      split at h
      · cases h
        exact ⟨rfl, rfl, rfl⟩
      · split at h
        · cases h
        · cases hv : Var.ofNumber? value with
          | none =>
            rw [hv] at h
            cases h
          | some v =>
            rw [hv] at h
            cases h
            exact ⟨rfl, rfl, rfl⟩

theorem of_finishHeader_eq_ok (h : r.finishHeader = (r', .ok ())) :
    r'.token = r.token ∧ r'.line = .start ∧ r'.failed = r.failed := by
  unfold finishHeader at h
  cases hheader : Header.ofBytes r.lineNumber r.headerBytes.toList with
  | error e =>
    rw [hheader] at h
    cases h
  | ok header =>
    rw [hheader] at h
    cases h
    exact ⟨rfl, rfl, rfl⟩

theorem Settled.finishLine (h : r.Settled) (hrun : r.finishLine b = (r', .ok ())) : r'.Settled := by
  unfold Reader.finishLine at hrun
  rcases htoken : r.finishToken b with ⟨r₁, e | done⟩
  · rw [htoken] at hrun
    cases hrun
  · obtain ⟨hidle, -, hfailed⟩ := of_finishToken_eq_ok htoken
    simp only [htoken] at hrun
    split at hrun
    · rcases hheader : r₁.finishHeader with ⟨r₂, e | done⟩
      · rw [hheader] at hrun
        cases hrun
      · obtain ⟨htoken₂, -, hfailed₂⟩ := of_finishHeader_eq_ok hheader
        rw [hheader] at hrun
        cases hrun
        exact ⟨hfailed₂.trans (hfailed.trans h.unfailed), .inr (htoken₂.trans hidle)⟩
    · cases hrun
      exact ⟨hfailed.trans h.unfailed, .inr hidle⟩

theorem Settled.takeByte (h : r.Settled) (hrun : r.takeByte b = (r', .ok ())) : r'.Settled := by
  have hstart : r.line = .start → r.token = .idle := fun hline =>
    h.token_eq.resolve_left (by rw [hline]; decide)
  unfold Reader.takeByte at hrun
  split at hrun
  · exact h.finishLine hrun
  · split at hrun
    · obtain ⟨hidle, -, hfailed⟩ := of_finishToken_eq_ok hrun
      exact ⟨hfailed.trans h.unfailed, .inr hidle⟩
    · split at hrun
      · rw [addDigit_eq] at hrun
        split at hrun
        · cases hrun
        · cases hrun
          exact ⟨h.unfailed, .inl rfl⟩
      · split at hrun
        · cases hrun
          exact ⟨h.unfailed, .inl rfl⟩
        · split at hrun
          · rename_i hcomment
            cases hrun
            exact ⟨h.unfailed, .inr (hstart hcomment.2)⟩
          · split at hrun
            · rename_i hheader
              cases hrun
              exact ⟨h.unfailed, .inr (hstart hheader.2.1)⟩
            · split at hrun
              · rename_i htrailer
                cases hrun
                exact ⟨h.unfailed, .inr (hstart htrailer.2)⟩
              · cases hrun

theorem Settled.step (h : r.Settled) (hrun : r.step b = (r', .ok ())) : r'.Settled := by
  unfold Reader.step at hrun
  cases hline : r.line with
  | start | clause =>
    rw [hline] at hrun
    exact h.takeByte hrun
  | trailer =>
    rw [hline] at hrun
    cases hrun
    exact h
  | comment =>
    simp only [hline] at hrun
    split at hrun
    · exact h.takeByte hrun
    · cases hrun
      exact h
  | header =>
    have hidle := h.token_eq.resolve_left (by rw [hline]; decide)
    simp only [hline] at hrun
    split at hrun
    · exact h.takeByte hrun
    · cases hrun
      exact ⟨h.unfailed, .inr hidle⟩

theorem Settled.feedBytes (h : r.Settled) {bytes : List UInt8}
    (hrun : r.feedBytes bytes = (r', .ok ())) : r'.Settled := by
  induction bytes generalizing r with
  | nil =>
    cases hrun
    exact h
  | cons b bytes ih =>
    unfold Reader.feedBytes at hrun
    rcases hstep : r.step b with ⟨r₁, e | done⟩
    · rw [hstep] at hrun
      cases hrun
    · rw [hstep] at hrun
      have h₁ := h.step hstep
      refine ih (r := r₁.countLine b) ?_ hrun
      unfold countLine
      split
      · exact ⟨h₁.unfailed, h₁.token_eq⟩
      · exact h₁

/-- A step with a line feed completes the number and the line. -/
theorem step_lineFeed (hline : r.line ≠ .trailer) : r.step lineFeed = r.finishLine lineFeed := by
  unfold step
  cases hkind : r.line with
  | trailer => exact absurd hkind hline
  | start | clause | comment | header => rfl

/-- At the end of the input, no number is left begun. -/
theorem finishClauses_of_idle (h : r.token = .idle) : r.finishClauses = (r, r.checkComplete) := by
  simp only [finishClauses, finishToken, h]
  rfl

/-- The end of the input ends a line, after which no clause may be open. -/
theorem Settled.finish_of_ok (h : r.Settled) (hrun : r.step lineFeed = (r', .ok ())) :
    ∃ line, r.finish = ({ r' with line := line }, r'.checkComplete) := by
  rw [finish, if_neg (by rw [h.unfailed]; decide)]
  by_cases htrailer : r.line = .trailer
  · have hidle := h.token_eq.resolve_left (by rw [htrailer]; decide)
    rw [if_neg (by rw [htrailer]; decide), finishClauses_of_idle hidle]
    simp only [Reader.step, htrailer] at hrun
    cases hrun
    exact ⟨r.line, rfl⟩
  · rw [step_lineFeed htrailer, Reader.finishLine] at hrun
    by_cases hheader : r.line = .header
    · have hidle := h.token_eq.resolve_left (by rw [hheader]; decide)
      simp only [finishToken, hidle, if_pos hheader] at hrun ⊢
      rcases hrun' : r.finishHeader with ⟨r₁, e | done⟩
      · rw [hrun'] at hrun
        cases hrun
      · rw [hrun'] at hrun
        cases hrun
        obtain ⟨htoken, -, -⟩ := of_finishHeader_eq_ok hrun'
        exact ⟨r₁.line, finishClauses_of_idle (htoken.trans hidle)⟩
    · rcases htoken : r.finishToken lineFeed with ⟨r₁, e | done⟩
      · rw [htoken] at hrun
        cases hrun
      · obtain ⟨-, hline, -⟩ := of_finishToken_eq_ok htoken
        simp only [htoken, if_neg fun he => hheader (hline.symm.trans he)] at hrun
        cases hrun
        have hminus : r.token ≠ .minus := by
          intro hminus
          rw [finishToken, hminus] at htoken
          cases htoken
        rw [if_neg hheader, finishClauses, if_neg hminus, htoken]
        exact ⟨r₁.line, rfl⟩

theorem Settled.finish_of_error (h : r.Settled) {e : Error}
    (hrun : r.step lineFeed = (r', .error e)) : ∃ r₁ e₁, r.finish = (r₁, .error e₁) := by
  rw [finish, if_neg (by rw [h.unfailed]; decide)]
  have htrailer : r.line ≠ .trailer := by
    intro htrailer
    simp only [Reader.step, htrailer] at hrun
    cases hrun
  rw [step_lineFeed htrailer, Reader.finishLine] at hrun
  by_cases hheader : r.line = .header
  · have hidle := h.token_eq.resolve_left (by rw [hheader]; decide)
    simp only [finishToken, hidle, if_pos hheader] at hrun ⊢
    rcases hrun' : r.finishHeader with ⟨r₁, e₁ | done⟩
    · exact ⟨r₁, e₁, rfl⟩
    · rw [hrun'] at hrun
      cases hrun
  · rw [if_neg hheader, finishClauses]
    by_cases hminus : r.token = .minus
    · rw [if_pos hminus]
      exact ⟨_, _, rfl⟩
    · rw [if_neg hminus]
      rcases htoken : r.finishToken lineFeed with ⟨r₁, e₁ | done⟩
      · exact ⟨r₁, e₁, rfl⟩
      · obtain ⟨-, hline, -⟩ := of_finishToken_eq_ok htoken
        simp only [htoken, if_neg fun he => hheader (hline.symm.trans he)] at hrun
        cases hrun

end Reader

/-! ## Lines of the grammar -/

/-- The fields of a header. -/
theorem Header.ofText?_eq_some_iff {text : List Char} {header : Header} :
    ofText? text = some header ↔ ∃ vars clauses,
      fields text = [['p'], ['c', 'n', 'f'], vars, clauses] ∧
        Decimal.count? vars = some header.varCount ∧
        Decimal.count? clauses = some header.clauseCount := by
  constructor
  · intro h
    unfold ofText? at h
    split at h
    · rename_i p cnf vars clauses hfields
      split at h
      · rename_i hwords
        obtain ⟨rfl, rfl⟩ := hwords
        split at h
        · rename_i v c hvars hclauses
          cases h
          exact ⟨vars, clauses, hfields, hvars, hclauses⟩
        · cases h
      · cases h
    · cases h
  · rintro ⟨vars, clauses, hfields, hvars, hclauses⟩
    simp only [ofText?, hfields, hvars, hclauses]
    rfl

namespace Reading

/-- A header line is taken in exactly if it declares a header. -/
theorem takeHeader?_eq_some_iff {numbers : List Int} {line : List UInt8} {s : Reading}
    (hkind : LineKind.ofLine line = .header) :
    takeHeader? ⟨none, numbers⟩ (content line) = some s ↔
      ∃ header, Declares line header ∧ s = ⟨some header, numbers⟩ := by
  simp only [takeHeader?]
  constructor
  · intro h
    cases htext : Header.ofText? (Utf8.decodeLossy (content line)) with
    | none =>
      rw [htext] at h
      cases h
    | some header =>
      simp only [htext] at h
      split at h
      · cases h
      · rename_i hmax
        cases h
        exact ⟨header, ⟨hkind, Header.ofText?_eq_some_iff.1 htext, Nat.le_of_not_lt hmax⟩, rfl⟩
  · rintro ⟨header, hdeclares, rfl⟩
    rw [Header.ofText?_eq_some_iff.2 hdeclares.fields]
    exact if_neg (Nat.not_lt_of_le hdeclares.varCount_le)

theorem takeWord?_eq_some_iff {header : Header} {numbers : List Int} {word : List UInt8}
    {s : Reading} :
    takeWord? ⟨some header, numbers⟩ word = some s ↔
      ∃ n, number? word = some n ∧ n.natAbs ≤ header.varCount ∧
        s = ⟨some header, numbers ++ [n]⟩ := by
  simp only [takeWord?]
  cases number? word with
  | none => simp
  | some n => by_cases hn : n.natAbs ≤ header.varCount <;> simp [hn, eq_comm]

/-- Words are taken in exactly if they are numbers within the bounds of the header. -/
theorem takeWords?_eq_some_iff {header : Header} {numbers : List Int} {words : List (List UInt8)}
    {s : Reading} :
    takeWords? ⟨some header, numbers⟩ words = some s ↔
      ∃ more, words.mapM number? = some more ∧ (∀ n ∈ more, n.natAbs ≤ header.varCount) ∧
        s = ⟨some header, numbers ++ more⟩ := by
  induction words generalizing numbers with
  | nil => simp [takeWords?, eq_comm]
  | cons word words ih =>
    rw [takeWords?, Option.bind_eq_some_iff, List.mapM_cons]
    constructor
    · rintro ⟨s₁, hword, hwords⟩
      obtain ⟨n, hn, hle, rfl⟩ := takeWord?_eq_some_iff.1 hword
      obtain ⟨more, hmore, hall, rfl⟩ := ih.1 hwords
      refine ⟨n :: more, ?_, List.forall_mem_cons.2 ⟨hle, hall⟩, by simp⟩
      rw [hn, hmore]
      rfl
    · rintro ⟨more, hmapM, hall, rfl⟩
      obtain ⟨n, hn, hmapM⟩ := Option.bind_eq_some_iff.1 hmapM
      obtain ⟨rest, hrest, hmapM⟩ := Option.bind_eq_some_iff.1 hmapM
      cases hmapM
      obtain ⟨hle, hall⟩ := List.forall_mem_cons.1 hall
      exact ⟨_, takeWord?_eq_some_iff.2 ⟨n, hn, hle, rfl⟩, ih.2 ⟨rest, hrest, hall, by simp⟩⟩

/-- Once there is a header, lines are taken in exactly if there is no other one and their words can
be taken in. -/
theorem takeLines?_of_header (header : Header) (numbers : List Int) (lines : List (List UInt8)) :
    takeLines? ⟨some header, numbers⟩ lines =
      if ∀ line ∈ lines, LineKind.ofLine line ≠ .header then
        takeWords? ⟨some header, numbers⟩ (clauseWords lines)
      else none := by
  induction lines generalizing numbers with
  | nil => simp [takeLines?, clauseWords, takeWords?]
  | cons line lines ih =>
    rw [takeLines?, takeLine?]
    cases hkind : LineKind.ofLine line with
    | header =>
      rw [if_neg fun hall => hall line List.mem_cons_self hkind]
      rfl
    | clause =>
      have hwords : clauseWords (line :: lines) = words line ++ clauseWords lines := by
        simp [clauseWords, hkind]
      simp only [hwords, takeWords?_append, List.forall_mem_cons, hkind]
      cases htake : takeWords? ⟨some header, numbers⟩ (words line) with
      | none => simp
      | some s' =>
        obtain ⟨more, -, -, rfl⟩ := takeWords?_eq_some_iff.1 htake
        simp [ih]
    | start | comment | trailer =>
      have hwords : clauseWords (line :: lines) = clauseWords lines := by simp [clauseWords, hkind]
      simp [hwords, ih, hkind]

/-- A clause line has a word. -/
theorem takeLine?_clause_eq_none {numbers : List Int} {line : List UInt8}
    (hkind : LineKind.ofLine line = .clause) : takeLine? ⟨none, numbers⟩ line = none := by
  have hnone : ∀ w, takeWord? ⟨none, numbers⟩ w = none := fun _ => rfl
  induction line with
  | nil => cases hkind
  | cons b line ih =>
    by_cases hgap : isGap b = true
    · rw [takeLine?_gap hgap]
      rw [LineKind.ofLine, content, List.dropWhile_cons_of_pos hgap] at hkind
      exact ih hkind
    · have hgap : isGap b = false := by simpa using hgap
      rw [takeLine?, hkind]
      exact takeWords?_words_eq_none (w := [b]) (by simp) (by simpa using hgap) fun x => hnone _

/-- Lines are taken in from the start exactly if there is one header among them, in front of which
there is no number, and the lines after it can be taken in. -/
theorem takeLines?_start_iff {lines : List (List UInt8)} {header : Header} {numbers : List Int} :
    takeLines? ⟨none, []⟩ lines = some ⟨some header, numbers⟩ ↔
      ∃ before line after, lines = before ++ line :: after ∧ Declares line header ∧
        (∀ other ∈ before, LineKind.ofLine other ≠ .header ∧ LineKind.ofLine other ≠ .clause) ∧
        takeLines? ⟨some header, []⟩ after = some ⟨some header, numbers⟩ := by
  constructor
  · intro h
    induction lines with
    | nil => cases h
    | cons line lines ih =>
      unfold takeLines? at h
      obtain ⟨s, hline, hlines⟩ := Option.bind_eq_some_iff.1 h
      cases hkind : LineKind.ofLine line with
      | header =>
        rw [takeLine?, hkind] at hline
        obtain ⟨header', hdeclares, rfl⟩ := (takeHeader?_eq_some_iff hkind).1 hline
        -- the header stays as it is
        have hsame := hlines
        rw [takeLines?_of_header] at hsame
        split at hsame
        · obtain ⟨more, -, -, heq⟩ := takeWords?_eq_some_iff.1 hsame
          cases heq
          exact ⟨[], line, lines, rfl, hdeclares, by simp, hlines⟩
        · cases hsame
      | clause =>
        rw [takeLine?_clause_eq_none hkind] at hline
        cases hline
      | start | comment | trailer =>
        rw [takeLine?, hkind] at hline
        cases hline
        obtain ⟨before, found, after, rfl, hdeclares, hbefore, hafter⟩ := ih hlines
        refine ⟨line :: before, found, after, rfl, hdeclares, ?_, hafter⟩
        exact List.forall_mem_cons.2 ⟨by simp [hkind], hbefore⟩
  · rintro ⟨before, line, after, rfl, hdeclares, hbefore, hafter⟩
    induction before with
    | nil =>
      have hline : takeLine? ⟨none, []⟩ line = some ⟨some header, []⟩ := by
        rw [takeLine?, hdeclares.kind]
        exact (takeHeader?_eq_some_iff hdeclares.kind).2 ⟨header, hdeclares, rfl⟩
      rw [List.nil_append, takeLines?, hline]
      exact hafter
    | cons other before ih =>
      obtain ⟨⟨hheader, hclause⟩, hbefore⟩ := List.forall_mem_cons.1 hbefore
      have hline : takeLine? ⟨none, []⟩ other = some ⟨none, []⟩ := by
        unfold takeLine?
        cases hkind : LineKind.ofLine other with
        | header => exact absurd hkind hheader
        | clause => exact absurd hkind hclause
        | start | comment | trailer => rfl
      rw [List.cons_append, takeLines?, hline]
      exact ih hbefore

end Reading

/-- The words of the clause lines are those after the header. -/
theorem clauseWords_of_layout {before after : List (List UInt8)} {line : List UInt8}
    (hline : LineKind.ofLine line = .header)
    (hbefore : ∀ other ∈ before,
      LineKind.ofLine other ≠ .header ∧ LineKind.ofLine other ≠ .clause) :
    clauseWords (before ++ line :: after) = clauseWords after := by
  have hfilter : before.filter (fun line => LineKind.ofLine line = .clause) = [] := by
    rw [List.filter_eq_nil_iff]
    intro other hother
    simpa using (hbefore other hother).2
  rw [clauseWords, List.filter_append, hfilter, List.nil_append,
    List.filter_cons_of_neg (by simp [hline])]
  rfl

/-- An input is in the grammar exactly if its lines can all be taken in, and close as many clauses
as the header declares. -/
theorem describes_iff {bytes : List UInt8} {header : Header} {numbers : List Int} :
    Describes bytes header numbers ↔
      Reading.takeLines? ⟨none, []⟩ (countedLines bytes) = some ⟨some header, numbers⟩ ∧
        numbers.count 0 = header.clauseCount ∧ (numbers = [] ∨ numbers.getLast? = some 0) := by
  have hlines : ∀ after, Reading.takeLines? ⟨some header, []⟩ after = some ⟨some header, numbers⟩ ↔
      (∀ other ∈ after, LineKind.ofLine other ≠ .header) ∧
        (clauseWords after).mapM number? = some numbers ∧
        ∀ n ∈ numbers, n.natAbs ≤ header.varCount := by
    intro after
    rw [Reading.takeLines?_of_header]
    split
    · rename_i hafter
      rw [Reading.takeWords?_eq_some_iff]
      simp only [List.nil_append, Reading.mk.injEq, true_and]
      constructor
      · rintro ⟨more, hmore, hall, rfl⟩
        exact ⟨fun other hother => hafter other hother, hmore, hall⟩
      · rintro ⟨-, hnumbers, hall⟩
        exact ⟨numbers, hnumbers, hall, rfl⟩
    · rename_i hafter
      simp [hafter]
  constructor
  · rintro ⟨⟨before, line, after, heq, hdeclares, hbefore, hafter⟩, hwords, hle, hcount, hclosed⟩
    rw [heq, clauseWords_of_layout hdeclares.kind hbefore] at hwords
    refine ⟨Reading.takeLines?_start_iff.2 ⟨before, line, after, heq, hdeclares, hbefore, ?_⟩,
      hcount, hclosed⟩
    exact (hlines after).2 ⟨hafter, hwords, hle⟩
  · rintro ⟨htake, hcount, hclosed⟩
    obtain ⟨before, line, after, heq, hdeclares, hbefore, hrest⟩ :=
      Reading.takeLines?_start_iff.1 htake
    obtain ⟨hafter, hwords, hle⟩ := (hlines after).1 hrest
    refine ⟨⟨before, line, after, heq, hdeclares, hbefore, hafter⟩, ?_, hle, hcount, hclosed⟩
    rw [heq, clauseWords_of_layout hdeclares.kind hbefore]
    exact hwords

/-! ## Sources -/

theorem Source.flatten_pieces (bytes : List UInt8) : (pieces bytes).flatten = bytes := by
  fun_induction pieces bytes with
  | case1 => rfl
  | case2 b bs ih => rw [List.flatten_cons, ih, List.take_append_drop]

/-- How a source cuts its bytes into reads has no part in what is read. -/
theorem feedAll_data {r : Reader} (h : r.Settled) (pieces : List (List UInt8)) :
    feedAll (pieces.map .data) r =
      match r.feedBytes pieces.flatten with
      | (_, .error e) => .error (.refused e)
      | (r', .ok ()) => finishRead r' := by
  induction pieces generalizing r with
  | nil => rfl
  | cons piece pieces ih =>
    rw [List.map_cons, feedAll, Reader.feed, if_neg (by rw [h.unfailed]; decide), List.flatten_cons,
      Reader.feedBytes_append]
    rcases hfeed : r.feedBytes piece with ⟨r', e | done⟩
    · rfl
    · exact ih (h.feedBytes hfeed)

theorem settled_start : Reader.start.Settled := ⟨rfl, .inr rfl⟩

/-- Reading a source without failures. -/
theorem read_data (parts : List (List UInt8)) :
    read (parts.map .data) =
      match Reader.start.feedBytes parts.flatten with
      | (_, .error e) => .error (.refused e)
      | (r, .ok ()) => (finishRead r).map Reader.formula := by
  have hflatten : (parts.flatMap Source.pieces).flatten = parts.flatten := by
    induction parts with
    | nil => rfl
    | cons bytes parts ih =>
      rw [List.flatMap_cons, List.flatten_append, Source.flatten_pieces, ih, List.flatten_cons]
  have hreads : Source.reads (parts.map .data) = (parts.flatMap Source.pieces).map .data := by
    simp [Source.reads, List.flatMap_map, List.map_flatMap]
  rw [read, hreads, feedAll_data settled_start, hflatten]
  rcases Reader.start.feedBytes parts.flatten with ⟨r, e | done⟩
  · rfl
  · rfl

/-- However the bytes are cut, they are read as if they came in one part. -/
theorem read_flatten (parts : List (List UInt8)) :
    read [.data parts.flatten] = read (parts.map .data) := by
  have hone := read_data [parts.flatten]
  rw [List.flatten_singleton] at hone
  rw [read_data]
  exact hone

theorem atStart_start : AtStart ⟨none, []⟩ .start where
  unfailed := rfl
  header_eq := rfl
  header_le := fun header hheader => by cases hheader
  reachable := .empty
  varCount_eq := rfl
  number_le := by simp [Reader.start]
  groups_eq := rfl
  clauseCount_eq := rfl
  line_eq := rfl
  token_eq := rfl
  headerBytes_eq := fun _ => rfl

/-- An input with a line that cannot be taken in is refused. -/
theorem read_ne_ok {parts : List (List UInt8)}
    (h : Reading.takeLines? ⟨none, []⟩ (countedLines parts.flatten) = none) (F : Formula) :
    read (parts.map .data) ≠ .ok F := by
  have hfollows := atStart_start.feedBytes parts.flatten
  rw [Reader.feedLine, Reader.feedBytes_append, h] at hfollows
  rw [read_data]
  rcases hfeed : Reader.start.feedBytes parts.flatten with ⟨r, e | done⟩
  · simp
  · simp only [hfeed, Reader.feedBytes] at hfollows
    rcases hstep : r.step lineFeed with ⟨r', e | done⟩
    · obtain ⟨r₁, e₁, hfinish⟩ := (settled_start.feedBytes hfeed).finish_of_error hstep
      simp [finishRead, hfinish, Except.map]
    · simp only [hstep] at hfollows
      cases hfollows

/-- If all lines are taken in, what they say is checked, and the clauses are returned. -/
theorem exists_read_eq_ok_iff {parts : List (List UInt8)} {s : Reading}
    (h : Reading.takeLines? ⟨none, []⟩ (countedLines parts.flatten) = some s) :
    ∃ r, Holds s r ∧ ∀ F, read (parts.map .data) = .ok F ↔
      r.checkComplete = .ok () ∧ r.checkHeader = .ok () ∧ r.formula = F := by
  have hfollows := atStart_start.feedBytes parts.flatten
  rw [Reader.feedLine, Reader.feedBytes_append, h] at hfollows
  rw [read_data]
  rcases hfeed : Reader.start.feedBytes parts.flatten with ⟨r, e | done⟩
  · rw [hfeed] at hfollows
    cases hfollows
  · simp only [hfeed, Reader.feedBytes] at hfollows
    rcases hstep : r.step lineFeed with ⟨r', e | done⟩
    · simp only [hstep] at hfollows
      cases hfollows
    · simp only [hstep] at hfollows
      obtain ⟨line, hfinish⟩ := (settled_start.feedBytes hfeed).finish_of_ok hstep
      cases hfollows with
      | ok hholds =>
        refine ⟨r', hholds.change rfl rfl rfl rfl rfl, fun F => ?_⟩
        simp only [finishRead, hfinish]
        have hcheck : Reader.checkHeader { r' with line := line } = r'.checkHeader := rfl
        cases r'.checkComplete with
        | error e => simp [Except.map]
        | ok done =>
          simp only [hcheck]
          cases r'.checkHeader with
          | error e => simp [Except.map]
          | ok done => simp [Except.map]

/-- The last group is empty exactly if no clause is open. -/
theorem getLast_splitOnP_eq_nil_iff {numbers last : List Int} {groups : List (List Int)}
    (h : groups ++ [last] = numbers.splitOnP (· == 0)) :
    last = [] ↔ numbers = [] ∨ numbers.getLast? = some 0 := by
  have hlast : last = (numbers.splitOnP (· == 0)).getLastD [] := by simp [← h]
  rcases List.eq_nil_or_concat numbers with rfl | ⟨before, n, rfl⟩
  · rw [hlast]
    simp
  · rw [List.concat_eq_append] at hlast ⊢
    rw [hlast, splitOnP_append_singleton]
    by_cases hn : n = 0 <;> simp [hn]

theorem Holds.groups_append {s : Reading} {r : Reader} (h : Holds s r) :
    r.formula.clauses.map (·.map Lit.toInt) ++ [r.partialClause.toList.map Lit.toInt] =
      s.numbers.splitOnP (· == 0) := by
  rw [← h.groups_eq, List.map_append]
  rfl

/-- What the reader checks at the end. -/
theorem Holds.checks_iff {s : Reading} {r : Reader} (h : Holds s r) :
    r.checkComplete = .ok () ∧ r.checkHeader = .ok () ↔
      ∃ header, s.header = some header ∧ s.numbers.count 0 = header.clauseCount ∧
        (s.numbers = [] ∨ s.numbers.getLast? = some 0) := by
  have hpartial : r.partialClause.isEmpty = true ↔
      s.numbers = [] ∨ s.numbers.getLast? = some 0 := by
    rw [← getLast_splitOnP_eq_nil_iff h.groups_append]
    simp
  rw [Reader.checkComplete, Reader.checkHeader, h.header_eq, h.clauseCount_eq, ← hpartial]
  cases s.header with
  | none => simp
  | some header =>
    by_cases hempty : r.partialClause.isEmpty = true
    · by_cases hcount : header.clauseCount = s.numbers.count 0
      · simp [hempty, hcount]
      · simp [hempty, hcount, Ne.symm hcount]
    · simp [hempty]

/-- What is read from an input is what its header and its numbers say. -/
theorem read_eq_ok_iff {parts : List (List UInt8)} {F : Formula} :
    read (parts.map .data) = .ok F ↔
      F.Reachable ∧ ∃ header numbers, Describes parts.flatten header numbers ∧
        F.varCount = header.varCount ∧ F.clauses.map (·.map Lit.toInt) = groups numbers := by
  cases htake : Reading.takeLines? ⟨none, []⟩ (countedLines parts.flatten) with
  | none =>
    refine ⟨fun h => absurd h (read_ne_ok htake F), ?_⟩
    rintro ⟨-, header, numbers, hdescribes, -⟩
    have hsome := (describes_iff.1 hdescribes).1
    rw [htake] at hsome
    cases hsome
  | some s =>
    obtain ⟨r, hholds, hread⟩ := exists_read_eq_ok_iff htake
    have hgroups : r.formula.clauses.map (·.map Lit.toInt) = groups s.numbers := by
      rw [groups, ← hholds.groups_append, List.dropLast_concat]
    rw [hread]
    constructor
    · rintro ⟨hcomplete, hheader, rfl⟩
      obtain ⟨header, hsome, hcount, hclosed⟩ := hholds.checks_iff.1 ⟨hcomplete, hheader⟩
      obtain ⟨found, numbers⟩ := s
      obtain rfl := hsome
      exact ⟨hholds.reachable, header, numbers, describes_iff.2 ⟨htake, hcount, hclosed⟩,
        hholds.varCount_eq, hgroups⟩
    · rintro ⟨hreachable, header, numbers, hdescribes, hcount, hclauses⟩
      obtain ⟨hsome, hzeros, hclosed⟩ := describes_iff.1 hdescribes
      rw [htake] at hsome
      cases hsome
      obtain ⟨hcomplete, hheader⟩ := hholds.checks_iff.2 ⟨header, rfl, hzeros, hclosed⟩
      refine ⟨hcomplete, hheader, hholds.reachable.ext hreachable ?_ ?_⟩
      · rw [hcount]
        exact hholds.varCount_eq
      · have hsame := hgroups.trans hclauses.symm
        refine (List.map_inj_right fun lits lits' hlits => ?_).1 hsame
        exact (List.map_inj_right fun l m => Lit.toInt_injective).1 hlits

/-- Something is read from every input of the grammar. -/
theorem exists_read_eq_ok {parts : List (List UInt8)} {header : Header} {numbers : List Int}
    (h : Describes parts.flatten header numbers) : ∃ F, read (parts.map .data) = .ok F := by
  obtain ⟨htake, hcount, hclosed⟩ := describes_iff.1 h
  obtain ⟨r, hholds, hread⟩ := exists_read_eq_ok_iff htake
  obtain ⟨hcomplete, hheader⟩ := hholds.checks_iff.2 ⟨header, rfl, hcount, hclosed⟩
  exact ⟨r.formula, (hread _).2 ⟨hcomplete, hheader, rfl⟩⟩

/-- Reading accepts exactly the inputs of the grammar, in whatever parts they come, and returns the
formula with the declared number of variables and the groups of numbers as its clauses. -/
theorem read_accepts_grammar (parts : List (List UInt8)) :
    ((∃ F, read (parts.map .data) = .ok F) ↔
      ∃ header numbers, Describes parts.flatten header numbers) ∧
    ∀ F, read (parts.map .data) = .ok F ↔
      F.Reachable ∧ ∃ header numbers, Describes parts.flatten header numbers ∧
        F.varCount = header.varCount ∧ F.clauses.map (·.map Lit.toInt) = groups numbers := by
  refine ⟨⟨?_, ?_⟩, fun F => read_eq_ok_iff⟩
  · rintro ⟨F, hread⟩
    obtain ⟨-, header, numbers, hdescribes, -⟩ := read_eq_ok_iff.1 hread
    exact ⟨header, numbers, hdescribes⟩
  · rintro ⟨header, numbers, hdescribes⟩
    exact exists_read_eq_ok hdescribes

end BucketElimination.Dimacs
