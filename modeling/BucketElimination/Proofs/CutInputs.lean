import BucketElimination.Proofs.Acceptance
import BucketElimination.Proofs.HandedFormulas
import Mathlib.Algebra.Order.Ring.Int
set_option autoImplicit false

/-!
# Cut inputs: where an input is cut has no part in what is read

A reader may be given its input in pieces that end anywhere, in the middle of the header or of a
number too, and the clauses read so far may be taken out of it between any two pieces.  It always
comes to the result that it comes to when it is given the whole input at once, be it a formula or an
error.  What was taken out, one formula after the other, has the clauses of the whole formula; the
formulas have no variables up to the end of the header line, and those of the header from then on.
-/

namespace BucketElimination.Dimacs

/-! ## Requests -/

/-- What is asked of a reader before the input ends. -/
inductive Request where
  /-- Take in a piece of the input. -/
  | feed (bytes : List UInt8)
  /-- Take out the clauses read since the last time. -/
  | take
  deriving DecidableEq, Repr

/-- The input that is given in pieces. -/
def fedBytes : List Request → List UInt8
  | [] => []
  | .feed bytes :: requests => bytes ++ fedBytes requests
  | .take :: requests => fedBytes requests

/-- For each time that clauses are taken out, the input up to then, if `fed` came before. -/
def fedAtTakes (fed : List UInt8) : List Request → List (List UInt8)
  | [] => []
  | .feed bytes :: requests => fedAtTakes (fed ++ bytes) requests
  | .take :: requests => fed :: fedAtTakes fed requests

/-- Answer requests up to the first error; the result has the formulas that were taken out. -/
def Reader.answer : Reader → List Request → Except ReadError (List Formula × Reader)
  | r, [] => .ok ([], r)
  | r, .feed bytes :: requests =>
    match r.feed bytes with
    | (_, .error e) => .error (.refused e)
    | (r, .ok ()) => r.answer requests
  | r, .take :: requests =>
    match r.takeFormula.2.answer requests with
    | .error e => .error e
    | .ok (taken, r') => .ok (r.takeFormula.1 :: taken, r')

/-- Read an input by requests: answer them, end the input, compare with the header, and take out what
is left. -/
def readRequests (requests : List Request) : Except ReadError (List Formula × Reader) :=
  match Reader.start.answer requests with
  | .error e => .error e
  | .ok (taken, r) =>
    match finishRead r with
    | .error e => .error e
    | .ok r => .ok (taken ++ [r.takeFormula.1], r.takeFormula.2)

/-- Whether the input goes beyond the end of a header line in front of all trailers. -/
def headerClosed (bytes : List UInt8) : Bool :=
  ((lines bytes).dropLast.takeWhile fun line => LineKind.ofLine line ≠ .trailer).any
    fun line => LineKind.ofLine line = .header

/-! ## The end of the header line -/

namespace Reader

variable {r : Reader} {b : UInt8}

theorem header_finishToken (r : Reader) (b : UInt8) : (r.finishToken b).1.header = r.header := by
  unfold finishToken
  split
  · rfl
  · rfl
  · split
    · rfl
    · split
      · rfl
      · split
        · rfl
        · split
          · rfl
          · rfl

/-- Only the end of a line completes a header. -/
theorem header_takeByte (hb : endsLine b = false) : (r.takeByte b).1.header = r.header := by
  simp only [takeByte, hb, Bool.false_eq_true, if_false]
  split
  · exact header_finishToken r b
  · split
    · rw [addDigit_eq]
      split
      · rfl
      · rfl
    · split
      · rfl
      · split
        · rfl
        · split
          · rfl
          · split
            · rfl
            · rfl

theorem header_step (hb : endsLine b = false) : (r.step b).1.header = r.header := by
  unfold step
  cases r.line with
  | start | clause => exact header_takeByte hb
  | trailer => rfl
  | comment | header =>
    simp only [hb, Bool.false_eq_true, if_false]

theorem header_feedBytes {bytes : List UInt8} (hends : ∀ b ∈ bytes, endsLine b = false) :
    (r.feedBytes bytes).1.header = r.header := by
  induction bytes generalizing r with
  | nil => rfl
  | cons b bytes ih =>
    have hb := hends b List.mem_cons_self
    have hstep : (r.step b).1.header = r.header := header_step hb
    rw [feedBytes]
    rcases hrun : r.step b with ⟨r₁, e | done⟩
    · rw [hrun] at hstep
      exact hstep
    · rw [hrun] at hstep
      simp only [countLine_of_not_endsLine hb]
      exact (ih fun x hx => hends x (List.mem_cons_of_mem b hx)).trans hstep

end Reader

namespace Reading

variable {s s' : Reading}

theorem header_takeWords? {words : List (List UInt8)} (h : s.takeWords? words = some s') :
    s'.header = s.header := by
  induction words generalizing s with
  | nil =>
    cases h
    rfl
  | cons word words ih =>
    obtain ⟨s₁, hword, hwords⟩ := Option.bind_eq_some_iff.1 h
    rw [ih hwords]
    unfold takeWord? at hword
    split at hword
    · split at hword
      · cases hword
        rfl
      · cases hword
    · cases hword

/-- There is a header after a line exactly if there was one before it or the line is one. -/
theorem isSome_header_takeLine? {line : List UInt8} (h : s.takeLine? line = some s') :
    s'.header.isSome = (s.header.isSome || decide (LineKind.ofLine line = .header)) := by
  unfold takeLine? at h
  cases hkind : LineKind.ofLine line with
  | header =>
    simp only [hkind, takeHeader?] at h
    split at h
    · split at h
      · cases h
      · cases h
        simp
    · cases h
  | clause =>
    simp only [hkind] at h
    simp [header_takeWords? h]
  | start | comment | trailer =>
    simp only [hkind] at h
    cases h
    simp

end Reading

/-- The first line of an input decides, unless it is neither a header nor a trailer. -/
theorem headerClosed_of_lines {bytes line more : List UInt8}
    (h : lines bytes = line :: lines more) :
    headerClosed bytes =
      if LineKind.ofLine line = .trailer then false
      else decide (LineKind.ofLine line = .header) || headerClosed more := by
  have hne : lines more ≠ [] := List.splitOnP_ne_nil _ _
  rw [headerClosed, h, List.dropLast_cons_of_ne_nil hne, List.takeWhile_cons]
  split
  · rename_i hkind
    rw [if_neg (by simpa using hkind), List.any_cons]
    rfl
  · rename_i hkind
    rw [if_pos (by simpa using hkind)]
    rfl

/-- The reader has a header exactly if the end of a header line was among the bytes. -/
theorem AtStart.isSome_header {s : Reading} {r r' : Reader} (h : AtStart s r) {bytes : List UInt8}
    (hrun : r.feedBytes bytes = (r', .ok ())) :
    r'.header.isSome = (s.header.isSome || headerClosed bytes) := by
  induction hn : bytes.length using Nat.strongRecOn generalizing bytes s r with
  | ind n ih =>
    subst hn
    rcases lines_cases bytes with ⟨hends, hlines⟩ | ⟨line, stop, more, hbytes, hends, hstop, hlines⟩
    · -- no line ends
      have hheader := Reader.header_feedBytes (r := r) hends
      have hopen : headerClosed bytes = false := by
        rw [headerClosed, hlines]
        rfl
      rw [hrun, h.header_eq] at hheader
      rw [hheader, hopen, Bool.or_false]
    · rw [headerClosed_of_lines hlines]
      subst hbytes
      split
      · -- the trailer comes first
        rename_i hkind
        have hfollows := h.feedBytes_trailer hends hkind (stop :: more)
        rw [hrun] at hfollows
        cases hfollows with
        | ok hholds => rw [hholds.header_eq, Bool.or_false]
      · rename_i hkind
        have hline := h.feedLine hstop hends hkind
        have hsplit : line ++ stop :: more = (line ++ [stop]) ++ more := by simp
        rw [hsplit, Reader.feedBytes_append] at hrun
        unfold Reader.feedLine at hline
        generalize r.feedBytes (line ++ [stop]) = x at hline hrun
        generalize htake : s.takeLine? line = y at hline
        cases hline with
        | error => cases hrun
        | ok hstart =>
          rw [ih more.length (by simp; omega) hstart hrun rfl,
            Reading.isSome_header_takeLine? htake, Bool.or_assoc]

/-- The number of variables after some bytes of an input is 0 until the header line ends, and then
that of the header. -/
theorem varCount_eq_of_headerClosed {fed : List UInt8} {r r' : Reader} {header : Header}
    (hfed : Reader.start.feedBytes fed = (r, .ok ())) (honward : Reader.Onward r r')
    (hheader : r'.header = some header) :
    r.formula.varCount = if headerClosed fed then header.varCount else 0 := by
  have hcounted := (Reader.counted_start.feedBytes hfed).counted
  have hclosed : r.header.isSome = headerClosed fed := by
    rw [atStart_start.isSome_header hfed]
    exact Bool.false_or _
  rw [← hclosed]
  cases hfound : r.header with
  | none =>
    rw [(hcounted.of_none hfound).1]
    rfl
  | some found =>
    have hkept := honward.header_eq found hfound
    rw [hheader, Option.some.injEq] at hkept
    rw [(hcounted.of_some found hfound).1, hkept]
    rfl

/-! ## Answering requests -/

/-- The requests were answered as the whole input was taken in, after the clauses `taken`: both met
the same error, or what was taken out is what the reader lacks, and has `counts` variables. -/
inductive Matches (taken : List (List Lit)) (counts : List Nat) :
    Reader × Except Error Unit → Except ReadError (List Formula × Reader) → Prop
  | ok {full r : Reader} {formulas : List Formula} :
      Ahead (taken ++ formulas.flatMap Formula.clauses) full r →
      formulas.map Formula.varCount = counts → Matches taken counts (full, .ok ()) (.ok (formulas, r))
  | error {full : Reader} {e : Error} :
      Matches taken counts (full, .error e) (.error (.refused e))

/-- The number of variables after some bytes. -/
def varCountAfter (fed : List UInt8) : Nat := (Reader.start.feedBytes fed).1.formula.varCount

section

variable {taken : List (List Lit)} {full r : Reader}

theorem Ahead.answer {fed : List UInt8} (h : Ahead taken full r)
    (hfed : Reader.start.feedBytes fed = (full, .ok ())) (requests : List Request) :
    Matches taken ((fedAtTakes fed requests).map varCountAfter)
      (full.feedBytes (fedBytes requests)) (r.answer requests) := by
  induction requests generalizing taken full r fed with
  | nil =>
    refine .ok ?_ rfl
    rw [List.flatMap_nil, List.append_nil]
    exact h
  | cons request requests ih =>
    cases request with
    | feed bytes =>
      obtain ⟨full₁, r₁, result, hfull, hr, hahead⟩ := h.feed bytes
      rw [Reader.feed, if_neg (by rw [(settled_start.feedBytes hfed).unfailed]; decide)] at hfull
      rw [fedBytes, fedAtTakes, Reader.feedBytes_append, hfull, Reader.answer, hr]
      cases result with
      | error e => exact .error
      | ok done =>
        apply ih hahead
        rw [Reader.feedBytes_append, hfed]
        exact hfull
    | take =>
      have hrest := ih h.takeFormula hfed
      rw [fedBytes, fedAtTakes, Reader.answer]
      generalize full.feedBytes (fedBytes requests) = x at hrest
      generalize r.takeFormula.2.answer requests = y at hrest
      cases hrest with
      | error => exact .error
      | ok hahead hcounts =>
        refine .ok ?_ ?_
        · rw [List.flatMap_cons, ← List.append_assoc]
          exact hahead
        · have hcount : varCountAfter fed = r.takeFormula.1.varCount := by
            rw [varCountAfter, hfed]
            exact h.counts.1.symm
          rw [List.map_cons, List.map_cons, hcounts, hcount]

/-- The end of the input, with and without the clauses that were taken out. -/
theorem Ahead.finishRead (h : Ahead taken full r) :
    (∃ e, Dimacs.finishRead full = .error e ∧ Dimacs.finishRead r = .error e) ∨
      ∃ full' r', Dimacs.finishRead full = .ok full' ∧ Dimacs.finishRead r = .ok r' ∧
        Ahead taken full' r' := by
  obtain ⟨full₁, r₁, result, hfull, hr, hahead⟩ := h.finish
  have hcheck : r₁.checkHeader = full₁.checkHeader := hahead.counts.2.2.2
  simp only [Dimacs.finishRead, hfull, hr]
  cases result with
  | error e => exact .inl ⟨.refused e, rfl, rfl⟩
  | ok done =>
    simp only [hcheck]
    cases full₁.checkHeader with
    | error e => exact .inl ⟨.refused e, rfl, rfl⟩
    | ok done => exact .inr ⟨full₁, r₁, rfl, rfl, hahead⟩

end

/-- What is delivered before clauses are taken out is a first part of the whole. -/
theorem exists_append_of_mem_fedAtTakes {fed fed' : List UInt8} {requests : List Request}
    (h : fed' ∈ fedAtTakes fed requests) : ∃ rest, fed ++ fedBytes requests = fed' ++ rest := by
  induction requests generalizing fed with
  | nil => cases h
  | cons request requests ih =>
    cases request with
    | feed bytes =>
      obtain ⟨rest, hrest⟩ := ih h
      exact ⟨rest, by rw [fedBytes, ← hrest, List.append_assoc]⟩
    | take =>
      rcases List.mem_cons.1 h with hsame | hlater
      · exact ⟨fedBytes requests, by rw [hsame, fedBytes]⟩
      · exact ih hlater

theorem varCountAfter_eq {fed rest : List UInt8} {r r' : Reader} {header : Header}
    (hrun : Reader.start.feedBytes (fed ++ rest) = (r, .ok ())) (honward : Reader.Onward r r')
    (hheader : r'.header = some header) :
    varCountAfter fed = if headerClosed fed then header.varCount else 0 := by
  rw [Reader.feedBytes_append] at hrun
  rcases hfed : Reader.start.feedBytes fed with ⟨r₁, e | done⟩
  · rw [hfed] at hrun
    cases hrun
  · rw [hfed] at hrun
    have hcounted := (Reader.counted_start.feedBytes hfed).counted
    have honward₁ := (hcounted.feedBytes hrun).trans honward
    rw [varCountAfter, hfed]
    exact varCount_eq_of_headerClosed hfed honward₁ hheader

/-- Only a reader with a header passes the comparison with the header. -/
theorem exists_header_of_checkHeader {r : Reader} (h : r.checkHeader = .ok ()) :
    ∃ header, r.header = some header := by
  cases hheader : r.header with
  | none =>
    rw [Reader.checkHeader, hheader] at h
    cases h
  | some header => exact ⟨header, rfl⟩

theorem read_bytes (bytes : List UInt8) :
    read [.data bytes] =
      match Reader.start.feedBytes bytes with
      | (_, .error e) => .error (.refused e)
      | (r, .ok ()) => (finishRead r).map Reader.formula := by
  have hread := read_data [bytes]
  rw [List.flatten_singleton] at hread
  exact hread

/-- Requests lead to the error that the whole input leads to, or to its formula in parts. -/
theorem readRequests_cases (requests : List Request) :
    (∃ e, read [.data (fedBytes requests)] = .error e ∧ readRequests requests = .error e) ∨
      ∃ F taken r, read [.data (fedBytes requests)] = .ok F ∧
        readRequests requests = .ok (taken, r) ∧ ∃ header, r.header = some header ∧
          taken.flatMap Formula.clauses = F.clauses ∧
          taken.map Formula.varCount = (fedAtTakes [] requests).map
            (fun fed => if headerClosed fed then header.varCount else 0) ++ [header.varCount] ∧
          r.clauseCount = (taken.map Formula.size).sum := by
  have hstart : Ahead [] .start .start :=
    ⟨.empty, rfl, Formula.wellFormed_empty, rfl, rfl, .empty⟩
  have hmatches := hstart.answer (Reader.feedBytes_nil .start) requests
  rw [read_bytes, readRequests]
  generalize hrun : Reader.start.feedBytes (fedBytes requests) = x at hmatches
  generalize Reader.start.answer requests = y at hmatches
  cases hmatches with
  | error => exact .inl ⟨_, rfl, rfl⟩
  | @ok full r formulas hahead hcounts =>
    rcases hahead.finishRead with ⟨e, hfull, hr⟩ | ⟨full', r', hfull, hr, hahead'⟩
    · simp only [hfull, hr]
      exact .inl ⟨e, rfl, rfl⟩
    · simp only [hfull, hr]
      refine .inr ⟨full'.formula, formulas ++ [r'.formula], r'.takeFormula.2, rfl, rfl, ?_⟩
      obtain ⟨hfinish, hcheck⟩ := of_finishRead_eq_ok hfull
      have honward := (Reader.counted_start.feedBytes hrun).counted.finish hfinish
      obtain ⟨header, hheader⟩ := exists_header_of_checkHeader hcheck
      obtain ⟨hcount, hclauses, hnumber, -⟩ := hahead'.counts
      have hvars := (honward.counted.of_some header hheader).1
      have hall : (formulas ++ [r'.formula]).flatMap Formula.clauses = full'.formula.clauses := by
        rw [hclauses, List.flatMap_append, List.flatMap_singleton]
        rfl
      refine ⟨header, ?_, hall, ?_, ?_⟩
      · rw [← hheader]
        exact hahead'.fields.2.1.symm
      · rw [List.map_append, List.map_singleton, hcounts, hcount, hvars, List.append_left_inj]
        apply List.map_congr_left
        intro fed hfed
        obtain ⟨rest, hrest⟩ := exists_append_of_mem_fedAtTakes hfed
        rw [List.nil_append] at hrest
        rw [hrest] at hrun
        exact varCountAfter_eq hrun honward hheader
      · have hlength := congrArg List.length hall
        rw [List.length_flatMap, Formula.length_clauses, ← honward.counted.clauseCount_eq,
          ← hnumber] at hlength
        simp only [Formula.length_clauses] at hlength
        exact hlength.symm

/-- The outcome is that of reading the whole input. -/
theorem map_readRequests (requests : List Request) :
    (readRequests requests).map (fun _ => ()) =
      (read [.data (fedBytes requests)]).map (fun _ => ()) := by
  rcases readRequests_cases requests with ⟨e, hread, hcut⟩ | ⟨F, taken, r, hread, hcut, -⟩
  · rw [hread, hcut]
    rfl
  · rw [hread, hcut]
    rfl

/-- However an input is cut, and whenever clauses are taken out, reading succeeds or fails as it does
on the input as a whole, with the same error.  If it succeeds, the formulas that were taken out have
the clauses of the formula, in order; each of them has no variables if it was taken out before the
header line ended, and those of the header otherwise; and the reader has counted their clauses. -/
theorem readRequests_cut (requests : List Request) :
    (readRequests requests).map (fun _ => ()) =
        (readRequests [.feed (fedBytes requests)]).map (fun _ => ()) ∧
      ∀ taken r, readRequests requests = .ok (taken, r) →
        ∃ F header, read [.data (fedBytes requests)] = .ok F ∧ r.header = some header ∧
          taken.flatMap Formula.clauses = F.clauses ∧
          taken.map Formula.varCount = (fedAtTakes [] requests).map
            (fun fed => if headerClosed fed then header.varCount else 0) ++ [header.varCount] ∧
          r.clauseCount = (taken.map Formula.size).sum := by
  refine ⟨?_, ?_⟩
  · rw [map_readRequests, map_readRequests, fedBytes, fedBytes, List.append_nil]
  · intro taken r hok
    rcases readRequests_cases requests with
      ⟨e, -, hcut⟩ | ⟨F, taken', r', hread, hcut, header, hheader, hparts⟩
    · rw [hok] at hcut
      cases hcut
    · rw [hok] at hcut
      cases hcut
      exact ⟨F, header, hread, hheader, hparts⟩

/-- A header and a clause, cut within the header, after a minus sign, and before the zero; the clauses
are taken out before the header line, within it and after it. -/
def cutRequests : List Request :=
  [.take, .feed [112, 32, 99, 110, 102, 32, 50], .take, .feed [32, 49, 10, 49, 32, 45], .take,
    .feed [50, 32, 48]]

/-- The theorem on these requests: the first two formulas have no variables, the others have those of
the header, and the last one has the clause. -/
theorem readRequests_cut_header :
    ∃ taken r header, readRequests cutRequests = .ok (taken, r) ∧ r.header = some header ∧
      taken.map Formula.varCount = [0, 0, header.varCount, header.varCount] ∧
      r.clauseCount = (taken.map Formula.size).sum := by
  have hok : (readRequests cutRequests).toOption.isSome = true := by decide +kernel
  have hclosed : (fedAtTakes [] cutRequests).map headerClosed = [false, false, true] := by
    decide +kernel
  cases hread : readRequests cutRequests with
  | error e =>
    rw [hread] at hok
    cases hok
  | ok result =>
    obtain ⟨taken, r⟩ := result
    obtain ⟨F, header, -, hheader, -, hcounts, hsum⟩ :=
      (readRequests_cut cutRequests).2 taken r hread
    refine ⟨taken, r, header, rfl, hheader, ?_, hsum⟩
    have hmap := congrArg (List.map fun closed => if closed then header.varCount else 0) hclosed
    rw [List.map_map] at hmap
    rw [hcounts]
    exact congrArg (· ++ [header.varCount]) hmap

end BucketElimination.Dimacs
