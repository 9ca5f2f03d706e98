import BucketElimination.Dimacs.Writer
import BucketElimination.Proofs.ReaderRange
import Mathlib.Algebra.Order.Ring.Int
set_option autoImplicit false

/-!
# Reader calls: a reader that is called in any order

A reader may be called in any order: after the end of the input, after an error, and with clauses
taken out in between.  No call ever meets an internal fault: the number being read stays in the
range of variables, so one more digit cannot overflow, and what is stored is in the range of the
header.  Once a piece of the input was refused the reader is stopped for good.  An error at the end
of the input does not stop it.
-/

namespace BucketElimination.Dimacs

/-! ## Calls -/

/-- What can be asked of a reader at any time. -/
inductive Call where
  /-- Take in a piece of the input. -/
  | feed (bytes : List UInt8)
  /-- The input has ended. -/
  | finish
  | checkHeader
  | takeFormula
  deriving DecidableEq, Repr

/-- What a reader answers. -/
inductive Reply where
  | done
  | refused (cause : Error)
  | taken (formula : Formula)
  deriving DecidableEq, Repr

/-- The reply to a call that has no other result. -/
def Reply.ofResult : Except Error Unit → Reply
  | .ok () => .done
  | .error e => .refused e

theorem Reply.ofResult_eq_refused_iff {result : Except Error Unit} {e : Error} :
    ofResult result = .refused e ↔ result = .error e := by
  cases result <;> simp [ofResult]

namespace Call

/-- The call is about the input. -/
def reads : Call → Bool
  | .feed _ | .finish => true
  | .checkHeader | .takeFormula => false

/-- The number of bytes that come with a call. -/
def size : Call → Nat
  | .feed bytes => bytes.length
  | .finish | .checkHeader | .takeFormula => 0

end Call

/-- The number of bytes that come with calls. -/
def fedCount : List Call → Nat
  | [] => 0
  | call :: calls => call.size + fedCount calls

namespace Reader

/-- Answer a call. -/
def call (r : Reader) : Call → Reader × Reply
  | .feed bytes => ((r.feed bytes).1, .ofResult (r.feed bytes).2)
  | .finish => (r.finish.1, .ofResult r.finish.2)
  | .checkHeader => (r, .ofResult r.checkHeader)
  | .takeFormula => (r.takeFormula.2, .taken r.takeFormula.1)

/-- Answer calls one after the other, whatever the replies are.  Each call is noted with its
reply. -/
def run : Reader → List Call → Reader × List (Call × Reply)
  | r, [] => (r, [])
  | r, call :: calls =>
    let rest := (r.call call).1.run calls
    (rest.1, (call, (r.call call).2) :: rest.2)

/-! ## Counting -/

/-- A reader that was given `fed` bytes has counted no more lines and clauses than these can end. -/
structure Bounded (fed : Nat) (r : Reader) : Prop where
  inRange : r.InRange
  lineNumber_le : r.lineNumber ≤ fed + 1
  clauseBound_le : r.clauseBound ≤ fed

theorem bounded_start : Bounded 0 start := ⟨inRange_start, Nat.le_refl _, Nat.le_refl _⟩

variable {r : Reader} {fed : Nat} {c : Call} {e : Error}

theorem Bounded.mono (h : Bounded fed r) {fed' : Nat} (hle : fed ≤ fed') : Bounded fed' r :=
  ⟨h.inRange, Nat.le_trans h.lineNumber_le (Nat.add_le_add_right hle 1),
    Nat.le_trans h.clauseBound_le hle⟩

theorem feed_of_unfailed (h : r.failed = false) (bytes : List UInt8) :
    r.feed bytes = r.feedBytes bytes := by
  rw [feed, if_neg (by rw [h]; decide)]

theorem finish_of_failed (h : r.failed = true) : r.finish = (r, .error .previousError) := by
  rw [finish, if_pos h]

theorem Bounded.feedBytes (h : Bounded fed r) (bytes : List UInt8) :
    Bounded (fed + bytes.length) (r.feedBytes bytes).1 := by
  have hline := h.lineNumber_le
  have hbound := h.clauseBound_le
  rcases hrun : r.feedBytes bytes with ⟨r', e | done⟩
  · obtain ⟨before, b, after, r₁, r₂, rfl, hbefore, hstep, rfl⟩ :=
      exists_step_of_feedBytes_error hrun
    obtain ⟨hrange, -, hnumber, hclauses⟩ := h.inRange.feedBytes_ok hbefore
    have hlines := List.count_le_length (a := lineFeed) (l := before)
    have hadvance := hrange.step b
    rw [hstep] at hadvance
    have hrange' : r₂.InRange := hadvance.inRange
    have hnumber' : r₂.lineNumber = r₁.lineNumber := hadvance.lineNumber_eq
    have hclauses' : r₂.clauseBound ≤ r₁.clauseBound + 1 := hadvance.clauseBound_le
    rw [List.length_append, List.length_cons]
    refine ⟨hrange'.change r₂.line hrange'.of_line r₂.token hrange'.value_le _ _ true, ?_, ?_⟩
    · show r₂.lineNumber ≤ _
      omega
    · show r₂.clauseBound ≤ _
      omega
  · obtain ⟨hrange, -, hnumber, hclauses⟩ := h.inRange.feedBytes_ok hrun
    have hlines := List.count_le_length (a := lineFeed) (l := bytes)
    refine ⟨hrange, ?_, ?_⟩
    · show r'.lineNumber ≤ _
      omega
    · show r'.clauseBound ≤ _
      omega

theorem Bounded.finish (h : Bounded fed r) : Bounded fed r.finish.1 := by
  cases hfailed : r.failed with
  | true =>
    rw [finish_of_failed hfailed]
    exact h
  | false =>
    have hadvance := h.inRange.finish hfailed
    refine ⟨hadvance.inRange, ?_, ?_⟩
    · rw [hadvance.lineNumber_eq]
      exact h.lineNumber_le
    · exact Nat.le_trans hadvance.clauseBound_le h.clauseBound_le

theorem Bounded.call (h : Bounded fed r) (c : Call) : Bounded (fed + c.size) (r.call c).1 := by
  cases c with
  | feed bytes =>
    show Bounded (fed + bytes.length) (r.feed bytes).1
    cases hfailed : r.failed with
    | true =>
      rw [feed_of_failed hfailed]
      exact h.mono (Nat.le_add_right fed bytes.length)
    | false =>
      rw [feed_of_unfailed hfailed]
      exact h.feedBytes bytes
  | finish => exact h.finish
  | checkHeader => exact h
  | takeFormula => exact ⟨h.inRange.takeFormula, h.lineNumber_le, h.clauseBound_le⟩

/-! ## Refusals -/

/-- Why a call is refused: the reader was stopped, something is wrong on a line, or there are not as
many clauses as the header declares. -/
theorem InRange.call_refused (h : r.InRange) (hreply : (r.call c).2 = .refused e) :
    (r.failed = true ∧ e = .previousError) ∨ (∃ line, e.line? = some line) ∨
      ∃ found declared, e = .clauseCount found declared := by
  cases c with
  | feed bytes =>
    have hresult : (r.feed bytes).2 = .error e := Reply.ofResult_eq_refused_iff.1 hreply
    cases hfailed : r.failed with
    | true =>
      rw [feed_of_failed hfailed] at hresult
      cases hresult
      exact .inl ⟨rfl, rfl⟩
    | false =>
      rw [feed_of_unfailed hfailed] at hresult
      obtain ⟨before, b, after, -, -, -, hline⟩ := h.line?_feedBytes (Prod.ext rfl hresult)
      exact .inr (.inl ⟨_, hline⟩)
  | finish =>
    have hresult : r.finish.2 = .error e := Reply.ofResult_eq_refused_iff.1 hreply
    cases hfailed : r.failed with
    | true =>
      rw [finish_of_failed hfailed] at hresult
      cases hresult
      exact .inl ⟨rfl, rfl⟩
    | false => exact .inr (.inl ⟨_, (h.finish hfailed).line?_eq e hresult⟩)
  | checkHeader =>
    have hresult : r.checkHeader = .error e := Reply.ofResult_eq_refused_iff.1 hreply
    unfold Reader.checkHeader at hresult
    split at hresult
    · cases hresult
      exact .inr (.inl ⟨_, rfl⟩)
    · split at hresult
      · cases hresult
      · cases hresult
        exact .inr (.inr ⟨_, _, rfl⟩)
  | takeFormula => cases hreply

theorem InRange.call_ne_fault (h : r.InRange) (cause : Fault) :
    (r.call c).2 ≠ .refused (.fault cause) := by
  intro hreply
  rcases h.call_refused hreply with ⟨-, hprevious⟩ | ⟨line, hline⟩ | ⟨found, declared, hcount⟩
  · cases hprevious
  · cases hline
  · cases hcount

theorem Bounded.run (h : Bounded fed r) (calls : List Call) :
    Bounded (fed + fedCount calls) (r.run calls).1 ∧
      ∀ call cause, (call, Reply.refused (.fault cause)) ∉ (r.run calls).2 := by
  induction calls generalizing r fed with
  | nil => exact ⟨h, nofun⟩
  | cons c calls ih =>
    obtain ⟨hbounded, hfaults⟩ := ih (h.call c)
    refine ⟨?_, ?_⟩
    · rw [fedCount, ← Nat.add_assoc]
      exact hbounded
    · intro call cause hmem
      rcases List.mem_cons.1 hmem with heq | hmem
      · obtain ⟨-, hreply⟩ := Prod.mk.inj heq
        exact h.inRange.call_ne_fault cause hreply.symm
      · exact hfaults call cause hmem

/-! ## Stopped readers -/

/-- Only a refused piece of the input stops a reader. -/
theorem InRange.failed_call (h : r.InRange) (c : Call) :
    (r.call c).1.failed = true ↔
      r.failed = true ∨ ∃ bytes e, c = .feed bytes ∧ (r.call c).2 = .refused e := by
  cases c with
  | feed bytes =>
    cases hfailed : r.failed with
    | true =>
      rw [Reader.call, feed_of_failed hfailed]
      simp [hfailed]
    | false =>
      rw [Reader.call, feed_of_unfailed hfailed]
      rcases hrun : r.feedBytes bytes with ⟨r', e | done⟩
      · obtain ⟨-, -, -, -, r₂, -, -, -, rfl⟩ := exists_step_of_feedBytes_error hrun
        simp [Reply.ofResult]
      · obtain ⟨-, hkept, -⟩ := h.feedBytes_ok hrun
        simp [Reply.ofResult, hkept, hfailed]
  | finish =>
    have hkept : r.finish.1.failed = r.failed := by
      cases hfailed : r.failed with
      | true => rw [finish_of_failed hfailed, hfailed]
      | false => rw [(h.finish hfailed).failed_eq, hfailed]
    rw [Reader.call, hkept]
    simp
  | checkHeader => simp [Reader.call]
  | takeFormula => simp [Reader.call, Reader.takeFormula]

theorem Bounded.failed_run (h : Bounded fed r) (calls : List Call) :
    (r.run calls).1.failed = true ↔
      r.failed = true ∨ ∃ bytes e, (Call.feed bytes, Reply.refused e) ∈ (r.run calls).2 := by
  induction calls generalizing r fed with
  | nil => simp [Reader.run]
  | cons c calls ih =>
    rw [Reader.run, ih (h.call c), h.inRange.failed_call, or_assoc]
    refine or_congr_right ?_
    constructor
    · rintro (⟨bytes, e, rfl, hreply⟩ | ⟨bytes, e, hmem⟩)
      · exact ⟨bytes, e, List.mem_cons.2 (.inl (by rw [hreply]))⟩
      · exact ⟨bytes, e, List.mem_cons_of_mem _ hmem⟩
    · rintro ⟨bytes, e, hmem⟩
      rcases List.mem_cons.1 hmem with heq | hmem
      · obtain ⟨hcall, hreply⟩ := Prod.mk.inj heq
        exact .inl ⟨bytes, e, hcall.symm, hreply.symm⟩
      · exact .inr ⟨bytes, e, hmem⟩

/-- A reader that was stopped says so, and keeps what it tells of the input. -/
theorem call_of_failed (h : r.failed = true) (c : Call) :
    (c.reads = true → (r.call c).2 = .refused .previousError) ∧ (r.call c).1.failed = true ∧
      (r.call c).1.header = r.header ∧ (r.call c).1.clauseCount = r.clauseCount ∧
      (r.call c).1.varCount = r.varCount := by
  cases c with
  | feed bytes =>
    rw [Reader.call, feed_of_failed h]
    exact ⟨fun _ => rfl, h, rfl, rfl, rfl⟩
  | finish =>
    rw [Reader.call, finish_of_failed h]
    exact ⟨fun _ => rfl, h, rfl, rfl, rfl⟩
  | checkHeader => exact ⟨nofun, h, rfl, rfl, rfl⟩
  | takeFormula => exact ⟨nofun, h, rfl, rfl, Nat.zero_max _⟩

theorem run_of_failed (h : r.failed = true) (calls : List Call) :
    (∀ call reply, (call, reply) ∈ (r.run calls).2 → call.reads = true →
        reply = .refused .previousError) ∧
      (r.run calls).1.header = r.header ∧ (r.run calls).1.clauseCount = r.clauseCount ∧
      (r.run calls).1.varCount = r.varCount := by
  induction calls generalizing r with
  | nil => exact ⟨nofun, rfl, rfl, rfl⟩
  | cons c calls ih =>
    obtain ⟨hreply, hfailed, hheader, hclauses, hvars⟩ := call_of_failed h c
    obtain ⟨hreplies, hheader', hclauses', hvars'⟩ := ih hfailed
    refine ⟨?_, hheader'.trans hheader, hclauses'.trans hclauses, hvars'.trans hvars⟩
    intro call reply hmem hreads
    rcases List.mem_cons.1 hmem with heq | hmem
    · cases heq
      exact hreply hreads
    · exact hreplies call reply hmem hreads

/-! ## All calls -/

/-- No call on a reader meets a fault, whatever was called before.  At any time, and pieces may be
cut anywhere, the number being read can take in one more digit within a word of 64 bits, and it is 0
or belongs to a variable.  What is stored is in the range of the header.  No more lines and clauses
are counted than bytes came in. -/
theorem run_faultless (calls : List Call) {log : List (Call × Reply)}
    (hrun : start.run calls = (r, log)) :
    (∀ call cause, (call, Reply.refused (.fault cause)) ∉ log) ∧
      r.token.value ≤ Var.maxNumber ∧ (∀ digit ≤ 9, r.token.value * 10 + digit < 2 ^ 64) ∧
      (r.token.value ≠ 0 → ∃ v, Var.ofNumber? r.token.value = some v) ∧
      (∀ header, r.header = some header → header.varCount ≤ Var.maxNumber ∧
        (∀ l ∈ r.partialClause, l.var.number ≤ header.varCount) ∧
        ∀ lits ∈ r.formula.clauses, ∀ l ∈ lits, l.var.number ≤ header.varCount) ∧
      (r.header = none → r.partialClause = #[] ∧ r.formula.clauses = []) ∧
      r.lineNumber ≤ fedCount calls + 1 ∧ r.clauseCount ≤ fedCount calls := by
  obtain ⟨hbounded, hfaults⟩ := bounded_start.run calls
  rw [hrun, Nat.zero_add] at hbounded
  rw [hrun] at hfaults
  have hrange : r.InRange := hbounded.inRange
  have hvalue := hrange.value_le
  have hmax : Var.maxNumber = 134217727 := rfl
  refine ⟨hfaults, hvalue, fun digit hdigit => ?_, fun hne => ?_, ?_, ?_, hbounded.lineNumber_le,
    Nat.le_trans (Nat.le_add_right _ _) hbounded.clauseBound_le⟩
  · omega
  · cases hv : Var.ofNumber? r.token.value with
    | some v => exact ⟨v, rfl⟩
    | none =>
      rcases Var.ofNumber?_eq_none_iff.1 hv with hzero | hlarge
      · exact absurd hzero hne
      · exact absurd hvalue (Nat.not_le_of_lt hlarge)
  · intro header hheader
    obtain ⟨hle, hcount, hpartial⟩ := hrange.of_some header hheader
    refine ⟨hle, hpartial, fun lits hlits l hl => ?_⟩
    rw [← hcount]
    exact hrange.reachable.wellFormed.number_le_of_mem hlits hl
  · intro hnone
    obtain ⟨hformula, hpartial⟩ := hrange.of_none hnone
    exact ⟨hpartial, by rw [hformula]; rfl⟩

/-- Calls that go on after three refusals: the input ends after a minus sign, then within a number
that the header does not allow, and at last the largest number gets one more digit. -/
def heedlessCalls : List Call :=
  [.feed (ascii "p cnf 2 1\n-"), .finish, .feed (ascii "134217727"), .finish,
    .feed (ascii "2 134217727"), .takeFormula, .feed (ascii "9"), .feed (ascii "0"), .checkHeader]

/-- The theorem on these calls, which end with the largest number being read. -/
theorem run_faultless_heedlessCalls :
    (∀ call cause, (call, Reply.refused (.fault cause)) ∉ (start.run heedlessCalls).2) ∧
      (start.run heedlessCalls).1.token.value = Var.maxNumber ∧
      (start.run heedlessCalls).1.token.value * 10 + 9 < 2 ^ 64 ∧
      (start.run heedlessCalls).1.header = some ⟨2, 1⟩ ∧
      ∀ l ∈ (start.run heedlessCalls).1.partialClause, l.var.number ≤ 2 := by
  have hvalue : (start.run heedlessCalls).1.token.value = Var.maxNumber := by decide +kernel
  have hheader : (start.run heedlessCalls).1.header = some ⟨2, 1⟩ := by decide +kernel
  obtain ⟨hfaults, -, hdigit, -, hrange, -⟩ := run_faultless heedlessCalls (Prod.eta _).symm
  exact ⟨hfaults, hvalue, hdigit 9 (Nat.le_refl 9), hheader, (hrange _ hheader).2.1⟩

/-- From the first refused piece of the input on, calls about the input are answered with the error
for a stopped reader, and what the reader tells of the input stays as it is.  Before that no call is
answered with this error: a refusal at the end of the input stops nothing. -/
theorem run_stopped_by_feed (calls further : List Call) {log : List (Call × Reply)}
    (hrun : start.run calls = (r, log)) :
    ((∃ bytes e, (Call.feed bytes, Reply.refused e) ∈ log) →
      (∀ call reply, (call, reply) ∈ (r.run further).2 → call.reads = true →
        reply = .refused .previousError) ∧
      (r.run further).1.header = r.header ∧ (r.run further).1.clauseCount = r.clauseCount ∧
      (r.run further).1.varCount = r.varCount) ∧
    ((¬ ∃ bytes e, (Call.feed bytes, Reply.refused e) ∈ log) →
      ∀ call, (r.call call).2 ≠ .refused .previousError) := by
  have hfailed := bounded_start.failed_run calls
  have hrange := (bounded_start.run calls).1.inRange
  rw [hrun] at hfailed hrange
  refine ⟨fun hrefused => run_of_failed (hfailed.2 (.inr hrefused)) further, ?_⟩
  intro hnone call hreply
  rcases hrange.call_refused hreply with ⟨hstopped, -⟩ | ⟨line, hline⟩ | ⟨found, declared, hcount⟩
  · rcases hfailed.1 hstopped with hstart | hrefused
    · cases hstart
    · exact hnone hrefused
  · cases hline
  · cases hcount

/-- A piece with a byte that cannot stand where it does. -/
def stoppingCalls : List Call := [.feed (ascii "p cnf 2 1\n1 ?")]

/-- The theorem after this piece. -/
theorem run_stopped_by_feed_stoppingCalls :
    (Call.feed (ascii "p cnf 2 1\n1 ?"), Reply.refused (.unexpectedInput 2 63)) ∈
        (start.run stoppingCalls).2 ∧
      ∀ call reply,
        (call, reply) ∈ ((start.run stoppingCalls).1.run
          [.feed (ascii "2 0\n"), .takeFormula, .finish]).2 →
        call.reads = true → reply = .refused .previousError := by
  have hrefused : (Call.feed (ascii "p cnf 2 1\n1 ?"), Reply.refused (.unexpectedInput 2 63)) ∈
      (start.run stoppingCalls).2 := by
    decide +kernel
  obtain ⟨hstopped, -⟩ := run_stopped_by_feed stoppingCalls
    [.feed (ascii "2 0\n"), .takeFormula, .finish] (Prod.eta _).symm
  exact ⟨hrefused, (hstopped ⟨_, _, hrefused⟩).1⟩

/-- An input that ends within the header line, and goes on after that. -/
def endedInHeader : List Call :=
  [.feed (ascii "p cnf 2"), .finish, .feed (ascii " 1\n1 0\n"), .finish]

/-- The end of the input is refused, but the next piece is taken in: there is a header then, and a
clause. -/
theorem refused_finish_forgotten :
    (start.run endedInHeader).2.map Prod.snd =
        [.done, .refused (.invalidHeader 1 "p cnf 2"), .done, .done] ∧
      (start.run (endedInHeader.take 2)).1.header = none ∧
      (start.run (endedInHeader.take 2)).1.clauseCount = 0 ∧
      (start.run (endedInHeader.take 2)).1.varCount = 0 ∧
      (start.run endedInHeader).1.header = some ⟨2, 1⟩ ∧
      (start.run endedInHeader).1.clauseCount = 1 ∧
      (start.run endedInHeader).1.varCount = 2 := by
  decide +kernel

end Reader

end BucketElimination.Dimacs
