import BucketElimination.Dimacs.Header
import BucketElimination.Logic.Formula
set_option autoImplicit false

/-!
# DIMACS: reading a formula piece by piece

The reader takes its input byte by byte, so the input may arrive in pieces that end anywhere, and
the clauses read so far can be taken out at any time.  A line is a comment, a header, the trailer
after which everything is ignored, or holds numbers; clauses may span lines.  Both line feed and
carriage return end a line, and only line feeds are counted.
-/

namespace BucketElimination.Dimacs

/-! ## Bytes with a meaning of their own -/

/-- Line feed. -/
def lineFeed : UInt8 := 10

/-- Carriage return. -/
def carriageReturn : UInt8 := 13

/-- The byte ends a line. -/
def endsLine (b : UInt8) : Bool := b == lineFeed || b == carriageReturn

/-- The byte is a space or a tab. -/
def isGap (b : UInt8) : Bool := b == 32 || b == 9

/-- The value of a byte that is a digit. -/
def digit? (b : UInt8) : Option Nat :=
  if 48 ≤ b ∧ b ≤ 57 then some (b.toNat - 48) else none

/-- What the line being read has turned out to be. -/
inductive LineKind where
  /-- Nothing but gaps so far. -/
  | start
  /-- A line of numbers. -/
  | clause
  | comment
  | header
  /-- All that follows is ignored. -/
  | trailer
  deriving DecidableEq, Repr

/-- The number being read. -/
inductive Token where
  | idle
  | minus
  | number (value : Nat) (negative : Bool)
  deriving DecidableEq, Repr

/-- The state of reading. -/
structure Reader where
  /-- The clauses read since they were last taken out. -/
  formula : Formula
  /-- The literals of the clause being read. -/
  partialClause : Array Lit
  header : Option Header
  /-- The current line, counting from 1. -/
  lineNumber : Nat
  /-- All clauses read so far. -/
  clauseCount : Nat
  line : LineKind
  token : Token
  /-- An error stopped the reader. -/
  failed : Bool
  /-- The bytes of the header line. -/
  headerBytes : Array UInt8
  deriving DecidableEq, Repr

namespace Reader

/-- The reader before any input. -/
def start : Reader where
  formula := .empty
  partialClause := #[]
  header := none
  lineNumber := 1
  clauseCount := 0
  line := .start
  token := .idle
  failed := false
  headerBytes := #[]

instance : Inhabited Reader := ⟨start⟩

/-- The number of variables that the header declares, 0 before it was read. -/
def varCount (r : Reader) : Nat := r.formula.varCount

/-- Close the clause being read. -/
def closeClause (r : Reader) : Reader :=
  { r with
    formula := r.formula.addClause r.partialClause.toList
    partialClause := #[]
    clauseCount := r.clauseCount + 1 }

/-- Add a literal to the clause being read. -/
def addLit (r : Reader) (l : Lit) : Reader :=
  { r with partialClause := r.partialClause.push l }

/-- Forget the number being read. -/
def dropToken (r : Reader) : Reader := { r with token := .idle }

/-- The number being read is complete, `separator` ended it. -/
def finishToken (r : Reader) (separator : UInt8) : Reader × Except Error Unit :=
  match r.token with
  | .idle => (r, .ok ())
  | .minus => (r.dropToken, .error (.unexpectedInput r.lineNumber separator))
  | .number value negative =>
    match r.header with
    | none => (r.dropToken, .error (.missingHeader r.lineNumber))
    | some header =>
      if value = 0 then (r.dropToken.closeClause, .ok ())
      else if header.varCount < value then
        (r.dropToken, .error (.varOutOfRange r.lineNumber value header.varCount))
      else
        match Var.ofNumber? value with
        | none => (r.dropToken, .error (.fault .noSuchVar))
        | some v => (r.dropToken.addLit ⟨v, .ofBool !negative⟩, .ok ())

/-- The header line is complete. -/
def finishHeader (r : Reader) : Reader × Except Error Unit :=
  match Header.ofBytes r.lineNumber r.headerBytes.toList with
  | .error e => (r, .error e)
  | .ok header =>
    ({ r with
       header := some header
       formula := r.formula.raiseVarCount header.varCount
       line := .start }, .ok ())

/-- Take in a digit. -/
def addDigit (r : Reader) (digit : Nat) : Reader × Except Error Unit :=
  let (index, negative) := match r.token with
    | .number value negative => (value, negative)
    | .minus => (0, true)
    | .idle => (0, false)
  let value := index * 10 + digit
  if Var.maxNumber < value then (r, .error (.literalTooLarge r.lineNumber index digit))
  else ({ r with token := .number value negative, line := .clause }, .ok ())

/-- Take in a byte that ends the line. -/
def finishLine (r : Reader) (b : UInt8) : Reader × Except Error Unit :=
  match r.finishToken b with
  | (r, .error e) => (r, .error e)
  | (r, .ok ()) =>
    if r.line = .header then
      match r.finishHeader with
      | (r, .error e) => (r, .error e)
      | (r, .ok ()) => ({ r with line := .start }, .ok ())
    else ({ r with line := .start }, .ok ())

/-- Take in a byte outside of comments, header lines and the trailer, or one that ends a line. -/
def takeByte (r : Reader) (b : UInt8) : Reader × Except Error Unit :=
  if endsLine b then r.finishLine b
  else if isGap b then r.finishToken b
  else
    match digit? b with
    | some digit => r.addDigit digit
    | none =>
      if b = 45 ∧ r.token = .idle then ({ r with token := .minus, line := .clause }, .ok ())
      else if b = 99 ∧ r.line = .start then ({ r with line := .comment }, .ok ())
      else if b = 112 ∧ r.line = .start ∧ r.header = none then
        ({ r with line := .header, headerBytes := r.headerBytes.push b }, .ok ())
      else if b = 37 ∧ r.line = .start then ({ r with line := .trailer }, .ok ())
      else (r, .error (.unexpectedInput r.lineNumber b))

/-- Take in a byte, whatever the line is. -/
def step (r : Reader) (b : UInt8) : Reader × Except Error Unit :=
  match r.line with
  | .trailer => (r, .ok ())
  | .header =>
    if endsLine b then r.takeByte b
    else ({ r with headerBytes := r.headerBytes.push b }, .ok ())
  | .comment => if endsLine b then r.takeByte b else (r, .ok ())
  | _ => r.takeByte b

/-- Count the line that a line feed ends. -/
def countLine (r : Reader) (b : UInt8) : Reader :=
  if b = lineFeed then { r with lineNumber := r.lineNumber + 1 } else r

/-- Take in bytes up to the first error, which stops the reader for good. -/
def feedBytes : Reader → List UInt8 → Reader × Except Error Unit
  | r, [] => (r, .ok ())
  | r, b :: bytes =>
    match r.step b with
    | (r, .ok ()) => feedBytes (r.countLine b) bytes
    | (r, .error e) => ({ r with failed := true }, .error e)

/-- Take in a piece of the input. -/
def feed (r : Reader) (bytes : List UInt8) : Reader × Except Error Unit :=
  if r.failed then (r, .error .previousError) else r.feedBytes bytes

/-- What is left to check at the end of the input once the last number is complete. -/
def checkComplete (r : Reader) : Except Error Unit :=
  if r.partialClause.isEmpty then
    if r.header.isSome then .ok () else .error (.missingHeader r.lineNumber)
  else .error (.unterminatedClause r.lineNumber)

/-- Complete the last number at the end of the input. -/
def finishClauses (r : Reader) : Reader × Except Error Unit :=
  if r.token = .minus then (r, .error (.unterminatedClause r.lineNumber))
  else
    match r.finishToken lineFeed with
    | (r, .error e) => (r, .error e)
    | (r, .ok ()) => (r, r.checkComplete)

/-- The input has ended.  An error found here does not stop the reader. -/
def finish (r : Reader) : Reader × Except Error Unit :=
  if r.failed then (r, .error .previousError)
  else if r.line = .header then
    match r.finishHeader with
    | (r, .error e) => (r, .error e)
    | (r, .ok ()) => r.finishClauses
  else r.finishClauses

/-- The header declares as many clauses as were read. -/
def checkHeader (r : Reader) : Except Error Unit :=
  match r.header with
  | none => .error (.missingHeader r.lineNumber)
  | some header =>
    if header.clauseCount = r.clauseCount then .ok ()
    else .error (.clauseCount r.clauseCount header.clauseCount)

/-- Take out the clauses read since the last time. -/
def takeFormula (r : Reader) : Formula × Reader :=
  (r.formula, { r with formula := Formula.empty.raiseVarCount r.formula.varCount })

theorem feed_of_failed {r : Reader} (h : r.failed = true) (bytes : List UInt8) :
    r.feed bytes = (r, .error .previousError) := by
  simp [feed, h]

@[simp] theorem feedBytes_nil (r : Reader) : r.feedBytes [] = (r, .ok ()) := rfl

end Reader

end BucketElimination.Dimacs
