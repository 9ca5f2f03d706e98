import BucketElimination.Fault
set_option autoImplicit false

/-!
# DIMACS: errors

What can be wrong with a DIMACS CNF input, with the line on which it was noticed, and the wording
of each error.
-/

namespace BucketElimination.Dimacs

/-- Why an input is refused. -/
inductive Error where
  /-- A byte that cannot stand where it does. -/
  | unexpectedInput (line : Nat) (byte : UInt8)
  /-- A number that grew beyond every variable with its last digit. -/
  | literalTooLarge (line index finalDigit : Nat)
  /-- A header line without the four fields of a header. -/
  | invalidHeader (line : Nat) (header : String)
  /-- A header that declares more variables than there are. -/
  | varCountTooLarge (line varCount : Nat)
  /-- A number before the header, or no header at all. -/
  | missingHeader (line : Nat)
  /-- A variable that the header does not declare. -/
  | varOutOfRange (line var varCount : Nat)
  /-- The input ends within a clause. -/
  | unterminatedClause (line : Nat)
  /-- The header declares another number of clauses than were read. -/
  | clauseCount (found declared : Nat)
  /-- The reader was used after an error. -/
  | previousError
  /-- An internal check failed. -/
  | fault (cause : Fault)
  deriving DecidableEq, Repr

/-- The character whose code is the byte. -/
def latin1 (byte : UInt8) : Char := Char.ofNat byte.toNat

/-- The text of an error. -/
def Error.message : Error → String
  | .unexpectedInput line byte =>
    s!"line {line}: Unexpected character in DIMACS CNF input: '{latin1 byte}'"
  | .literalTooLarge line index finalDigit =>
    s!"line {line}: Literal index is too large: {index}{finalDigit}..."
  | .invalidHeader line header => s!"line {line}: Invalid header syntax: {header}"
  | .varCountTooLarge line varCount =>
    s!"line {line}: Header declares {varCount} variables, at most {Var.maxNumber} are supported"
  | .missingHeader line => s!"line {line}: Missing 'p cnf' header before the first clause"
  | .varOutOfRange line var varCount =>
    s!"line {line}: Variable {var} is outside of the {varCount} variables declared in the header"
  | .unterminatedClause line => s!"line {line}: Unterminated clause"
  | .clauseCount found declared =>
    s!"Formula has {found} clauses while the header specifies {declared} clauses"
  | .previousError => "Parser invoked after a previous error"
  | .fault cause => cause.message?.getD ""

end BucketElimination.Dimacs
