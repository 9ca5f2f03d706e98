import BucketElimination.Dimacs.Error
import BucketElimination.Text.Blank
import BucketElimination.Text.Decimal
import BucketElimination.Text.Utf8
set_option autoImplicit false

/-!
# DIMACS: the header

A header line has exactly four fields: `p`, `cnf`, the number of variables and the number of
clauses.
-/

namespace BucketElimination.Dimacs

/-- The numbers that a header declares. -/
structure Header where
  varCount : Nat
  clauseCount : Nat
  deriving DecidableEq, Repr

namespace Header

/-- The two numbers of a text with the fields of a header. -/
def ofText? (text : List Char) : Option Header :=
  match fields text with
  | [p, cnf, vars, clauses] =>
    if p = ['p'] ∧ cnf = ['c', 'n', 'f'] then
      match Decimal.count? vars, Decimal.count? clauses with
      | some v, some c => some ⟨v, c⟩
      | _, _ => none
    else none
  | _ => none

/-- The header in the bytes of a line, which stands on the given line of the input. -/
def ofBytes (line : Nat) (bytes : List UInt8) : Except Error Header :=
  let text := Utf8.decodeLossy bytes
  match ofText? text with
  | none => .error (.invalidHeader line (String.ofList text))
  | some header =>
    if Var.maxNumber < header.varCount then .error (.varCountTooLarge line header.varCount)
    else .ok header

/-- An accepted header declares no more variables than there are. -/
theorem varCount_le_of_ofBytes {line : Nat} {bytes : List UInt8} {header : Header}
    (h : ofBytes line bytes = .ok header) : header.varCount ≤ Var.maxNumber := by
  simp only [ofBytes] at h
  split at h
  · cases h
  · split at h
    · cases h
    · cases h; omega

end Header

end BucketElimination.Dimacs
