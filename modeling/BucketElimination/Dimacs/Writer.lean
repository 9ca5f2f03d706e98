import BucketElimination.Dimacs.Reader
set_option autoImplicit false

/-!
# DIMACS: writing a formula

A header line, then each clause on a line of its own: its literals in the order of the clause, each
followed by a space, and a zero.
-/

namespace BucketElimination.Dimacs

/-- The bytes of a text of ASCII characters. -/
def ascii (s : String) : List UInt8 := s.toList.map fun c => UInt8.ofNat c.toNat

/-- The line of a header. -/
def Header.bytes (header : Header) : List UInt8 :=
  ascii "p cnf " ++ Decimal.bytes header.varCount ++ [32] ++ Decimal.bytes header.clauseCount
    ++ [lineFeed]

/-- A literal and the space after it. -/
def litBytes (l : Lit) : List UInt8 := Decimal.intBytes l.toInt ++ [32]

/-- The line of a clause. -/
def clauseBytes (lits : List Lit) : List UInt8 := lits.flatMap litBytes ++ [48, lineFeed]

/-- The lines of clauses. -/
def clausesBytes (clauses : List (List Lit)) : List UInt8 := clauses.flatMap clauseBytes

/-- A formula with its header. -/
def write (f : Formula) : List UInt8 :=
  Header.bytes ⟨f.varCount, f.size⟩ ++ clausesBytes f.clauses

/-- ASCII bytes as a text. -/
def textOfBytes (bytes : List UInt8) : String := String.ofList (bytes.map latin1)

end BucketElimination.Dimacs
