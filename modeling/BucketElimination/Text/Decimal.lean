set_option autoImplicit false

/-!
# Text: decimal numbers

Counts are read from an optional plus sign and decimal digits, and must fit a 64-bit word.  Numbers
are written without leading zeros, as bytes.
-/

namespace BucketElimination.Decimal

/-- The value of a decimal digit. -/
def digit? (c : Char) : Option Nat :=
  if '0' ≤ c ∧ c ≤ '9' then some (c.toNat - '0'.toNat) else none

/-- Append digits to a number read so far. -/
def appendDigits? (value : Nat) : List Char → Option Nat
  | [] => some value
  | c :: cs =>
    match digit? c with
    | none => none
    | some d => appendDigits? (value * 10 + d) cs

/-- The number written by one or more decimal digits. -/
def ofDigits? : List Char → Option Nat
  | [] => none
  | cs => appendDigits? 0 cs

/-- One more than the largest number of a 64-bit word. -/
def countBound : Nat := 18446744073709551616

/-- The count written by decimal digits after an optional plus sign. -/
def count? (text : List Char) : Option Nat :=
  let digits := match text with
    | '+' :: cs => cs
    | cs => cs
  match ofDigits? digits with
  | none => none
  | some n => if n < countBound then some n else none

theorem lt_of_count? {text : List Char} {n : Nat} (h : count? text = some n) : n < countBound := by
  have hdigits : ∀ value : Option Nat,
      (match value with
        | none => none
        | some n => if n < countBound then some n else none) = some n → n < countBound := by
    intro value hvalue
    cases value with
    | none => cases hvalue
    | some k =>
      obtain ⟨hk, hsome⟩ := Option.ite_none_right_eq_some.1 hvalue
      cases hsome
      exact hk
  exact hdigits _ h

/-- The byte of a digit below 10. -/
def digitByte (d : Nat) : UInt8 := UInt8.ofNat (48 + d)

/-- The digits of a number as bytes. -/
def bytes (n : Nat) : List UInt8 :=
  if n < 10 then [digitByte n] else bytes (n / 10) ++ [digitByte (n % 10)]
termination_by n
decreasing_by omega

/-- The digits of an integer as bytes, after a minus sign if it is negative. -/
def intBytes (n : Int) : List UInt8 :=
  if n < 0 then 45 :: bytes n.natAbs else bytes n.natAbs

theorem bytes_of_lt {n : Nat} (h : n < 10) : bytes n = [digitByte n] := by
  rw [bytes, if_pos h]

end BucketElimination.Decimal
