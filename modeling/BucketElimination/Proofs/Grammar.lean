import BucketElimination.Dimacs.Source
set_option autoImplicit false

/-!
# DIMACS: the grammar

What an input means, said of the input as a whole and without a reader.  Both line feed and carriage
return end a line.  The first byte of a line that is no gap decides what the line is, and only the
lines before the first trailer count.  Among these are exactly one header, in front of all numbers,
and the words of the clause lines spell the numbers, whatever the line on which they stand.  A zero
closes a clause.
-/

namespace BucketElimination.Dimacs

/-! ## Lines -/

/-- The lines of an input, without the bytes that end them. -/
def lines (bytes : List UInt8) : List (List UInt8) := bytes.splitOnP endsLine

/-- The line from its first byte that is no gap. -/
def content (line : List UInt8) : List UInt8 := line.dropWhile isGap

/-- What a line is; a blank line is a start without an end. -/
def LineKind.ofLine (line : List UInt8) : LineKind :=
  match content line with
  | [] => .start
  | b :: _ =>
    if b = 99 then .comment
    else if b = 112 then .header
    else if b = 37 then .trailer
    else .clause

/-- The lines before the first trailer. -/
def countedLines (bytes : List UInt8) : List (List UInt8) :=
  (lines bytes).takeWhile fun line => LineKind.ofLine line ≠ .trailer

/-! ## Numbers -/

/-- The longest stretches of a line without a gap. -/
def words (line : List UInt8) : List (List UInt8) :=
  (line.splitOnP isGap).filter (· ≠ [])

/-- Append digits to a number. -/
def appendDigits? (value : Nat) (bytes : List UInt8) : Option Nat :=
  bytes.foldlM (fun value b => (digit? b).map fun digit => value * 10 + digit) value

/-- The number spelled by one or more digits. -/
def magnitude? (bytes : List UInt8) : Option Nat :=
  if bytes = [] then none else appendDigits? 0 bytes

/-- The number spelled by one or more digits, after an optional minus sign. -/
def number? : List UInt8 → Option Int
  | 45 :: bytes => (magnitude? bytes).map fun value : Nat => -(value : Int)
  | bytes => (magnitude? bytes).map fun value : Nat => (value : Int)

/-- The words of the clause lines, one line after the other. -/
def clauseWords (lines : List (List UInt8)) : List (List UInt8) :=
  (lines.filter fun line => LineKind.ofLine line = .clause).flatMap words

/-- The groups of numbers that zeros close. -/
def groups (numbers : List Int) : List (List Int) := (numbers.splitOnP (· == 0)).dropLast

/-! ## Inputs -/

/-- The line declares the header. -/
structure Declares (line : List UInt8) (header : Header) : Prop where
  kind : LineKind.ofLine line = .header
  fields : ∃ vars clauses,
    fields (Utf8.decodeLossy (content line)) = [['p'], ['c', 'n', 'f'], vars, clauses] ∧
      Decimal.count? vars = some header.varCount ∧ Decimal.count? clauses = some header.clauseCount
  varCount_le : header.varCount ≤ Var.maxNumber

/-- The input is in the grammar, with the given header and numbers. -/
structure Describes (bytes : List UInt8) (header : Header) (numbers : List Int) : Prop where
  /-- One of the counted lines is a header, and no clause line is before it. -/
  layout : ∃ before line after, countedLines bytes = before ++ line :: after ∧
    Declares line header ∧
    (∀ other ∈ before, LineKind.ofLine other ≠ .header ∧ LineKind.ofLine other ≠ .clause) ∧
    ∀ other ∈ after, LineKind.ofLine other ≠ .header
  words_eq : (clauseWords (countedLines bytes)).mapM number? = some numbers
  natAbs_le : ∀ n ∈ numbers, n.natAbs ≤ header.varCount
  count_zero : numbers.count 0 = header.clauseCount
  closed : numbers = [] ∨ numbers.getLast? = some 0

/-! ## Cutting lines into words -/

/-- Gaps between words. -/
theorem words_append_gap (line line' : List UInt8) {b : UInt8} (hb : isGap b = true) :
    words (line ++ b :: line') = words line ++ words line' := by
  rw [words, List.splitOnP_append_cons line line' hb, List.filter_append]
  rfl

theorem words_of_no_gap {line : List UInt8} (h : ∀ b ∈ line, isGap b = false) :
    words line = if line = [] then [] else [line] := by
  rw [words, List.splitOnP_eq_singleton h]
  by_cases hnil : line = [] <;> simp [hnil]

/-- A line begins with a word that begins like the line. -/
theorem exists_words_append {w : List UInt8} (hw : w ≠ []) (hgap : ∀ b ∈ w, isGap b = false)
    (line : List UInt8) : ∃ x more, words (w ++ line) = (w ++ x) :: more := by
  induction line generalizing w with
  | nil =>
    refine ⟨[], [], ?_⟩
    rw [List.append_nil, words_of_no_gap hgap, if_neg hw]
  | cons b line ih =>
    by_cases hb : isGap b = true
    · refine ⟨[], words line, ?_⟩
      rw [words_append_gap w line hb, words_of_no_gap hgap, if_neg hw, List.append_nil,
        List.singleton_append]
    · have hgap' : ∀ x ∈ w ++ [b], isGap x = false := by
        intro x hx
        rcases List.mem_append.1 hx with hx | hx
        · exact hgap x hx
        · rw [List.mem_singleton.1 hx]
          simpa using hb
      obtain ⟨x, more, hwords⟩ := ih (by simp) hgap'
      refine ⟨b :: x, more, ?_⟩
      simpa using hwords

/-! ## Spelling numbers -/

theorem appendDigits?_append (value : Nat) (bytes bytes' : List UInt8) :
    appendDigits? value (bytes ++ bytes') =
      (appendDigits? value bytes).bind fun value => appendDigits? value bytes' :=
  List.foldlM_append

theorem appendDigits?_cons (value : Nat) (b : UInt8) (bytes : List UInt8) :
    appendDigits? value (b :: bytes) =
      (digit? b).bind fun digit => appendDigits? (value * 10 + digit) bytes := by
  rw [appendDigits?, List.foldlM_cons]
  cases digit? b <;> rfl

/-- Appending digits makes a number no smaller. -/
theorem le_of_appendDigits? {value n : Nat} {bytes : List UInt8}
    (h : appendDigits? value bytes = some n) : value ≤ n := by
  induction bytes generalizing value with
  | nil =>
    cases h
    exact Nat.le_refl _
  | cons b bytes ih =>
    rw [appendDigits?_cons] at h
    obtain ⟨digit, -, h⟩ := Option.bind_eq_some_iff.1 h
    have := ih h
    omega

/-- More digits after a number. -/
theorem magnitude?_append {bytes : List UInt8} {value : Nat} (h : magnitude? bytes = some value)
    (bytes' : List UInt8) : magnitude? (bytes ++ bytes') = appendDigits? value bytes' := by
  unfold magnitude? at h ⊢
  split at h
  · cases h
  · rename_i hne
    rw [if_neg (by simp [hne]), appendDigits?_append, h]
    rfl

theorem magnitude?_cons (b : UInt8) (bytes : List UInt8) :
    magnitude? (b :: bytes) = (digit? b).bind fun digit => appendDigits? digit bytes := by
  rw [magnitude?, if_neg (List.cons_ne_nil _ _), appendDigits?_cons]
  simp

theorem number?_minus (bytes : List UInt8) :
    number? (45 :: bytes) = (magnitude? bytes).map fun value : Nat => -(value : Int) := rfl

/-- Without a minus sign the bytes are digits. -/
theorem number?_of_ne {bytes : List UInt8} (h : ∀ rest, bytes ≠ 45 :: rest) :
    number? bytes = (magnitude? bytes).map fun value : Nat => (value : Int) := by
  rw [number?]
  exact h

end BucketElimination.Dimacs
