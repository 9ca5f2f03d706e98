set_option autoImplicit false

/-!
# Text: the lines of a message

A line ends with a line feed, or with a carriage return and a line feed; neither belongs to the
line.  What follows the last line feed is a line if it is not empty.
-/

namespace BucketElimination

/-- A line read backwards, without the carriage return of its end. -/
def closeLine (line : List Char) : String :=
  match line with
  | '\r' :: line => String.ofList line.reverse
  | line => String.ofList line.reverse

/-- The lines of a text, where `line` holds the line being read, backwards. -/
def linesFrom (line : List Char) : List Char → List String
  | [] => if line.isEmpty then [] else [String.ofList line.reverse]
  | '\n' :: cs => closeLine line :: linesFrom [] cs
  | c :: cs => linesFrom (c :: line) cs

/-- The lines of a text. -/
def textLines (s : String) : List String := linesFrom [] s.toList

end BucketElimination
