set_option autoImplicit false

/-!
# Text: blanks and the fields between them

A blank is a character with the Unicode property `White_Space`.  The fields of a text are the
longest stretches without a blank.
-/

namespace BucketElimination

/-- The character has the property `White_Space`. -/
def isBlank (c : Char) : Bool :=
  let n := c.toNat
  (0x09 ≤ n && n ≤ 0x0D) || n == 0x20 || n == 0x85 || n == 0xA0 || n == 0x1680
    || (0x2000 ≤ n && n ≤ 0x200A) || n == 0x2028 || n == 0x2029 || n == 0x202F
    || n == 0x205F || n == 0x3000

/-- The fields of a text, where `field` holds the characters of the field being read. -/
def fieldsFrom (field : List Char) : List Char → List (List Char)
  | [] => if field.isEmpty then [] else [field.reverse]
  | c :: cs =>
    if isBlank c then
      if field.isEmpty then fieldsFrom [] cs else field.reverse :: fieldsFrom [] cs
    else fieldsFrom (c :: field) cs

/-- The stretches of a text between blanks, without empty ones. -/
def fields (text : List Char) : List (List Char) := fieldsFrom [] text

end BucketElimination
