set_option autoImplicit false

/-!
# Text: characters from UTF-8 bytes

Bytes are read one character at a time.  Where the bytes are not well formed, the longest stretch
that could still have begun a character counts as one malformed unit.  `decodeLossy` puts the
replacement character for each such unit, and `decode?` accepts well formed bytes only.
-/

namespace BucketElimination.Utf8

/-- What the first byte of a character announces: how many bytes follow, the range of the first of
these, and the bits of the code point that the first byte carries. -/
structure Lead where
  following : Nat
  low : UInt8
  high : UInt8
  bits : Nat

/-- The announcement of a first byte; bytes that begin no character have none. -/
def lead? (b : UInt8) : Option Lead :=
  if b < 0x80 then some ⟨0, 0x80, 0xBF, b.toNat⟩
  else if b < 0xC2 then none
  else if b < 0xE0 then some ⟨1, 0x80, 0xBF, b.toNat - 0xC0⟩
  else if b = 0xE0 then some ⟨2, 0xA0, 0xBF, 0⟩
  else if b = 0xED then some ⟨2, 0x80, 0x9F, 0x0D⟩
  else if b < 0xF0 then some ⟨2, 0x80, 0xBF, b.toNat - 0xE0⟩
  else if b = 0xF0 then some ⟨3, 0x90, 0xBF, 0⟩
  else if b < 0xF4 then some ⟨3, 0x80, 0xBF, b.toNat - 0xF0⟩
  else if b = 0xF4 then some ⟨3, 0x80, 0x8F, 4⟩
  else none

/-- Read the bytes that follow a first byte, the next of them in the given range.  The result is the
code point, if all of them are there, and how many of them were read. -/
def follow : Nat → UInt8 → UInt8 → Nat → List UInt8 → Option Nat × Nat
  | 0, _, _, bits, _ => (some bits, 0)
  | _ + 1, _, _, _, [] => (none, 0)
  | n + 1, low, high, bits, b :: bytes =>
    if low ≤ b ∧ b ≤ high then
      let (point, read) := follow n 0x80 0xBF (bits * 64 + (b.toNat - 0x80)) bytes
      (point, read + 1)
    else (none, 0)

/-- The character that begins with the byte `b`, if it is well formed, and how many of the bytes
after `b` belong to it or to the malformed unit. -/
def next (b : UInt8) (bytes : List UInt8) : Option Char × Nat :=
  match lead? b with
  | none => (none, 0)
  | some lead =>
    let (point, read) := follow lead.following lead.low lead.high lead.bits bytes
    (point.map Char.ofNat, read)

/-- The character that stands for a malformed unit. -/
def replacement : Char := Char.ofNat 0xFFFD

/-- The characters of the bytes, with `replacement` for each malformed unit. -/
def decodeLossy : List UInt8 → List Char
  | [] => []
  | b :: bytes =>
    (next b bytes).1.getD replacement :: decodeLossy (bytes.drop (next b bytes).2)
termination_by bytes => bytes.length
decreasing_by simp only [List.length_drop, List.length_cons]; omega

/-- The characters of well formed bytes. -/
def decode? : List UInt8 → Option (List Char)
  | [] => some []
  | b :: bytes =>
    match (next b bytes).1 with
    | none => none
    | some c => (decode? (bytes.drop (next b bytes).2)).map (c :: ·)
termination_by bytes => bytes.length
decreasing_by simp only [List.length_drop, List.length_cons]; omega

end BucketElimination.Utf8
