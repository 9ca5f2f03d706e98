import BucketElimination.Storage.Chunk
set_option autoImplicit false

/-!
# Storage: walking over chunks

A cursor walks over the clauses of a sequence of chunks, and of the current chunk after them, in
storage order.  It copies none of the chunks and keeps only its place in them.  It stops after a
number of clauses fixed beforehand, or where the chunks end.
-/

namespace BucketElimination

/-- A position in a sequence of chunks. -/
structure Cursor where
  /-- The chunks before the current one. -/
  chunks : Array Chunk
  current : Chunk
  /-- The number of the chunk being walked over.  A number that none of the others has stands for
  the current chunk. -/
  chunk : Nat
  /-- How many clauses of this chunk were passed. -/
  offset : Nat
  /-- How many clauses are still to come. -/
  remaining : Nat

namespace Cursor

/-- The cursor before the first of `count` clauses. -/
def start (chunks : Array Chunk) (current : Chunk) (count : Nat) : Cursor :=
  ⟨chunks, current, 0, 0, count⟩

/-- The chunk being walked over. -/
def here (c : Cursor) : Chunk := c.chunks[c.chunk]?.getD c.current

/-- The cursor before the first clause of the next chunk. -/
def skip (c : Cursor) : Cursor := { c with chunk := c.chunk + 1, offset := 0 }

/-- Pass the clause at the offset into the chunk being walked over, or the first one of a later chunk
if that is exhausted. -/
def seek (c : Cursor) : Option (Clause × Cursor) :=
  match c.here.get? c.offset with
  | some x => some (x, { c with offset := c.offset + 1, remaining := c.remaining - 1 })
  | none => if c.chunks.size ≤ c.chunk then none else c.skip.seek
termination_by c.chunks.size - c.chunk
decreasing_by
  simp only [skip]
  omega

/-- The next clause and the cursor after it. -/
def next (c : Cursor) : Option (Clause × Cursor) :=
  if c.remaining = 0 then none else c.seek

/-- The next `n` clauses, fewer if the cursor stops before. -/
def take : Nat → Cursor → List Clause
  | 0, _ => []
  | n + 1, c =>
    match c.next with
    | none => []
    | some (x, c) => x :: take n c

/-- All clauses that are still to come. -/
def toList (c : Cursor) : List Clause := take c.remaining c

theorem next_of_remaining_zero {c : Cursor} (h : c.remaining = 0) : c.next = none := by
  simp [next, h]

end Cursor

end BucketElimination
