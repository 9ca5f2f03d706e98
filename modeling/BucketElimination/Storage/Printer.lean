import BucketElimination.Storage.Bucket
set_option autoImplicit false

/-!
# Storage: the text of a bucket

One line for the bucket, and for each side a line with its numbers and one line per chunk, on which
each clause stands in parentheses.
-/

namespace BucketElimination

/-- A clause in parentheses, its literals divided by spaces. -/
def Clause.dump (c : Clause) : String :=
  "(" ++ " ".intercalate (c.lits.map toString) ++ ")"

/-- The line of a chunk with its number. -/
def Chunk.dump (number : Nat) (chunk : Chunk) : String :=
  s!"    chunk {number}:" ++ String.join (chunk.toList.map fun c => " " ++ c.dump) ++ "\n"

/-- The lines of a side. -/
def Side.dump (p : Polarity) (s : Side) : String :=
  s!"  {p.name} clauses: {s.size} in {s.chunkCount} chunks, max length {s.maxLength}\n"
    ++ String.join (s.allChunks.mapIdx Chunk.dump)

/-- The lines of a bucket. -/
def Bucket.dump (b : Bucket) : String :=
  s!"bucket {b.var}:\n" ++ String.join (Polarity.all.map fun p => (b.side p).dump p)

end BucketElimination
