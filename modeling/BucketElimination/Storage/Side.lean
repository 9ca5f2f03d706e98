import BucketElimination.Storage.Cursor
set_option autoImplicit false

/-!
# Storage: one side of a bucket

A side is a sequence of chunks, the last of which, the current chunk, receives new clauses.  Growing
a side never moves stored clauses, and whole chunks can be handed from one side to another.
-/

namespace BucketElimination

/-- The clauses of one polarity. -/
structure Side where
  /-- The chunks before the current one. -/
  chunks : Array Chunk
  current : Chunk
  /-- Number of clauses. -/
  size : Nat
  /-- Length of the longest clause that was ever stored. -/
  maxLength : Nat
  deriving DecidableEq

namespace Side

/-- The side without clauses. -/
def empty (capacity : Capacity) : Side := ⟨#[], Chunk.empty capacity, 0, 0⟩

/-- All chunks in storage order. -/
def allChunks (s : Side) : List Chunk := s.chunks.toList ++ [s.current]

/-- All clauses in storage order. -/
def toList (s : Side) : List Clause := s.allChunks.flatMap Chunk.toList

/-- Number of chunks. -/
def chunkCount (s : Side) : Nat := s.chunks.size + 1

/-- Store a clause at the end; a full current chunk is followed by a fresh one of its capacity. -/
def push : Side → Clause → Side
  | ⟨chunks, current, size, maxLength⟩, x =>
    if current.isFull then
      { chunks := chunks.push current
        current := (Chunk.empty current.capacity).push x
        size := size + 1
        maxLength := max maxLength x.length }
    else
      { chunks
        current := current.push x
        size := size + 1
        maxLength := max maxLength x.length }

/-- Remove the last clause of the current chunk; if this empties the chunk, the one before it
becomes current. -/
def pop? : Side → Option (Clause × Side)
  | ⟨chunks, current, size, maxLength⟩ =>
    match current.pop? with
    | none => none
    | some (x, current) =>
      if current.isEmpty then
        match chunks.back? with
        | some previous => some (x, ⟨chunks.pop, previous, size - 1, maxLength⟩)
        | none => some (x, ⟨chunks, current, size - 1, maxLength⟩)
      else some (x, ⟨chunks, current, size - 1, maxLength⟩)

/-- Put a chunk after the current one and make it current. -/
def splice (s : Side) (chunk : Chunk) (_nonempty : chunk.isEmpty = false) : Side where
  chunks := if s.current.isEmpty then s.chunks else s.chunks.push s.current
  current := chunk
  size := s.size + chunk.size
  maxLength := max s.maxLength chunk.maxLength

/-- A cursor over the first `count` clauses. -/
def cursor (s : Side) (count : Nat) : Cursor := Cursor.start s.chunks s.current count

/-- The clauses that a cursor over the whole side passes. -/
def walk (s : Side) : List Clause := (s.cursor s.size).toList

@[simp] theorem toList_empty (capacity : Capacity) : (empty capacity).toList = [] := rfl

/-- The clauses of the current chunk come last. -/
theorem toList_eq_current (s : Side) :
    s.toList = s.chunks.toList.flatMap Chunk.toList ++ s.current.toList := by
  simp [toList, allChunks]

/-- Removing a clause takes the last one of the list and leaves the others. -/
theorem toList_pop? {s t : Side} {x : Clause} (h : s.pop? = some (x, t)) :
    s.toList = t.toList ++ [x] := by
  obtain ⟨chunks, current, size, maxLength⟩ := s
  simp only [pop?] at h
  split at h
  · cases h
  · rename_i y left hpop
    obtain ⟨hback, rfl⟩ := Chunk.pop?_eq_some_iff.1 hpop
    have hcurrent : current.toList = current.pop.toList ++ [y] :=
      Chunk.toList_eq_pop_back hback
    split at h
    · rename_i hempty
      rw [Chunk.isEmpty_iff] at hempty
      split at h
      · rename_i previous hprev
        cases h
        obtain ⟨earlier, hearlier⟩ := Array.back?_eq_some_iff.1 hprev
        simp [toList, allChunks, hearlier, hcurrent, hempty]
      · cases h
        rw [toList_eq_current, toList_eq_current, hcurrent, List.append_assoc]
    · cases h
      rw [toList_eq_current, toList_eq_current, hcurrent, List.append_assoc]

end Side

end BucketElimination
