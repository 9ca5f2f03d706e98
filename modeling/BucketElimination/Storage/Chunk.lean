import BucketElimination.Logic.Clause
set_option autoImplicit false

/-!
# Storage: chunks of clauses

A chunk is a sequence of clauses up to a fixed capacity.  Clauses are appended and removed at its
end; a full chunk takes no more.
-/

namespace BucketElimination

/-- How many clauses a chunk holds at most, at least one. -/
structure Capacity where
  val : Nat
  pos : 0 < val
  deriving DecidableEq, Repr

namespace Capacity

/-- The capacity of a positive number. -/
def ofNat (n : Nat) : Except Fault Capacity :=
  if h : 0 < n then .ok ⟨n, h⟩ else .error .zeroCapacity

/-- The capacity that is used unless another is asked for. -/
def standard : Capacity := ⟨100, by decide⟩

instance : Inhabited Capacity := ⟨standard⟩

end Capacity

/-- A sequence of clauses with a capacity. -/
structure Chunk where
  clauses : Array Clause
  capacity : Capacity
  deriving DecidableEq

namespace Chunk

/-- The chunk without clauses. -/
def empty (capacity : Capacity) : Chunk := ⟨#[], capacity⟩

/-- Number of clauses. -/
def size (c : Chunk) : Nat := c.clauses.size

/-- The chunk has no clause. -/
def isEmpty (c : Chunk) : Bool := c.clauses.isEmpty

/-- The chunk takes no more clauses. -/
def isFull (c : Chunk) : Bool := c.clauses.size == c.capacity.val

/-- The clauses in the order in which they were appended. -/
def toList (c : Chunk) : List Clause := c.clauses.toList

/-- The clause at a position. -/
def get? (c : Chunk) (i : Nat) : Option Clause := c.clauses[i]?

/-- The chunk with a clause put at its end, whether or not there is room. -/
def push (c : Chunk) (x : Clause) : Chunk := { c with clauses := c.clauses.push x }

/-- Append a clause if there is room. -/
def append? (c : Chunk) (x : Clause) : Option Chunk :=
  if c.isFull then none else some (c.push x)

/-- The chunk without its last clause. -/
def pop (c : Chunk) : Chunk := { c with clauses := c.clauses.pop }

/-- The last clause, and the chunk without it. -/
def pop? (c : Chunk) : Option (Clause × Chunk) :=
  match c.clauses.back? with
  | none => none
  | some x => some (x, c.pop)

/-- Keep the clauses that pass a test, in their order. -/
def retain (c : Chunk) (keep : Clause → Bool) : Chunk :=
  { c with clauses := c.clauses.filter keep }

/-- Length of the longest clause, 0 if there is none. -/
def maxLength (c : Chunk) : Nat :=
  c.clauses.foldl (fun n x => max n x.length) 0

@[simp] theorem toList_empty (capacity : Capacity) : (empty capacity).toList = [] := rfl

@[simp] theorem toList_push (c : Chunk) (x : Clause) : (c.push x).toList = c.toList ++ [x] := by
  simp [toList, push]

@[simp] theorem length_toList (c : Chunk) : c.toList.length = c.size := by
  simp [toList, size]

theorem get?_eq (c : Chunk) (i : Nat) : c.get? i = c.toList[i]? := by
  simp [toList, get?]

theorem isEmpty_iff (c : Chunk) : c.isEmpty = true ↔ c.toList = [] := by
  simp [isEmpty, toList]

theorem pop?_eq_some_iff {c d : Chunk} {x : Clause} :
    c.pop? = some (x, d) ↔ c.clauses.back? = some x ∧ d = c.pop := by
  unfold pop?
  cases c.clauses.back? with
  | none => simp
  | some y => simp [eq_comm]

/-- A chunk with a last clause is the chunk without it followed by the clause. -/
theorem toList_eq_pop_back {c : Chunk} {x : Clause} (h : c.clauses.back? = some x) :
    c.toList = c.pop.toList ++ [x] := by
  obtain ⟨ys, hys⟩ := Array.back?_eq_some_iff.1 h
  simp [toList, pop, hys]

end Chunk

end BucketElimination
