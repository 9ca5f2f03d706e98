import BucketElimination.Logic.Order
import BucketElimination.Storage.DuplicateIndex
import BucketElimination.Storage.Side
set_option autoImplicit false

/-!
# Storage: buckets

A bucket holds the clauses whose pivot is its variable, on two sides by the polarity of the pivot.
It stores no clause twice: an index of all its clauses refuses a second copy.
-/

namespace BucketElimination

/-- The clauses with a common pivot variable. -/
structure Bucket where
  var : Var
  order : Order
  /-- The pivot of the clause stored last. -/
  key : Option Lit
  positive : Side
  negative : Side
  index : DuplicateIndex

/-- More clauses were asked for than a side of a bucket has. -/
structure BoundError where
  bucket : Var
  side : Polarity
  requested : Nat
  available : Nat
  deriving DecidableEq, Repr

/-- The text of the error. -/
def BoundError.message (e : BoundError) : String :=
  s!"Requested {e.requested} {e.side.name} clauses of bucket {e.bucket}, "
    ++ s!"but only {e.available} are stored"

namespace Bucket

/-- The bucket of a variable without clauses. -/
def empty (var : Var) (order : Order) (capacity : Capacity) : Bucket where
  var := var
  order := order
  key := none
  positive := Side.empty capacity
  negative := Side.empty capacity
  index := DuplicateIndex.empty

instance : Inhabited Bucket := ⟨empty default default default⟩

/-- The side of a polarity. -/
def side (b : Bucket) : Polarity → Side
  | .positive => b.positive
  | .negative => b.negative

/-- The bucket with one side replaced. -/
def setSide (b : Bucket) (p : Polarity) (s : Side) : Bucket :=
  match p with
  | .positive => { b with positive := s }
  | .negative => { b with negative := s }

/-- One side, and the bucket with that side empty.  A side that was detached can be changed in place
and is put back with `setSide`. -/
def detach : Bucket → Polarity → Side × Bucket
  | ⟨var, order, key, positive, negative, index⟩, .positive =>
    (positive, ⟨var, order, key, Side.empty .standard, negative, index⟩)
  | ⟨var, order, key, positive, negative, index⟩, .negative =>
    (negative, ⟨var, order, key, positive, Side.empty .standard, index⟩)

/-- The capacity of new chunks on the positive side. -/
def capacity (b : Bucket) : Capacity := b.positive.current.capacity

/-- A bucket with the same variable, order and capacity, and no clauses. -/
def emptied (b : Bucket) : Bucket := empty b.var b.order b.capacity

/-- Number of clauses of a polarity. -/
def size (b : Bucket) (p : Polarity) : Nat := (b.side p).size

/-- Length of the longest clause of a polarity that was ever stored. -/
def maxLength (b : Bucket) (p : Polarity) : Nat := (b.side p).maxLength

/-- Number of chunks of a polarity. -/
def chunkCount (b : Bucket) (p : Polarity) : Nat := (b.side p).chunkCount

/-- The bucket has no clause. -/
def isEmpty (b : Bucket) : Bool := b.positive.size == 0 && b.negative.size == 0

/-- The clauses of a polarity in storage order. -/
def clauses (b : Bucket) (p : Polarity) : List Clause := (b.side p).walk

/-- All clauses, the positive ones first. -/
def allClauses (b : Bucket) : List Clause := Polarity.all.flatMap b.clauses

/-- A cursor over the first `count` clauses of a polarity. -/
def cursor (b : Bucket) (count : Nat) (p : Polarity) : Except BoundError Cursor :=
  if b.size p < count then
    .error ⟨b.var, p, count, b.size p⟩
  else .ok ((b.side p).cursor count)

/-- The pivot of a clause, which must belong on the given side of this bucket. -/
def pivotOn (b : Bucket) (c : Clause) (p : Polarity) : Except Fault Lit :=
  match b.order.pivot? c.lits with
  | none => .error .noPivot
  | some pivot =>
    if pivot.var = b.var ∧ pivot.polarity = p then .ok pivot
    else .error (.misfiled c.lits p b.var)

/-- Store a clause with its pivot unless it is a duplicate; the result says whether it was new. -/
def store : Bucket → Clause → Lit → Bucket × Bool
  | ⟨var, order, key, positive, negative, index⟩, c, pivot =>
    match index.insert c with
    | (index, false) => (⟨var, order, key, positive, negative, index⟩, false)
    | (index, true) =>
      match pivot.polarity with
      | .positive => (⟨var, order, some pivot, positive.push c, negative, index⟩, true)
      | .negative => (⟨var, order, some pivot, positive, negative.push c, index⟩, true)

/-- Store a clause on a side, which must be that of its pivot; the result says whether it was
new. -/
def add (b : Bucket) (c : Clause) (p : Polarity) : Except Fault (Bucket × Bool) :=
  match b.pivotOn c p with
  | .error f => .error f
  | .ok pivot => .ok (b.store c pivot)

/-- Remove the last clause of a polarity. -/
def pop (b : Bucket) (p : Polarity) : Except Fault (Bucket × Clause) :=
  let (side, b) := b.detach p
  match side.pop? with
  | none => .error (.sideEmpty p b.var)
  | some (c, side) =>
    .ok ({ b with index := (b.index.erase c.lits).1 }.setSide p side, c)

/-! ## Union -/

/-- A side that takes over clauses, with the index of its bucket. -/
structure Intake where
  index : DuplicateIndex
  side : Side
  /-- How many clauses were refused as duplicates. -/
  dropped : Nat

namespace Intake

/-- Take over one clause unless it is a duplicate. -/
def take : Intake → Clause → Intake
  | ⟨index, side, dropped⟩, c =>
    match index.insert c with
    | (index, true) => ⟨index, side.push c, dropped⟩
    | (index, false) => ⟨index, side, dropped + 1⟩

/-- Take over clauses from the end of another side until the current chunk is full or the other
side is used up.  The result has what is left of the other side, if the chunk is full. -/
def fill (i : Intake) (source : Side) : Intake × Option Side :=
  if i.side.current.isFull then (i, some source)
  else
    match _hpop : source.pop? with
    | none => (i, none)
    | some (c, rest) => fill (i.take c) rest
termination_by source.toList.length
decreasing_by
  have hpop : source.pop? = some (c, rest) := ‹_›
  rw [Side.toList_pop? hpop, List.length_append, List.length_singleton]
  exact Nat.lt_succ_self _

/-- Of a list of clauses keep those that are not in the index, and put them in. -/
def keepNew : DuplicateIndex → List Clause → DuplicateIndex × List Clause
  | index, [] => (index, [])
  | index, c :: cs =>
    match index.insert c with
    | (index, true) =>
      let (index, kept) := keepNew index cs
      (index, c :: kept)
    | (index, false) => keepNew index cs

/-- Take over a chunk as a whole, without its duplicates. -/
def takeChunk (i : Intake) (chunk : Chunk) : Intake :=
  let (index, kept) := keepNew i.index chunk.toList
  let left : Chunk := { chunk with clauses := kept.toArray }
  let dropped := i.dropped + (chunk.size - left.size)
  if h : left.isEmpty = false then ⟨index, i.side.splice left h, dropped⟩
  else ⟨index, i.side, dropped⟩

/-- Take over all clauses of another side: fill up the current chunk, then move whole chunks. -/
def takeSide (i : Intake) (source : Side) : Intake :=
  match i.fill source with
  | (i, none) => i
  | (i, some source) => source.allChunks.foldl takeChunk i

end Intake

/-- Take over one side of another bucket; the result has the number of duplicates. -/
def absorb (b : Bucket) (p : Polarity) (source : Side) : Bucket × Nat :=
  let (side, b) := b.detach p
  let i := Intake.takeSide ⟨b.index, side, 0⟩ source
  ({ b with index := i.index }.setSide p i.side, i.dropped)

/-- Take over both sides of another bucket, whose key becomes the key if it has one; the result has
the number of duplicates. -/
def absorbSides (b other : Bucket) : Bucket × Nat :=
  let b := { b with key := other.key.or b.key }
  let (b, positives) := b.absorb .positive other.positive
  let (b, negatives) := b.absorb .negative other.negative
  (b, positives + negatives)

/-- Take over all clauses of another bucket of the same variable; the result has the number of
duplicates, which are dropped. -/
def union (b other : Bucket) : Except Fault (Bucket × Nat) :=
  if b.var = other.var then .ok (b.absorbSides other) else .error .unionMismatch

/-- Number of clauses of another bucket that are stored here too. -/
def duplicateCount (b other : Bucket) : Nat :=
  other.allClauses.countP fun c => b.index.contains c.lits

@[simp] theorem side_setSide_self (b : Bucket) (p : Polarity) (s : Side) :
    (b.setSide p s).side p = s := by
  cases p <;> rfl

theorem side_setSide_of_ne (b : Bucket) {p q : Polarity} (h : q ≠ p) (s : Side) :
    (b.setSide p s).side q = b.side q := by
  cases p <;> cases q <;> first | rfl | exact absurd rfl h

@[simp] theorem var_setSide (b : Bucket) (p : Polarity) (s : Side) :
    (b.setSide p s).var = b.var := by
  cases p <;> rfl

@[simp] theorem order_setSide (b : Bucket) (p : Polarity) (s : Side) :
    (b.setSide p s).order = b.order := by
  cases p <;> rfl

@[simp] theorem index_setSide (b : Bucket) (p : Polarity) (s : Side) :
    (b.setSide p s).index = b.index := by
  cases p <;> rfl

end Bucket

end BucketElimination
