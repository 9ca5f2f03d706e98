import BucketElimination.Storage.Printer
set_option autoImplicit false

/-!
# Storage: one bucket per variable

A row has the bucket of variable `i + 1` at position `i`.  A clause given as any list of literals is
loaded by bringing it into canonical form and filing it in the bucket of its pivot.  An operation
that changes a row returns it together with its result; a fault leaves the row as it was.
-/

namespace BucketElimination

/-- Buckets for the variables from 1 on. -/
structure Row where
  buckets : Array Bucket

namespace Row

/-- The row without buckets. -/
def empty : Row := ⟨#[]⟩

instance : Inhabited Row := ⟨empty⟩

/-- Number of buckets. -/
def size (r : Row) : Nat := r.buckets.size

/-- There are no buckets. -/
def isEmpty (r : Row) : Bool := r.buckets.isEmpty

/-- Append `n` empty buckets for the variables that follow, as far as there are variables. -/
def extend (order : Order) (capacity : Capacity) : Nat → Row → Row
  | 0, r => r
  | n + 1, r =>
    match Var.ofIndex? r.size with
    | none => r
    | some v => extend order capacity n ⟨r.buckets.push (Bucket.empty v order capacity)⟩

/-- Empty buckets for the variables 1 to `count`. -/
def ofCount (order : Order) (capacity : Capacity) (count : Nat) : Row :=
  extend order capacity count empty

/-- The bucket of a variable. -/
def get (r : Row) (v : Var) : Except Fault Bucket :=
  match r.buckets[v.index]? with
  | some b => .ok b
  | none => .error .noSuchBucket

/-- Replace the bucket of a variable. -/
def set (r : Row) (v : Var) (b : Bucket) : Row := ⟨r.buckets.setIfInBounds v.index b⟩

/-- Take the bucket of a variable out and leave an empty one. -/
def take (r : Row) (v : Var) : Row × Except Fault Bucket :=
  match r.get v with
  | .error f => (r, .error f)
  | .ok b => (r.set v b.emptied, .ok b)

/-- The bucket of a variable, and the row with another bucket in its place.  A bucket that was taken
out can be changed in place and is put back with `set`. -/
@[noinline] def takeOut (r : Row) (v : Var) (h : v.index < r.buckets.size) : Bucket × Row :=
  let (b, buckets) := r.buckets.swapAt v.index default h
  (b, ⟨buckets⟩)

/-- Change the bucket of a variable, with a result besides. -/
def update {α : Type} (r : Row) (v : Var) (change : Bucket → Bucket × α) : Row × Except Fault α :=
  if h : v.index < r.buckets.size then
    let (b, r) := r.takeOut v h
    let (b, result) := change b
    (r.set v b, .ok result)
  else (r, .error .noSuchBucket)

/-- Store a clause in the bucket of a variable on the side of its pivot; the result says whether
it was new. -/
def add (r : Row) (v : Var) (c : Clause) (p : Polarity) : Row × Except Fault Bool :=
  match (r.get v).bind fun b => b.pivotOn c p with
  | .error f => (r, .error f)
  | .ok pivot => r.update v fun b => b.store c pivot

/-- Unite a bucket with the one of the same variable; the result has the number of duplicates. -/
def unite (r : Row) (other : Bucket) : Row × Except Fault Nat :=
  match (r.get other.var).map Bucket.var with
  | .error f => (r, .error f)
  | .ok v =>
    if v = other.var then r.update v fun b => b.absorbSides other
    else (r, .error .unionMismatch)

/-- The text of all buckets that have clauses. -/
def dump (r : Row) : String :=
  String.join ((r.buckets.toList.filter fun b => !b.isEmpty).map Bucket.dump)

/-! ## Loading -/

/-- What became of a loaded clause. -/
inductive Loaded where
  /-- It was stored in the bucket of its pivot. -/
  | filed
  /-- The bucket had it already. -/
  | duplicate
  /-- It holds a literal and its complement, and was left out. -/
  | tautology
  /-- It has no literals, so nothing satisfies it. -/
  | empty
  deriving DecidableEq, Repr

/-- File a clause under its pivot; the result says whether it was new. -/
def file (order : Order) (r : Row) (c : Clause) : Row × Except Fault Bool :=
  match order.pivot? c.lits with
  | none => (r, .error .noPivot)
  | some pivot => r.add pivot.var c pivot.polarity

/-- Load a clause given as any list of literals. -/
def load (order : Order) (r : Row) (lits : List Lit) : Row × Except Fault Loaded :=
  match canonicalize lits with
  | none => (r, .ok .tautology)
  | some [] => (r, .ok .empty)
  | some canonical =>
    match Clause.ofLits canonical with
    | .error f => (r, .error f)
    | .ok c =>
      match r.file order c with
      | (r, .error f) => (r, .error f)
      | (r, .ok true) => (r, .ok .filed)
      | (r, .ok false) => (r, .ok .duplicate)

/-- A bucket is changed by taking its changed value in its place. -/
theorem update_eq {α : Type} (r : Row) (v : Var) (change : Bucket → Bucket × α) :
    r.update v change =
      match r.get v with
      | .error f => (r, .error f)
      | .ok b => (r.set v (change b).1, .ok (change b).2) := by
  unfold update takeOut get
  by_cases h : v.index < r.buckets.size
  · simp [h, set, Array.swapAt_def, Array.setIfInBounds]
  · simp [h]

@[simp] theorem size_set (r : Row) (v : Var) (b : Bucket) : (r.set v b).size = r.size := by
  simp [set, size]

end Row

end BucketElimination
