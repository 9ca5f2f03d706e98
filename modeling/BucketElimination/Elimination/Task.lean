import BucketElimination.Elimination.Event
import BucketElimination.Logic.Resolution
set_option autoImplicit false

/-!
# Elimination: tasks

To eliminate a variable, each positive clause of its bucket is resolved with each negative one.  The
negative clauses are dealt to tasks, and every task resolves its share with all positive clauses.
It collects its resolvents in buckets of its own, and when it is through it merges these into the
shared row, one bucket at a time.  A task that derives the empty clause, or is told to stop, merges
nothing.
-/

namespace BucketElimination

/-! ## Dealing the negative clauses -/

/-- Deal a list to `parts` hands in turn. -/
def deal {α : Type} (parts : Nat) (xs : List α) : List (List α) :=
  let hands := xs.foldl
    (fun (acc : Nat × Array (Array α)) x => (acc.1 + 1, acc.2.modify (acc.1 % parts) (·.push x)))
    (0, Array.replicate parts #[])
  (hands.2.map Array.toList).toList

/-- Deal the negative clauses of a bucket to at most `parts` hands, none of them empty. -/
def Bucket.dealNegatives (b : Bucket) (parts : Nat) : Except Fault (List (List Clause)) :=
  let count := b.size .negative
  if parts = 0 ∧ 0 < count then .error .noParts
  else .ok (deal (min parts count) (b.clauses .negative))

/-! ## Resolving -/

/-- A share of the work on a bucket. -/
structure Task where
  /-- The bucket whose variable is eliminated. -/
  bucket : Bucket
  /-- The negative clauses of this share. -/
  negatives : List Clause
  /-- Seed for the order of merging; without one the buckets are merged by ascending variable. -/
  shuffleSeed : Option UInt64

/-- How tasks with a seed order the buckets that they merge.  The order depends on the generator
that the seed starts and on how the task's map lists its buckets; whatever these are, no bucket is
lost and none is merged twice. -/
structure Shuffler where
  arrange : Task → List Bucket → List Bucket
  arrange_perm : ∀ t buckets, (arrange t buckets).Perm buckets

/-- Leave the buckets in the order in which they are listed. -/
def Shuffler.asListed : Shuffler where
  arrange _ buckets := buckets
  arrange_perm _ buckets := List.Perm.refl buckets

instance : Inhabited Shuffler := ⟨Shuffler.asListed⟩

/-- How a task ended. -/
inductive Ending where
  /-- All resolvents were merged. -/
  | finished
  /-- The empty clause was derived. -/
  | unsat
  /-- The task was told to stop. -/
  | cancelled
  deriving DecidableEq, Repr

/-- What a task reports. -/
structure Outcome where
  ending : Ending
  stats : TaskStats
  deriving DecidableEq, Repr

namespace Task

/-- The resolvents of a task so far. -/
structure Harvest where
  /-- Buckets by the number of their variable. -/
  buckets : Std.TreeMap Nat Bucket
  stats : TaskStats

namespace Harvest

/-- No resolvents. -/
def empty : Harvest := ⟨∅, TaskStats.zero⟩

/-- One more tautology was met. -/
def countTautology (h : Harvest) : Harvest :=
  { h with stats := { h.stats with tautologies := h.stats.tautologies + 1 } }

/-- The bucket with a number, if there is one, and the harvest without it.  A bucket that was taken
out can be changed in place and is put back with `put`. -/
@[noinline] def takeOut : Harvest → Nat → Option Bucket × Harvest
  | ⟨buckets, stats⟩, number => (buckets.get? number, ⟨buckets.erase number, stats⟩)

/-- Put in a bucket to which a resolvent was added, new or not. -/
def put : Harvest → Bucket → Bool → Harvest
  | ⟨buckets, stats⟩, bucket, new =>
    { buckets := buckets.insert bucket.var.number bucket
      stats := { stats with
        resolvents := stats.resolvents + 1
        duplicates := if new then stats.duplicates else stats.duplicates + 1 } }

/-- The buckets by ascending variable. -/
def toList (h : Harvest) : List Bucket := h.buckets.toList.map Prod.snd

end Harvest

/-- Keep a resolvent in the task's own bucket of its pivot. -/
def keep (t : Task) (lits : List Lit) (h : Harvest) : Except Fault Harvest :=
  let order := t.bucket.order
  match order.pivot? lits with
  | none => .error .noPivot
  | some pivot =>
    if order.precedes t.bucket.var pivot.var then
      match Clause.ofLits lits with
      | .error f => .error f
      | .ok c =>
        let (found, h) := h.takeOut pivot.var.number
        let bucket := found.getD (Bucket.empty pivot.var order t.bucket.capacity)
        match bucket.add c pivot.polarity with
        | .error f => .error f
        | .ok (bucket, new) => .ok (h.put bucket new)
    else .error .pivotNotLater

/-- Resolve a positive clause with negative ones; the result says whether the empty clause was
derived, which stops the task. -/
def resolveWith (t : Task) (positive : Clause) :
    List Clause → Harvest → Except Fault (Bool × Harvest)
  | [], h => .ok (false, h)
  | negative :: negatives, h =>
    match resolve t.bucket.order positive.lits negative.lits with
    | .error f => .error f
    | .ok .empty => .ok (true, h)
    | .ok (.tautology _) => t.resolveWith positive negatives h.countTautology
    | .ok (.clause lits) =>
      match t.keep lits h with
      | .error f => .error f
      | .ok h => t.resolveWith positive negatives h

/-- Resolve positive clauses with all negative ones of the task.  Before the `i`-th clause the task
looks whether it was told to stop, which is what `stop i` says. -/
def resolveFrom (t : Task) (stop : Nat → Bool) :
    Nat → List Clause → Harvest → Except Fault (Ending × Harvest)
  | _, [], h => .ok (.finished, h)
  | i, positive :: positives, h =>
    if stop i then .ok (.cancelled, h)
    else
      match t.resolveWith positive t.negatives h with
      | .error f => .error f
      | .ok (true, h) => .ok (.unsat, h)
      | .ok (false, h) => t.resolveFrom stop (i + 1) positives h

/-- Resolve all positive clauses of the bucket with the task's negative ones. -/
def resolveAll (t : Task) (stop : Nat → Bool) : Except Fault (Ending × Harvest) :=
  t.resolveFrom stop 0 (t.bucket.clauses .positive) Harvest.empty

/-! ## Merging -/

/-- The buckets in the order in which they are merged. -/
def arrange (t : Task) (shuffler : Shuffler) (buckets : List Bucket) : List Bucket :=
  if t.shuffleSeed.isSome then shuffler.arrange t buckets else buckets

/-- The buckets of a harvest are merged in some order. -/
theorem arrange_perm (t : Task) (shuffler : Shuffler) (buckets : List Bucket) :
    (t.arrange shuffler buckets).Perm buckets := by
  unfold arrange
  split
  · exact shuffler.arrange_perm t buckets
  · exact List.Perm.refl _

/-- Without a seed they are merged as they are listed. -/
theorem arrange_of_unseeded {t : Task} (shuffler : Shuffler) (h : t.shuffleSeed = none)
    (buckets : List Bucket) : t.arrange shuffler buckets = buckets := by
  simp [arrange, h]

/-- A row into which buckets are merged. -/
structure Merge where
  row : Row
  dropped : Nat
  journal : Journal

/-- Merge one bucket into the row. -/
def Merge.step (m : Merge) (bucket : Bucket) : Merge × Except Fault Unit :=
  match m.row.get bucket.var with
  | .error f => (m, .error f)
  | .ok target =>
    let count := bucket.size .positive + bucket.size .negative
    let present := target.duplicateCount bucket
    match m.row.unite bucket with
    | (row, .error f) => ({ m with row }, .error f)
    | (row, .ok dropped) =>
      ({ row
         dropped := m.dropped + dropped
         journal := m.journal.push (.merging count bucket.var present) }, .ok ())

/-- Merge buckets one after the other, up to the first fault. -/
def Merge.run : List Bucket → Merge → Merge × Except Fault Unit
  | [], m => (m, .ok ())
  | bucket :: buckets, m =>
    match m.step bucket with
    | (m, .error f) => (m, .error f)
    | (m, .ok ()) => Merge.run buckets m

/-- Do the whole task on a shared row.  Besides the outcome the result has the row and the journal
afterwards. -/
def run (t : Task) (shuffler : Shuffler) (stop : Nat → Bool) (row : Row) (journal : Journal) :
    (Row × Journal) × Except Fault Outcome :=
  match t.resolveAll stop with
  | .error f => ((row, journal), .error f)
  | .ok (.finished, h) =>
    match Merge.run (t.arrange shuffler h.toList) ⟨row, 0, journal⟩ with
    | (m, .error f) => ((m.row, m.journal), .error f)
    | (m, .ok ()) =>
      let stats := { h.stats with duplicates := h.stats.duplicates + m.dropped }
      ((m.row, m.journal), .ok ⟨.finished, stats⟩)
  | .ok (ending, h) => ((row, journal), .ok ⟨ending, h.stats⟩)

end Task

end BucketElimination
