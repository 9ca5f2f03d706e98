import BucketElimination.Logic.Order
import BucketElimination.Storage.Chunk
set_option autoImplicit false

/-!
# Config: the settings of the solver

A configuration is changed by updates, which set some of its fields and leave the others.  Updates
are merged, the later one taking precedence, before they are applied.
-/

namespace BucketElimination

/-- The settings of the solver. -/
structure Config where
  /-- Number of workers, 0 for as many as the machine can run at once. -/
  workerCount : Nat
  /-- Capacity of the chunks in the buckets. -/
  chunkCapacity : Capacity
  /-- The order in which variables are eliminated. -/
  order : Order
  /-- Workers hand over their resolvents in shuffled order. -/
  shuffle : Bool
  /-- Seed of the shuffling. -/
  seed : UInt64
  deriving DecidableEq, Repr

namespace Config

/-- The settings before any update. -/
def standard : Config where
  workerCount := 0
  chunkCapacity := Capacity.standard
  order := .descending
  shuffle := true
  seed := 0

instance : Inhabited Config := ⟨standard⟩

/-- Number of workers to start on a machine that runs `parallelism` at once. -/
def workers (config : Config) (parallelism : Nat) : Nat :=
  if 0 < config.workerCount then config.workerCount else max 1 parallelism

theorem workers_pos (config : Config) (parallelism : Nat) : 0 < config.workers parallelism := by
  unfold workers
  split <;> omega

/-! ## Names and descriptions -/

/-- An option as it is described to users. -/
structure Description where
  name : String
  meaning : String
  standard : String

/-- All options with their standard values. -/
def descriptions : List Description :=
  [ ⟨"worker_count", "Number of worker threads, 0 uses the available parallelism.",
      toString standard.workerCount⟩,
    ⟨"chunk_capacity", "Number of clauses stored in one chunk of a bucket.",
      toString standard.chunkCapacity.val⟩,
    ⟨"elimination_order",
      "Order in which variables are eliminated, \"descending\" or \"ascending\".",
      standard.order.name⟩,
    ⟨"shuffle_redistribution",
      "Merge the resolvents of a worker into the shared buckets in random order.",
      toString standard.shuffle⟩,
    ⟨"seed", "Seed for the redistribution order.", toString standard.seed⟩ ]

/-- Three lines per option. -/
def helpLines : List String :=
  descriptions.flatMap fun d =>
    [d.name ++ ":", "    " ++ d.meaning, "    (Default: " ++ d.standard ++ ")"]

/-- The description of all options. -/
def help : String := String.join (helpLines.map (· ++ "\n"))

end Config

/-! ## Updates -/

/-- New values for some of the settings. -/
structure Update where
  workerCount : Option Nat
  chunkCapacity : Option Nat
  order : Option Order
  shuffle : Option Bool
  seed : Option UInt64
  deriving DecidableEq, Repr

namespace Update

/-- The update that changes nothing. -/
def empty : Update := ⟨none, none, none, none, none⟩

instance : Inhabited Update := ⟨empty⟩

/-- Both updates in one, where the values of the second take precedence. -/
def merge (u later : Update) : Update where
  workerCount := later.workerCount.or u.workerCount
  chunkCapacity := later.chunkCapacity.or u.chunkCapacity
  order := later.order.or u.order
  shuffle := later.shuffle.or u.shuffle
  seed := later.seed.or u.seed

/-- The settings after the update, with the given capacity of chunks. -/
def applyWith (u : Update) (config : Config) (capacity : Capacity) : Config where
  workerCount := u.workerCount.getD config.workerCount
  chunkCapacity := capacity
  order := u.order.getD config.order
  shuffle := u.shuffle.getD config.shuffle
  seed := u.seed.getD config.seed

/-- The settings after the update, or `none` if it asks for chunks that hold nothing. -/
def applyTo? (u : Update) (config : Config) : Option Config :=
  match u.chunkCapacity with
  | none => some (u.applyWith config config.chunkCapacity)
  | some n => if h : 0 < n then some (u.applyWith config ⟨n, h⟩) else none

end Update

end BucketElimination
