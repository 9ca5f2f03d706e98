import BucketElimination.Elimination.Sweep
import Mathlib.Data.List.Perm.Basic
set_option autoImplicit false

/-!
# The machine: scheduler and workers in any interleaving

Eliminating a variable involves a scheduler, which takes the bucket, submits the tasks and receives
their results, and workers, which run the tasks side by side.  `Machine` makes the progress of each
of them explicit, and a move is what one of them does without another seeing anything in between:
the scheduler submits one task or receives one result, a worker begins with the oldest job, resolves
one positive clause, or merges one bucket into the shared row.  Resolving touches nothing shared but
the flag that asks to stop, which is read before each positive clause.

A schedule is a list of actions, and `follow?` carries one out as far as it is possible.  Every
order in which the parties can move is a schedule; the order in which each task runs from beginning
to end before the next is only one of them.  A worker whose task shuffles may merge any of the
buckets that it has left, and the action says which, so whatever order a generator draws is among
the schedules too.
-/

namespace BucketElimination

/-! ## Workers -/

namespace Task

/-- The place of the bucket that is merged next.  A task that shuffles may take any of its buckets;
otherwise the first is taken. -/
def place (t : Task) (choice : Nat) (pending : List Bucket) : Nat :=
  if t.shuffleSeed.isSome ∧ choice < pending.length then choice else 0

/-- The bucket that is merged next, and those that are left then. -/
def pick (t : Task) (choice : Nat) (pending : List Bucket) : Option (Bucket × List Bucket) :=
  match pending[t.place choice pending]? with
  | none => none
  | some bucket => some (bucket, pending.eraseIdx (t.place choice pending))

variable {t : Task} {choice : Nat} {pending rest : List Bucket} {bucket : Bucket}

theorem place_lt (hne : pending ≠ []) : t.place choice pending < pending.length := by
  have hpos := List.length_pos_iff.2 hne
  unfold place
  split <;> omega

/-- Whatever the choice, a bucket is taken as long as there is one. -/
theorem pick_eq_none_iff : t.pick choice pending = none ↔ pending = [] := by
  constructor
  · intro h
    refine Classical.byContradiction fun hne => ?_
    rw [pick, List.getElem?_eq_getElem (place_lt hne)] at h
    cases h
  · rintro rfl
    rfl

/-- Taking a bucket only takes it out. -/
theorem perm_of_pick (h : t.pick choice pending = some (bucket, rest)) :
    pending.Perm (bucket :: rest) := by
  unfold pick at h
  split at h
  · cases h
  · rename_i hget
    cases h
    obtain ⟨hlt, rfl⟩ := List.getElem?_eq_some_iff.1 hget
    exact (List.getElem_cons_eraseIdx_perm hlt).symm

/-- Some choice takes the bucket at the head of a list that has the same buckets, if the task
shuffles; the first bucket is taken anyway. -/
theorem exists_pick (hperm : pending.Perm (bucket :: rest))
    (hlisted : t.shuffleSeed = none → pending = bucket :: rest) :
    ∃ choice rest', t.pick choice pending = some (bucket, rest') ∧ rest'.Perm rest ∧
      (t.shuffleSeed = none → rest' = rest) := by
  cases hseed : t.shuffleSeed with
  | none =>
    rw [hlisted hseed]
    exact ⟨0, rest, by simp [pick, place], List.Perm.refl _, fun _ => rfl⟩
  | some seed =>
    obtain ⟨choice, hlt, hget⟩ := List.getElem_of_mem (hperm.mem_iff.2 List.mem_cons_self)
    refine ⟨choice, pending.eraseIdx choice, ?_, ?_, nofun⟩
    · simp [pick, place, hseed, hlt, hget]
    · refine List.Perm.cons_inv (a := bucket) ?_
      rw [← hget]
      exact (List.getElem_cons_eraseIdx_perm hlt).trans (hget ▸ hperm)

end Task

/-- How far a worker is with its task. -/
inductive Phase where
  /-- These positive clauses are still to be resolved. -/
  | resolving (positives : List Clause) (harvest : Task.Harvest)
  /-- These buckets are still to be merged; `dropped` clauses were there already. -/
  | merging (stats : TaskStats) (pending : List Bucket) (dropped : Nat)

/-- A worker with the ticket of its job. -/
structure Worker where
  ticket : Nat
  task : Task
  phase : Phase

namespace Worker

/-- A worker that has just begun with a job. -/
def fresh (job : Nat × Task) : Worker where
  ticket := job.1
  task := job.2
  phase := .resolving (job.2.bucket.clauses .positive) .empty

/-- What one move of a worker leads to. -/
inductive Progress where
  /-- The worker goes on. -/
  | onward (phase : Phase)
  /-- The worker is through with its job. -/
  | ended (result : Except Fault Outcome)

/-- One move of a worker on the shared row and journal; `choice` is the place of the bucket that a
shuffling worker merges. -/
def advance (w : Worker) (choice : Nat) (cancelled : Bool) (row : Row) (journal : Journal) :
    (Row × Journal) × Progress :=
  match w.phase with
  | .resolving [] h => ((row, journal), .onward (.merging h.stats h.toList 0))
  | .resolving (positive :: positives) h =>
    if cancelled then ((row, journal), .ended (.ok ⟨.cancelled, h.stats⟩))
    else
      match w.task.resolveWith positive w.task.negatives h with
      | .error f => ((row, journal), .ended (.error f))
      | .ok (true, h) => ((row, journal), .ended (.ok ⟨.unsat, h.stats⟩))
      | .ok (false, h) => ((row, journal), .onward (.resolving positives h))
  | .merging stats pending dropped =>
    match w.task.pick choice pending with
    | none =>
      ((row, journal),
        .ended (.ok ⟨.finished, { stats with duplicates := stats.duplicates + dropped }⟩))
    | some (bucket, rest) =>
      match Task.Merge.step ⟨row, dropped, journal⟩ bucket with
      | (m, .error f) => ((m.row, m.journal), .ended (.error f))
      | (m, .ok ()) => ((m.row, m.journal), .onward (.merging stats rest m.dropped))

end Worker

/-! ## The machine -/

/-- What the scheduler is about to do for the variable that is being eliminated. -/
inductive Stage where
  /-- Take the bucket out of the row. -/
  | taking
  /-- Submit these tasks out of `total`. -/
  | submitting (bucket : Var) (tasks : List Task) (total : Nat)
  /-- Receive `left` more results out of `total`. -/
  | collecting (bucket : Var) (total left : Nat)
  /-- Nothing more; the result says whether the empty clause was derived. -/
  | returned (result : Except Fault Bool)

/-- The scheduler, the state of the sweep that it shares with the workers, and the busy workers. -/
structure Machine where
  stage : Stage
  sweep : Sweep
  workers : List Worker

/-- Who moves next. -/
inductive Action where
  | schedule
  /-- A free worker begins with the oldest job. -/
  | start
  /-- The busy worker at a position moves; if it merges and shuffles, it takes the chosen bucket. -/
  | work (position choice : Nat)
  deriving DecidableEq, Repr

namespace Machine

/-- The scheduler takes the bucket of the variable and deals its negative clauses. -/
def takeBucket (config : Config) (step : Nat) (v : Var) (m : Machine) : Machine :=
  match m.sweep.row.take v with
  | (row, .error f) => { m with stage := .returned (.error f), sweep := { m.sweep with row } }
  | (row, .ok bucket) =>
    let s := { m.sweep with row }.note (.bucketTaken bucket)
    let positive := bucket.size .positive
    let negative := bucket.size .negative
    if positive = 0 ∨ negative = 0 then
      let stats := { s.stats with bucketsSkipped := s.stats.bucketsSkipped + 1 }
      { m with
        stage := .returned (.ok false)
        sweep := { s with stats }.note (.nothingToResolve v positive negative) }
    else
      match bucket.dealNegatives s.pool.size with
      | .error f => { m with stage := .returned (.error f), sweep := s }
      | .ok hands =>
        let s := s.note (.resolving bucket.var positive negative hands.length)
        if s.pool.cancelled then
          { m with stage := .returned (.error (.dispatchedAfterCancel bucket.var)), sweep := s }
        else
          { m with
            stage := .submitting bucket.var (Sweep.tasks config step bucket hands) hands.length
            sweep := s }

/-- The scheduler looks at a result that it has received; `left` others are still to come. -/
def inspect (bucket : Var) (total left : Nat) (outcome : Outcome) (m : Machine) : Machine :=
  let s := { m.sweep with stats := m.sweep.stats.absorb outcome.stats }
  match outcome.ending with
  | .unsat =>
    { m with
      stage := .returned (.ok true)
      sweep := { s with pool := s.pool.cancel }.note (.emptyClauseDerived bucket) }
  | .cancelled => { m with stage := .returned (.error (.taskStopped bucket)), sweep := s }
  | .finished =>
    { m with
      stage := .collecting bucket total left
      sweep := s.note (.taskFinished bucket (total - left) total) }

/-- The scheduler moves, unless it waits for a result or has returned. -/
def schedule? (config : Config) (step : Nat) (v : Var) (m : Machine) : Option Machine :=
  match m.stage with
  | .taking => some (m.takeBucket config step v)
  | .submitting bucket (task :: tasks) total =>
    some { m with
      stage := .submitting bucket tasks total
      sweep := { m.sweep with pool := m.sweep.pool.submit task } }
  | .submitting bucket [] total => some { m with stage := .collecting bucket total total }
  | .collecting _ _ 0 =>
    let stats := { m.sweep.stats with bucketsEliminated := m.sweep.stats.bucketsEliminated + 1 }
    some { m with stage := .returned (.ok false), sweep := { m.sweep with stats } }
  | .collecting bucket total (left + 1) =>
    match m.sweep.pool.receive? with
    | none => none
    | some (.error f, pool) =>
      some { m with stage := .returned (.error f), sweep := { m.sweep with pool } }
    | some (.ok outcome, pool) =>
      some ({ m with sweep := { m.sweep with pool } }.inspect bucket total left outcome)
  | .returned _ => none

/-- A free worker begins with the oldest job. -/
def start? (m : Machine) : Option Machine :=
  match m.sweep.pool.begin? with
  | none => none
  | some (job, pool) =>
    some { m with
      sweep := { m.sweep with pool }
      workers := m.workers ++ [Worker.fresh job] }

/-- The busy worker at a position moves. -/
def work? (position choice : Nat) (m : Machine) : Option Machine :=
  match m.workers[position]? with
  | none => none
  | some w =>
    match w.advance choice m.sweep.pool.cancelled m.sweep.row m.sweep.journal with
    | ((row, journal), .onward phase) =>
      some { m with
        sweep := { m.sweep with row, journal }
        workers := m.workers.set position { w with phase } }
    | ((row, journal), .ended result) =>
      some { m with
        sweep := { m.sweep with row, journal, pool := m.sweep.pool.complete w.ticket result }
        workers := m.workers.eraseIdx position }

/-- Carry out an action, if it is possible. -/
def move? (config : Config) (step : Nat) (v : Var) : Action → Machine → Option Machine
  | .schedule, m => m.schedule? config step v
  | .start, m => m.start?
  | .work position choice, m => m.work? position choice

/-- Carry out a schedule, if each of its actions is possible when its turn comes. -/
def follow? (config : Config) (step : Nat) (v : Var) : List Action → Machine → Option Machine
  | [], m => some m
  | action :: actions, m =>
    match m.move? config step v action with
    | none => none
    | some m => follow? config step v actions m

/-- Some schedule leads from one machine to the other. -/
def Reaches (config : Config) (step : Nat) (v : Var) (m m' : Machine) : Prop :=
  ∃ actions, follow? config step v actions m = some m'

/-- Some schedule eliminates the variable and ends with the result. -/
def Eliminates (config : Config) (step : Nat) (v : Var) (m m' : Machine)
    (result : Except Fault Bool) : Prop :=
  m'.stage = .returned result ∧ Reaches config step v { m with stage := .taking } m'

/-- The variables of the last `left` out of `varCount` steps are eliminated one after the other,
each under some schedule, and the sweep ends with the result. -/
inductive Sweeps (config : Config) (varCount : Nat) :
    Nat → Machine → Machine → Except Fault Verdict → Prop
  | sat (m : Machine) : Sweeps config varCount 0 m m (.ok .sat)
  | noVar {left : Nat} (m : Machine) :
      config.order.varAt? (varCount - (left + 1)) varCount = none →
        Sweeps config varCount (left + 1) m m (.error .noSuchVar)
  | fault {left : Nat} {v : Var} {m m' : Machine} {f : Fault} :
      config.order.varAt? (varCount - (left + 1)) varCount = some v →
        Eliminates config (varCount - (left + 1)) v m m' (.error f) →
          Sweeps config varCount (left + 1) m m' (.error f)
  | unsat {left : Nat} {v : Var} {m m' : Machine} :
      config.order.varAt? (varCount - (left + 1)) varCount = some v →
        Eliminates config (varCount - (left + 1)) v m m' (.ok true) →
          Sweeps config varCount (left + 1) m m' (.ok .unsat)
  | next {left : Nat} {v : Var} {m m₁ m' : Machine} {result : Except Fault Verdict} :
      config.order.varAt? (varCount - (left + 1)) varCount = some v →
        Eliminates config (varCount - (left + 1)) v m m₁ (.ok false) →
          Sweeps config varCount left m₁ m' result → Sweeps config varCount (left + 1) m m' result

/-- The machine before a sweep, with all workers free. -/
def ofSweep (s : Sweep) : Machine := ⟨.taking, s, []⟩

variable {config : Config} {step : Nat} {v : Var}

/-! ## What a move can be -/

/-- The scheduler does one of six things. -/
theorem schedule?_cases {m m' : Machine} (h : m.schedule? config step v = some m') :
    (m.stage = .taking ∧ m' = m.takeBucket config step v) ∨
    (∃ bucket task tasks total, m.stage = .submitting bucket (task :: tasks) total ∧
      m' = { m with
        stage := .submitting bucket tasks total
        sweep := { m.sweep with pool := m.sweep.pool.submit task } }) ∨
    (∃ bucket total, m.stage = .submitting bucket [] total ∧
      m' = { m with stage := .collecting bucket total total }) ∨
    (∃ bucket total, m.stage = .collecting bucket total 0 ∧
      m' = { m with
        stage := .returned (.ok false)
        sweep := { m.sweep with
          stats := { m.sweep.stats with
            bucketsEliminated := m.sweep.stats.bucketsEliminated + 1 } } }) ∨
    (∃ bucket total left ticket f finished, m.stage = .collecting bucket total (left + 1) ∧
      m.sweep.pool.finished = (ticket, .error f) :: finished ∧
      m' = { m with
        stage := .returned (.error f)
        sweep := { m.sweep with pool := { m.sweep.pool with finished } } }) ∨
    (∃ bucket total left ticket outcome finished, m.stage = .collecting bucket total (left + 1) ∧
      m.sweep.pool.finished = (ticket, .ok outcome) :: finished ∧
      m' = { m with sweep := { m.sweep with
        pool := { m.sweep.pool with finished } } }.inspect bucket total left outcome) := by
  obtain ⟨stage, sweep, workers⟩ := m
  cases stage with
  | taking => exact .inl ⟨rfl, (Option.some.inj h).symm⟩
  | submitting bucket tasks total =>
    cases tasks with
    | nil => exact .inr (.inr (.inl ⟨bucket, total, rfl, (Option.some.inj h).symm⟩))
    | cons task tasks =>
      exact .inr (.inl ⟨bucket, task, tasks, total, rfl, (Option.some.inj h).symm⟩)
  | collecting bucket total left =>
    cases left with
    | zero => exact .inr (.inr (.inr (.inl ⟨bucket, total, rfl, (Option.some.inj h).symm⟩)))
    | succ left =>
      simp only [schedule?, Pool.receive?] at h
      rcases hfinished : sweep.pool.finished with _ | ⟨⟨ticket, result⟩, finished⟩
      · rw [hfinished] at h
        cases h
      · rw [hfinished] at h
        cases result with
        | error f =>
          exact .inr (.inr (.inr (.inr (.inl
            ⟨bucket, total, left, ticket, f, finished, rfl, rfl, (Option.some.inj h).symm⟩))))
        | ok outcome =>
          exact .inr (.inr (.inr (.inr (.inr
            ⟨bucket, total, left, ticket, outcome, finished, rfl, rfl,
              (Option.some.inj h).symm⟩))))
  | returned result => cases h

/-- A worker that begins takes the oldest job, and is one of those that are free. -/
theorem start?_eq_some {m m' : Machine} (h : m.start? = some m') :
    ∃ job queued, m.sweep.pool.queued = job :: queued ∧
      m.sweep.pool.running.length < m.sweep.pool.size ∧
      m' = { m with
        sweep := { m.sweep with
          pool := { m.sweep.pool with queued, running := m.sweep.pool.running ++ [job] } }
        workers := m.workers ++ [Worker.fresh job] } := by
  simp only [start?, Pool.begin?] at h
  rcases hqueued : m.sweep.pool.queued with _ | ⟨job, queued⟩
  · rw [hqueued] at h
    cases h
  · rw [hqueued] at h
    by_cases hlt : m.sweep.pool.running.length < m.sweep.pool.size
    · simp only [if_pos hlt] at h
      exact ⟨job, queued, rfl, hlt, (Option.some.inj h).symm⟩
    · simp only [if_neg hlt] at h
      cases h

/-- A busy worker goes on, or it posts its result and is free again. -/
theorem work?_eq_some {m m' : Machine} {position choice : Nat}
    (h : m.work? position choice = some m') :
    ∃ before w after, m.workers = before ++ w :: after ∧
      ((∃ row journal phase,
        w.advance choice m.sweep.pool.cancelled m.sweep.row m.sweep.journal =
            ((row, journal), .onward phase) ∧
          m' = { m with
            sweep := { m.sweep with row, journal }
            workers := before ++ { w with phase } :: after }) ∨
      (∃ row journal result,
        w.advance choice m.sweep.pool.cancelled m.sweep.row m.sweep.journal =
            ((row, journal), .ended result) ∧
          m' = { m with
            sweep := { m.sweep with
              row, journal, pool := m.sweep.pool.complete w.ticket result }
            workers := before ++ after })) := by
  simp only [work?] at h
  rcases hw : m.workers[position]? with _ | w
  · rw [hw] at h
    cases h
  · rw [hw] at h
    obtain ⟨hlt, hget⟩ := List.getElem?_eq_some_iff.1 hw
    have hset : ∀ x, m.workers.set position x =
        m.workers.take position ++ x :: m.workers.drop (position + 1) := fun x =>
      List.set_eq_take_append_cons_drop.trans (if_pos hlt)
    refine ⟨m.workers.take position, w, m.workers.drop (position + 1), ?_, ?_⟩
    · rw [← hget, ← List.drop_eq_getElem_cons hlt, List.take_append_drop]
    · simp only at h
      split at h
      · rename_i row journal phase hadvance
        rw [hset] at h
        exact .inl ⟨row, journal, phase, hadvance, (Option.some.inj h).symm⟩
      · rename_i row journal result hadvance
        rw [List.eraseIdx_eq_take_drop_succ] at h
        exact .inr ⟨row, journal, result, hadvance, (Option.some.inj h).symm⟩

/-! ## Schedules in sequence -/

theorem follow?_append (xs ys : List Action) (m : Machine) :
    follow? config step v (xs ++ ys) m =
      (follow? config step v xs m).bind (follow? config step v ys) := by
  induction xs generalizing m with
  | nil => rfl
  | cons x xs ih =>
    rw [List.cons_append, follow?, follow?]
    cases m.move? config step v x with
    | none => rfl
    | some m' => exact ih m'

/-- What a schedule leads to, a longer one can go on from. -/
theorem follow?_trans {xs ys : List Action} {m m₁ m₂ : Machine}
    (h : follow? config step v xs m = some m₁) (h' : follow? config step v ys m₁ = some m₂) :
    follow? config step v (xs ++ ys) m = some m₂ := by
  rw [follow?_append, h]
  exact h'

theorem Reaches.refl (m : Machine) : Reaches config step v m m := ⟨[], rfl⟩

theorem Reaches.trans {m m₁ m₂ : Machine} (h : Reaches config step v m m₁)
    (h' : Reaches config step v m₁ m₂) : Reaches config step v m m₂ := by
  obtain ⟨xs, hxs⟩ := h
  obtain ⟨ys, hys⟩ := h'
  exact ⟨xs ++ ys, follow?_trans hxs hys⟩

/-- A move comes first. -/
theorem Reaches.head {m m₁ m₂ : Machine} (a : Action) (h : m.move? config step v a = some m₁)
    (h' : Reaches config step v m₁ m₂) : Reaches config step v m m₂ := by
  obtain ⟨actions, hactions⟩ := h'
  refine ⟨a :: actions, ?_⟩
  rw [follow?, h]
  exact hactions

/-- What holds before a schedule and is kept by each move holds after it. -/
theorem follow?_induction {P : Machine → Prop} {actions : List Action} {m m' : Machine}
    (h : follow? config step v actions m = some m') (hm : P m)
    (hmove : ∀ a n n', P n → n.move? config step v a = some n' → P n') : P m' := by
  induction actions generalizing m with
  | nil => cases h; exact hm
  | cons a actions ih =>
    unfold follow? at h
    cases hn : m.move? config step v a with
    | none => rw [hn] at h; cases h
    | some n =>
      rw [hn] at h
      exact ih h (hmove a m n hm hn)

end Machine

end BucketElimination
