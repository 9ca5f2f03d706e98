import BucketElimination.Fault
set_option autoImplicit false

/-!
# Elimination: the pool of workers

Jobs wait in a queue until one of a fixed number of workers is free.  A worker takes the oldest job,
runs it and posts the result, in the order in which jobs end; a fault of a job is a result like any
other and leaves the worker to take the next one.  Results are received one at a time.  A flag,
raised once, asks the jobs to stop early.

Every change of a pool is one of the small steps `submit`, `begin?`, `complete`, `receive?` and
`cancel`; `serve` is the schedule in which each job runs from beginning to end before the next.
-/

namespace BucketElimination

/-- A pool of workers for jobs of type `J` with results of type `R`. -/
structure Pool (J R : Type) where
  /-- Number of workers. -/
  size : Nat
  /-- The jobs are asked to stop. -/
  cancelled : Bool
  /-- Number of jobs submitted so far; a job's ticket is its position among them. -/
  submitted : Nat
  /-- Jobs that wait, the oldest first. -/
  queued : List (Nat × J)
  /-- Jobs that a worker runs. -/
  running : List (Nat × J)
  /-- Results that were not received yet, the oldest first. -/
  finished : List (Nat × Except Fault R)

namespace Pool

variable {J R σ : Type}

/-- A pool of idle workers, at least one. -/
def start (size : Nat) : Except Fault (Pool J R) :=
  if size = 0 then .error .noWorkers else .ok ⟨size, false, 0, [], [], []⟩

/-- Put a job into the queue. -/
def submit (p : Pool J R) (job : J) : Pool J R :=
  { p with submitted := p.submitted + 1, queued := p.queued ++ [(p.submitted, job)] }

/-- A free worker begins with the oldest job. -/
def begin? (p : Pool J R) : Option ((Nat × J) × Pool J R) :=
  match p.queued with
  | [] => none
  | job :: queued =>
    if p.running.length < p.size then
      some (job, { p with queued, running := p.running ++ [job] })
    else none

/-- The worker that runs the job with a ticket posts its result and is free again. -/
def complete (p : Pool J R) (ticket : Nat) (result : Except Fault R) : Pool J R :=
  { p with
    running := p.running.filter fun job => job.1 != ticket
    finished := p.finished ++ [(ticket, result)] }

/-- Receive the oldest result. -/
def receive? (p : Pool J R) : Option (Except Fault R × Pool J R) :=
  match p.finished with
  | [] => none
  | (_, result) :: finished => some (result, { p with finished })

/-- Ask the jobs to stop. -/
def cancel (p : Pool J R) : Pool J R := { p with cancelled := true }

/-- Let jobs run one after the other on a shared state, at most `n` of them.  A job sees whether the
flag is raised. -/
def serveAtMost (exec : Bool → J → σ → σ × Except Fault R) : Nat → Pool J R → σ → Pool J R × σ
  | 0, p, s => (p, s)
  | n + 1, p, s =>
    match p.begin? with
    | none => (p, s)
    | some ((ticket, job), p) =>
      let (s, result) := exec p.cancelled job s
      serveAtMost exec n (p.complete ticket result) s

/-- Let jobs run one after the other on a shared state until the queue is empty. -/
def serve (exec : Bool → J → σ → σ × Except Fault R) (p : Pool J R) (s : σ) : Pool J R × σ :=
  serveAtMost exec p.queued.length p s

end Pool

end BucketElimination
