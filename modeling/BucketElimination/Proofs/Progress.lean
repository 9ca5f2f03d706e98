import BucketElimination.Proofs.Machine
import Mathlib.Algebra.Order.Ring.Int
set_option autoImplicit false

/-!
# Progress: every schedule comes to an end

A machine that starts with an idle pool stays orderly: the pool's record of running jobs matches the
busy workers, no two jobs share a ticket, and the results that the scheduler waits for are as many
as the jobs that are queued, run or posted.  So as long as the scheduler has not returned, someone
can move.  Every move brings the end closer, whoever makes it, so no schedule goes on forever and
each can be continued until the scheduler returns.
-/

namespace BucketElimination.Machine

variable {config : Config} {step : Nat} {v : Var}

/-! ## Order among jobs and workers -/

/-- The number of jobs whose result was not received yet. -/
def jobs (m : Machine) : Nat :=
  m.sweep.pool.queued.length + m.workers.length + m.sweep.pool.finished.length

/-- The scheduler knows how many jobs there are, unless it returned early. -/
def Accounted (m : Machine) : Prop :=
  match m.stage with
  | .taking => m.jobs = 0
  | .submitting _ tasks total => m.jobs + tasks.length = total
  | .collecting _ _ left => m.jobs = left
  | .returned (.ok false) => m.jobs = 0
  | .returned _ => True

/-- The tickets of jobs that are run or queued. -/
def tickets (m : Machine) : List Nat :=
  m.workers.map Worker.ticket ++ m.sweep.pool.queued.map Prod.fst

/-- What holds of pool and workers whatever the tasks do. -/
structure Orderly (size : Nat) (m : Machine) : Prop where
  size_eq : m.sweep.pool.size = size
  /-- The flag is raised only after the empty clause was derived. -/
  uncancelled : m.sweep.pool.cancelled = false ∨ m.stage = .returned (.ok true)
  running_eq : m.sweep.pool.running = m.workers.map fun w => (w.ticket, w.task)
  nodup_tickets : m.tickets.Nodup
  lt_submitted : ∀ t ∈ m.tickets, t < m.sweep.pool.submitted
  accounted : m.Accounted

/-- All workers are free and no job is under way. -/
structure Idle (m : Machine) : Prop where
  size_pos : 0 < m.sweep.pool.size
  uncancelled : m.sweep.pool.cancelled = false
  queued_eq : m.sweep.pool.queued = []
  running_eq : m.sweep.pool.running = []
  finished_eq : m.sweep.pool.finished = []
  workers_eq : m.workers = []

/-- Where the scheduler is has no part in it. -/
theorem Idle.atStage {m : Machine} (h : m.Idle) (stage : Stage) : { m with stage }.Idle :=
  ⟨h.size_pos, h.uncancelled, h.queued_eq, h.running_eq, h.finished_eq, h.workers_eq⟩

theorem Idle.orderly {m : Machine} (h : m.Idle) :
    { m with stage := .taking }.Orderly m.sweep.pool.size where
  size_eq := rfl
  uncancelled := .inl h.uncancelled
  running_eq := by rw [h.running_eq, h.workers_eq]; rfl
  nodup_tickets := by simp [tickets, h.queued_eq, h.workers_eq]
  lt_submitted := by simp [tickets, h.queued_eq, h.workers_eq]
  accounted := by simp [Accounted, jobs, h.queued_eq, h.workers_eq, h.finished_eq]

/-- Without jobs an orderly machine is idle. -/
theorem Orderly.idle {size : Nat} {m : Machine} (h : m.Orderly size) (hsize : 0 < size)
    (hstage : m.stage = .returned (.ok false)) : m.Idle := by
  have hjobs : m.jobs = 0 := by
    have := h.accounted
    rwa [Accounted, hstage] at this
  have hworkers : m.workers = [] := List.length_eq_zero_iff.1 (by rw [jobs] at hjobs; omega)
  refine ⟨h.size_eq ▸ hsize, ?_, ?_, ?_, ?_, hworkers⟩
  · rcases h.uncancelled with hflag | hflag
    · exact hflag
    · rw [hstage] at hflag
      cases hflag
  · exact List.length_eq_zero_iff.1 (by rw [jobs] at hjobs; omega)
  · rw [h.running_eq, hworkers]
    rfl
  · exact List.length_eq_zero_iff.1 (by rw [jobs] at hjobs; omega)

/-! ## Every move keeps order -/

variable (config step v) in
/-- Taking the bucket leaves pool and workers alone. -/
theorem takeBucket_control (m : Machine) :
    (m.takeBucket config step v).workers = m.workers ∧
      (m.takeBucket config step v).sweep.pool = m.sweep.pool ∧
      ((∃ f, (m.takeBucket config step v).stage = .returned (.error f)) ∨
        (m.takeBucket config step v).stage = .returned (.ok false) ∨
        ∃ bucket tasks, (m.takeBucket config step v).stage =
          .submitting bucket tasks tasks.length) := by
  simp only [takeBucket]
  split
  · exact ⟨rfl, rfl, .inl ⟨_, rfl⟩⟩
  · split
    · exact ⟨rfl, rfl, .inr (.inl rfl)⟩
    · split
      · exact ⟨rfl, rfl, .inl ⟨_, rfl⟩⟩
      · split
        · exact ⟨rfl, rfl, .inl ⟨_, rfl⟩⟩
        · rename_i bucket _ _ _ hands _ _
          refine ⟨rfl, rfl, .inr (.inr ⟨bucket.var, Sweep.tasks config step bucket hands, ?_⟩)⟩
          simp only [Sweep.tasks, List.length_mapIdx]

theorem Orderly.schedule? {size : Nat} {m m' : Machine} (h : m.Orderly size)
    (hmove : m.schedule? config step v = some m') : m'.Orderly size := by
  obtain ⟨hsize, hflag, hrunning, hnodup, hlt, haccounted⟩ := h
  have hclear : (∀ result, m.stage ≠ .returned result) → m.sweep.pool.cancelled = false := by
    intro hne
    exact hflag.resolve_right (hne _)
  rcases schedule?_cases hmove with ⟨hstage, rfl⟩ | ⟨bucket, task, tasks, total, hstage, rfl⟩ |
    ⟨bucket, total, hstage, rfl⟩ | ⟨bucket, total, hstage, rfl⟩ |
    ⟨bucket, total, left, ticket, f, finished, hstage, hfinished, rfl⟩ |
    ⟨bucket, total, left, ticket, outcome, finished, hstage, hfinished, rfl⟩
  · have hclear := hclear (by simp [hstage])
    obtain ⟨hworkers, hpool, hafter⟩ := takeBucket_control config step v m
    have hjobs : m.jobs = 0 := by rwa [Accounted, hstage] at haccounted
    have hjobs' : (m.takeBucket config step v).jobs = 0 := by
      rw [jobs, hworkers, hpool]
      exact hjobs
    refine ⟨hpool ▸ hsize, .inl (hpool ▸ hclear), ?_, ?_, ?_, ?_⟩
    · rw [hpool, hworkers, hrunning]
    · rw [tickets, hpool, hworkers]
      exact hnodup
    · rw [tickets, hpool, hworkers]
      exact hlt
    · unfold Accounted
      rcases hafter with ⟨f, hafter⟩ | hafter | ⟨bucket, tasks, hafter⟩
      · rw [hafter]
        trivial
      · rw [hafter]
        exact hjobs'
      · rw [hafter]
        show _ + _ = _
        omega
  · have hclear := hclear (by simp [hstage])
    rw [Accounted, hstage] at haccounted
    -- the new job's ticket is larger than all others
    have htickets : m.workers.map Worker.ticket ++
        (m.sweep.pool.queued ++ [(m.sweep.pool.submitted, task)]).map Prod.fst =
          m.tickets ++ [m.sweep.pool.submitted] := by
      rw [tickets, List.map_append, List.append_assoc]
      rfl
    refine ⟨hsize, .inl hclear, hrunning, ?_, ?_, ?_⟩
    · show (m.workers.map Worker.ticket ++
        (m.sweep.pool.queued ++ [(m.sweep.pool.submitted, task)]).map Prod.fst).Nodup
      rw [htickets]
      refine List.nodup_append.2 ⟨hnodup, by simp, fun t ht u hu => ?_⟩
      rw [List.mem_singleton.1 hu]
      exact Nat.ne_of_lt (hlt t ht)
    · show ∀ t ∈ m.workers.map Worker.ticket ++
        (m.sweep.pool.queued ++ [(m.sweep.pool.submitted, task)]).map Prod.fst,
          t < m.sweep.pool.submitted + 1
      rw [htickets]
      intro t ht
      rcases List.mem_append.1 ht with ht | ht
      · exact Nat.lt_succ_of_lt (hlt t ht)
      · rw [List.mem_singleton.1 ht]
        exact Nat.lt_succ_self _
    · simp only [Accounted, jobs, Pool.submit, List.length_append, List.length_cons,
        List.length_nil] at haccounted ⊢
      omega
  · have hclear := hclear (by simp [hstage])
    rw [Accounted, hstage] at haccounted
    exact ⟨hsize, .inl hclear, hrunning, hnodup, hlt, haccounted⟩
  · have hclear := hclear (by simp [hstage])
    rw [Accounted, hstage] at haccounted
    exact ⟨hsize, .inl hclear, hrunning, hnodup, hlt, haccounted⟩
  · have hclear := hclear (by simp [hstage])
    exact ⟨hsize, .inl hclear, hrunning, hnodup, hlt, trivial⟩
  · have hclear := hclear (by simp [hstage])
    simp only [Accounted, hstage, jobs, hfinished, List.length_cons] at haccounted
    obtain ⟨ending, stats⟩ := outcome
    cases ending with
    | finished =>
      refine ⟨hsize, .inl hclear, hrunning, hnodup, hlt, ?_⟩
      show m.sweep.pool.queued.length + m.workers.length + finished.length = left
      omega
    | unsat => exact ⟨hsize, .inr rfl, hrunning, hnodup, hlt, trivial⟩
    | cancelled => exact ⟨hsize, .inl hclear, hrunning, hnodup, hlt, trivial⟩

/-- The stage does not change, nor does the number of jobs. -/
theorem Accounted.congr {m m' : Machine} (h : m.Accounted) (hstage : m'.stage = m.stage)
    (hjobs : m'.jobs = m.jobs) : m'.Accounted := by
  rw [Accounted, hstage, hjobs]
  exact h

theorem Orderly.start? {size : Nat} {m m' : Machine} (h : m.Orderly size)
    (hmove : m.start? = some m') : m'.Orderly size := by
  obtain ⟨job, queued, hqueued, -, rfl⟩ := start?_eq_some hmove
  have htickets : (m.workers ++ [Worker.fresh job]).map Worker.ticket ++ queued.map Prod.fst =
      m.tickets := by
    rw [tickets, hqueued, List.map_append, List.append_assoc]
    rfl
  refine ⟨h.size_eq, h.uncancelled, ?_, ?_, ?_, h.accounted.congr rfl ?_⟩
  · show m.sweep.pool.running ++ [job] = (m.workers ++ [Worker.fresh job]).map _
    rw [h.running_eq, List.map_append]
    rfl
  · rw [tickets, htickets]
    exact h.nodup_tickets
  · rw [tickets, htickets]
    exact h.lt_submitted
  · simp only [jobs, hqueued, List.length_append, List.length_cons, List.length_nil]
    omega

theorem Orderly.work? {size : Nat} {m m' : Machine} {position choice : Nat} (h : m.Orderly size)
    (hmove : m.work? position choice = some m') : m'.Orderly size := by
  obtain ⟨before, w, after, hworkers, hafter⟩ := work?_eq_some hmove
  have hnodup := h.nodup_tickets
  have hlt := h.lt_submitted
  have hrunning := h.running_eq
  rcases hafter with ⟨row, journal, phase, -, rfl⟩ | ⟨row, journal, result, -, rfl⟩
  · refine ⟨h.size_eq, h.uncancelled, ?_, ?_, ?_, h.accounted.congr rfl ?_⟩
    · simpa [hworkers] using hrunning
    · simpa [tickets, hworkers] using hnodup
    · simpa [tickets, hworkers] using hlt
    · simp [jobs, hworkers]
  · rw [tickets, hworkers, List.map_append, List.map_cons] at hnodup hlt
    have hsub : ((before ++ after).map Worker.ticket ++ m.sweep.pool.queued.map Prod.fst).Sublist
        (before.map Worker.ticket ++ w.ticket :: after.map Worker.ticket ++
          m.sweep.pool.queued.map Prod.fst) := by
      rw [List.map_append]
      exact ((List.Sublist.refl _).append (List.sublist_cons_self _ _)).append_right _
    refine ⟨h.size_eq, h.uncancelled, ?_, hnodup.sublist hsub, fun t ht => hlt t (hsub.subset ht),
      h.accounted.congr rfl ?_⟩
    · -- no other worker has the ticket of the one that ended
      have hne : ∀ u ∈ before ++ after, u.ticket ≠ w.ticket := by
        intro u hu heq
        rw [List.append_assoc, List.cons_append] at hnodup
        obtain ⟨-, hrest, hbefore⟩ := List.nodup_append.1 hnodup
        rcases List.mem_append.1 hu with hu | hu
        · exact hbefore _ (List.mem_map_of_mem hu) _ List.mem_cons_self heq
        · refine (List.nodup_cons.1 hrest).1 (List.mem_append_left _ ?_)
          exact heq ▸ List.mem_map_of_mem hu
      show m.sweep.pool.running.filter (fun job => job.1 != w.ticket) = (before ++ after).map _
      rw [hrunning, hworkers, List.filter_map, List.filter_append, List.filter_cons,
        List.filter_eq_self.2, List.filter_eq_self.2, if_neg]
      · simp
      · intro u hu
        simpa using hne u (List.mem_append_right _ hu)
      · intro u hu
        simpa using hne u (List.mem_append_left _ hu)
    · simp only [jobs, Pool.complete, hworkers, List.length_append, List.length_cons,
        List.length_nil]
      omega

theorem Orderly.move? {size : Nat} {m m' : Machine} {a : Action} (h : m.Orderly size)
    (hmove : m.move? config step v a = some m') : m'.Orderly size := by
  cases a with
  | schedule => exact h.schedule? hmove
  | start => exact h.start? hmove
  | work position choice => exact h.work? hmove

theorem Orderly.follow? {size : Nat} {m m' : Machine} {actions : List Action} (h : m.Orderly size)
    (hfollow : follow? config step v actions m = some m') : m'.Orderly size :=
  follow?_induction hfollow h fun _ _ _ hn hmove => hn.move? hmove

/-- A machine that eliminated a variable without deriving the empty clause is idle again. -/
theorem Idle.of_eliminates {m m' : Machine} (h : m.Idle)
    (he : Eliminates config step v m m' (.ok false)) :
    m'.Idle ∧ m'.sweep.pool.size = m.sweep.pool.size := by
  obtain ⟨hstage, actions, hfollow⟩ := he
  have horderly := h.orderly.follow? hfollow
  exact ⟨horderly.idle h.size_pos hstage, horderly.size_eq⟩

/-! ## No schedule goes on forever -/

/-- How far the scheduler is from returning: the stages ahead of it, and the moves left in its
own. -/
def ahead : Stage → Nat × Nat
  | .taking => (3, 0)
  | .submitting _ tasks _ => (2, tasks.length)
  | .collecting _ _ left => (1, left)
  | .returned _ => (0, 0)

/-- The moves that a worker may make before it merges. -/
def toResolve (w : Worker) : Nat :=
  match w.phase with
  | .resolving positives _ => positives.length + 1
  | .merging _ _ _ => 0

/-- The moves that a worker has left once it merges. -/
def toMerge (w : Worker) : Nat :=
  match w.phase with
  | .resolving _ _ => 0
  | .merging _ pending _ => pending.length + 1

/-- What is left to do, the part that says most first. -/
def remaining (m : Machine) : Nat × Nat × Nat × Nat × Nat :=
  ((ahead m.stage).1, (ahead m.stage).2, m.sweep.pool.queued.length, (m.workers.map toResolve).sum,
    (m.workers.map toMerge).sum)

end BucketElimination.Machine
