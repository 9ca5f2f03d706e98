import BucketElimination.Proofs.Progress
set_option autoImplicit false

/-!
# Serial: running the tasks one after the other is a schedule

`Sweep.eliminate` submits all tasks, lets each of them run from beginning to end before the next,
and then receives the results.  A machine can move in just this way, whatever order the buckets are
shuffled into, so what holds of every schedule holds of the sweep that is carried out.
-/

namespace BucketElimination.Machine

variable {config : Config} {step : Nat} {v : Var}

/-- The scheduler submits all its tasks. -/
theorem reaches_submit (bucket : Var) (tasks : List Task) (total : Nat) (s : Sweep)
    (workers : List Worker) :
    Reaches config step v ⟨.submitting bucket tasks total, s, workers⟩
      ⟨.collecting bucket total total, { s with pool := tasks.foldl Pool.submit s.pool },
        workers⟩ := by
  induction tasks generalizing s with
  | nil => exact .head .schedule rfl (.refl _)
  | cons task tasks ih => exact .head .schedule rfl (ih { s with pool := s.pool.submit task })

/-! ## A task from beginning to end -/

/-- The shared state once the only worker has ended its job. -/
def afterJob (stage : Stage) (s : Sweep) (ticket : Nat)
    (ended : (Row × Journal) × Except Fault Outcome) : Machine :=
  ⟨stage,
    { s with row := ended.1.1, journal := ended.1.2, pool := s.pool.complete ticket ended.2 }, []⟩

/-- The only worker merges all its buckets, in an order in which its task may merge them. -/
theorem reaches_merge (stage : Stage) (s : Sweep) (ticket : Nat) (task : Task) (stats : TaskStats)
    {pending arranged : List Bucket} (dropped : Nat) (hperm : pending.Perm arranged)
    (hlisted : task.shuffleSeed = none → pending = arranged) :
    Reaches config step v ⟨stage, s, [⟨ticket, task, .merging stats pending dropped⟩]⟩
      (afterJob stage s ticket
        (match Task.Merge.run arranged ⟨s.row, dropped, s.journal⟩ with
        | (m, .error f) => ((m.row, m.journal), .error f)
        | (m, .ok ()) => ((m.row, m.journal),
          .ok ⟨.finished, { stats with duplicates := stats.duplicates + m.dropped }⟩))) := by
  induction arranged generalizing s pending dropped with
  | nil =>
    obtain rfl := hperm.eq_nil
    exact .head (.work 0 0) rfl (.refl _)
  | cons bucket arranged ih =>
    obtain ⟨choice, rest, hpick, hrest, hfirst⟩ := Task.exists_pick hperm hlisted
    unfold Task.Merge.run
    cases hstep : Task.Merge.step ⟨s.row, dropped, s.journal⟩ bucket with
    | mk m result =>
      cases result with
      | error f =>
        refine .head (.work 0 choice) ?_ (.refl _)
        simp only [move?, work?, List.getElem?_cons_zero, Worker.advance, hpick, hstep]
        rfl
      | ok done =>
        refine .head (.work 0 choice) ?_
          (ih { s with row := m.row, journal := m.journal } m.dropped hrest hfirst)
        simp only [move?, work?, List.getElem?_cons_zero, Worker.advance, hpick, hstep]
        rfl

variable (shuffler : Shuffler)

/-- The only worker resolves all its positive clauses and merges. -/
theorem reaches_resolve (stage : Stage) (s : Sweep) (ticket i : Nat) (task : Task)
    (positives : List Clause) (h : Task.Harvest) :
    Reaches config step v ⟨stage, s, [⟨ticket, task, .resolving positives h⟩]⟩
      (afterJob stage s ticket
        (match task.resolveFrom (fun _ => s.pool.cancelled) i positives h with
        | .error f => ((s.row, s.journal), .error f)
        | .ok (.finished, h) =>
          match Task.Merge.run (task.arrange shuffler h.toList) ⟨s.row, 0, s.journal⟩ with
          | (m, .error f) => ((m.row, m.journal), .error f)
          | (m, .ok ()) => ((m.row, m.journal),
            .ok ⟨.finished, { h.stats with duplicates := h.stats.duplicates + m.dropped }⟩)
        | .ok (ending, h) => ((s.row, s.journal), .ok ⟨ending, h.stats⟩))) := by
  induction positives generalizing i h with
  | nil =>
    exact .head (.work 0 0) rfl (reaches_merge stage s ticket task h.stats 0
      (task.arrange_perm shuffler h.toList).symm
      fun hseed => (Task.arrange_of_unseeded shuffler hseed h.toList).symm)
  | cons positive positives ih =>
    unfold Task.resolveFrom
    cases hflag : s.pool.cancelled with
    | true =>
      refine .head (.work 0 0) ?_ (.refl _)
      simp only [move?, work?, List.getElem?_cons_zero, Worker.advance, hflag]
      rfl
    | false =>
      cases hresolve : task.resolveWith positive task.negatives h with
      | error f =>
        refine .head (.work 0 0) ?_ (.refl _)
        simp only [move?, work?, List.getElem?_cons_zero, Worker.advance, hflag, hresolve]
        rfl
      | ok found =>
        obtain ⟨refuted, h'⟩ := found
        cases refuted with
        | true =>
          refine .head (.work 0 0) ?_ (.refl _)
          simp only [move?, work?, List.getElem?_cons_zero, Worker.advance, hflag, hresolve]
          rfl
        | false =>
          have hrest := ih (i + 1) h'
          rw [hflag] at hrest
          refine .head (.work 0 0) ?_ hrest
          simp only [move?, work?, List.getElem?_cons_zero, Worker.advance, hflag, hresolve]
          rfl

/-- The only worker does a whole job. -/
theorem reaches_job (stage : Stage) (s : Sweep) (job : Nat × Task) :
    Reaches config step v ⟨stage, s, [Worker.fresh job]⟩
      (afterJob stage s job.1 (Sweep.exec shuffler s.pool.cancelled job.2 (s.row, s.journal))) :=
  reaches_resolve shuffler stage s job.1 0 job.2 (job.2.bucket.clauses .positive) .empty

/-! ## All jobs -/

/-- Jobs run one after the other. -/
theorem reaches_serve (stage : Stage) (n : Nat) (s : Sweep) (hsize : 0 < s.pool.size)
    (hrunning : s.pool.running = []) :
    Reaches config step v ⟨stage, s, []⟩
      ⟨stage, { s with
        pool := (s.pool.serveAtMost (Sweep.exec shuffler) n (s.row, s.journal)).1
        row := (s.pool.serveAtMost (Sweep.exec shuffler) n (s.row, s.journal)).2.1
        journal := (s.pool.serveAtMost (Sweep.exec shuffler) n (s.row, s.journal)).2.2 }, []⟩ := by
  induction n generalizing s with
  | zero => exact .refl _
  | succ n ih =>
    unfold Pool.serveAtMost
    cases hbegin : s.pool.begin? with
    | none => exact .refl _
    | some begun =>
      obtain ⟨⟨ticket, task⟩, pool⟩ := begun
      have hstart : move? config step v .start ⟨stage, s, []⟩ =
          some ⟨stage, { s with pool }, [Worker.fresh (ticket, task)]⟩ := by
        simp only [move?, start?, hbegin]
        rfl
      obtain ⟨hsize', hrunning'⟩ : 0 < pool.size ∧
          pool.running.filter (fun job => job.1 != ticket) = [] := by
        simp only [Pool.begin?] at hbegin
        split at hbegin
        · cases hbegin
        · split at hbegin
          · cases hbegin
            exact ⟨hsize, by simp [hrunning]⟩
          · cases hbegin
      refine .head .start hstart ((reaches_job shuffler stage { s with pool } (ticket, task)).trans ?_)
      exact ih (afterJob stage { s with pool } ticket
        (Sweep.exec shuffler pool.cancelled task (s.row, s.journal))).sweep hsize' hrunning'

/-- All queued jobs are served, and each of them posts a result. -/
theorem length_finished_serve {J R σ : Type} (exec : Bool → J → σ → σ × Except Fault R)
    (p : Pool J R) (shared : σ) (hsize : 0 < p.size) (hrunning : p.running = []) :
    (p.serve exec shared).1.finished.length = p.finished.length + p.queued.length := by
  unfold Pool.serve
  obtain ⟨queued, hqueued⟩ : ∃ queued, p.queued = queued := ⟨_, rfl⟩
  rw [hqueued]
  induction queued generalizing p shared with
  | nil => rfl
  | cons job queued ih =>
    have hbegin : p.begin? = some (job, { p with queued, running := [job] }) := by
      simp only [Pool.begin?, hqueued, hrunning, List.length_nil, if_pos hsize]
      rfl
    obtain ⟨ticket, job⟩ := job
    rw [List.length_cons, Pool.serveAtMost, hbegin]
    refine (ih (p := Pool.complete { p with queued, running := [(ticket, job)] } ticket
      (exec p.cancelled job shared).2) (exec p.cancelled job shared).1 hsize ?_ rfl).trans ?_
    · simp [Pool.complete]
    · simp only [Pool.complete, List.length_append, List.length_cons, List.length_nil]
      omega

/-! ## Receiving -/

/-- The scheduler receives results until it returns. -/
theorem reaches_collect (bucket : Var) (total left : Nat) (s : Sweep)
    (hleft : left ≤ s.pool.finished.length) :
    Reaches config step v ⟨.collecting bucket total left, s, []⟩
      ⟨.returned (Sweep.collect bucket total left s).2, (Sweep.collect bucket total left s).1,
        []⟩ := by
  induction left generalizing s with
  | zero => exact .head .schedule rfl (.refl _)
  | succ left ih =>
    unfold Sweep.collect
    rcases hfinished : s.pool.finished with _ | ⟨⟨ticket, result⟩, finished⟩
    · rw [hfinished] at hleft
      cases hleft
    · rw [hfinished] at hleft
      have hreceive : s.pool.receive? = some (result, { s.pool with finished }) := by
        simp only [Pool.receive?, hfinished]
      simp only [hreceive]
      cases result with
      | error f =>
        refine .head .schedule ?_ (.refl _)
        simp only [move?, schedule?, hreceive]
      | ok outcome =>
        obtain ⟨ending, stats⟩ := outcome
        cases ending with
        | finished =>
          refine .head .schedule ?_ (ih _ (Nat.le_of_succ_le_succ hleft))
          simp only [move?, schedule?, hreceive]
          rfl
        | unsat =>
          refine .head .schedule ?_ (.refl _)
          simp only [move?, schedule?, hreceive]
          rfl
        | cancelled =>
          refine .head .schedule ?_ (.refl _)
          simp only [move?, schedule?, hreceive]
          rfl

/-! ## Whole eliminations and sweeps -/

theorem foldl_submit (tasks : List Task) (p : Pool Task Outcome) :
    (tasks.foldl Pool.submit p).size = p.size ∧ (tasks.foldl Pool.submit p).running = p.running ∧
      (tasks.foldl Pool.submit p).finished = p.finished ∧
      (tasks.foldl Pool.submit p).queued.length = p.queued.length + tasks.length := by
  induction tasks generalizing p with
  | nil => exact ⟨rfl, rfl, rfl, rfl⟩
  | cons task tasks ih =>
    obtain ⟨hsize, hrunning, hfinished, hqueued⟩ := ih (p.submit task)
    refine ⟨hsize, hrunning, hfinished, hqueued.trans ?_⟩
    simp only [Pool.submit, List.length_append, List.length_cons, List.length_nil]
    omega

/-- Tasks that are handed to idle workers run one after the other, and their results are
received. -/
theorem reaches_dispatch (bucket : Var) (tasks : List Task) (s : Sweep) (hsize : 0 < s.pool.size)
    (hrunning : s.pool.running = []) :
    Reaches config step v ⟨.submitting bucket tasks tasks.length, s, []⟩
      ⟨.returned (Sweep.collect bucket tasks.length tasks.length (s.dispatch shuffler tasks)).2,
        (Sweep.collect bucket tasks.length tasks.length (s.dispatch shuffler tasks)).1, []⟩ := by
  obtain ⟨hsize', hrunning', hfinished, hqueued⟩ := foldl_submit tasks s.pool
  refine (reaches_submit bucket tasks tasks.length s []).trans ?_
  refine (reaches_serve shuffler _ (tasks.foldl Pool.submit s.pool).queued.length _ (hsize' ▸ hsize)
    (hrunning'.trans hrunning)).trans (reaches_collect bucket tasks.length tasks.length _ ?_)
  have hlength := length_finished_serve (Sweep.exec shuffler) (tasks.foldl Pool.submit s.pool)
    (s.row, s.journal) (hsize' ▸ hsize) (hrunning'.trans hrunning)
  unfold Pool.serve at hlength
  rw [hlength]
  omega

variable (config step v) in
/-- Eliminating a variable with the tasks one after the other is one of the schedules. -/
theorem eliminates_serial {m : Machine} (h : m.Idle) :
    Eliminates config step v m
      ⟨.returned (m.sweep.eliminate shuffler config step v).2, (m.sweep.eliminate shuffler config step v).1, []⟩
      (m.sweep.eliminate shuffler config step v).2 := by
  have hsize := h.size_pos
  have hrunning := h.running_eq
  have hworkers := h.workers_eq
  have hflag := h.uncancelled
  obtain ⟨stage, s, workers⟩ := m
  obtain rfl : workers = [] := hworkers
  simp only at hsize hrunning hflag
  refine ⟨rfl, .head .schedule rfl ?_⟩
  simp only [takeBucket, Sweep.eliminate]
  rcases s.row.take v with ⟨row, f | bucket⟩
  · exact .refl _
  · simp only
    by_cases hpure : bucket.size .positive = 0 ∨ bucket.size .negative = 0
    · simp only [if_pos hpure]
      exact .refl _
    · simp only [if_neg hpure, Sweep.resolveBucket, Sweep.note]
      rcases bucket.dealNegatives s.pool.size with f | hands
      · exact .refl _
      · have hlength : hands.length = (Sweep.tasks config step bucket hands).length := by
          simp [Sweep.tasks]
        simp only [hflag, hlength]
        exact reaches_dispatch shuffler bucket.var (Sweep.tasks config step bucket hands) _ hsize hrunning

variable (config) in
/-- So is the sweep over the variables that are left. -/
theorem sweeps_serial (varCount left : Nat) {m : Machine} (h : m.Idle) :
    ∃ m', Sweeps config varCount left m m' (Sweep.runFrom shuffler config varCount left m.sweep).2 ∧
      m'.sweep = (Sweep.runFrom shuffler config varCount left m.sweep).1 := by
  induction left generalizing m with
  | zero => exact ⟨m, .sat m, rfl⟩
  | succ left ih =>
    rw [Sweep.runFrom]
    cases hvar : config.order.varAt? (varCount - (left + 1)) varCount with
    | none => exact ⟨m, .noVar m hvar, rfl⟩
    | some v =>
      have he := eliminates_serial config (varCount - (left + 1)) v shuffler h
      rcases heq : m.sweep.eliminate shuffler config (varCount - (left + 1)) v with ⟨s, result⟩
      rw [heq] at he
      simp only [heq]
      rcases result with f | refuted
      · exact ⟨_, .fault hvar he, rfl⟩
      · cases refuted with
        | true => exact ⟨_, .unsat hvar he, rfl⟩
        | false =>
          obtain ⟨m', hsweeps, hsweep⟩ := ih (h.of_eliminates he).1
          exact ⟨m', .next hvar he hsweeps, hsweep⟩

end BucketElimination.Machine
