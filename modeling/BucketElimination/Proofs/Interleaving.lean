import BucketElimination.Proofs.Progress
import BucketElimination.Proofs.WorkerRuns
set_option autoImplicit false

/-!
# Interleaving: where the tasks of a bucket are

While the tasks of a bucket are under way, each of them is waiting to be submitted, queued, run by a
worker, posted or received, and is in one of these places only.  What the row has gained is what the
workers and the ended tasks have added to it.  Every move keeps this, whoever makes it.
-/

namespace BucketElimination

/-- Two lists have the same elements equally often if every test counts the same in both. -/
theorem perm_of_countP_eq {α : Type} {xs ys : List α}
    (h : ∀ p : α → Bool, xs.countP p = ys.countP p) : xs.Perm ys := by
  have : DecidableEq α := Classical.typeDecidableEq α
  exact List.perm_iff_count.2 fun a => h (· == a)

namespace Machine

variable {config : Config} {step : Nat} {v : Var}

/-! ## Tasks under way -/

/-- The tasks that the scheduler still has to submit. -/
def unsent : Stage → List Task
  | .submitting _ tasks _ => tasks
  | _ => []

/-- The tasks are under way on a row that was `row₀` before; `posted` and `received` are the tasks
whose results were posted or received, with the results. -/
structure Underway (order : Order) (row₀ : Row) (stats₀ : Stats) (tasks : List Task) (m : Machine)
    (posted : List (Task × Except Fault Outcome)) (received : List (Task × Outcome)) : Prop where
  finished_eq : m.sweep.pool.finished.map Prod.snd = posted.map Prod.snd
  /-- Every task is in one place. -/
  places : (unsent m.stage ++ m.sweep.pool.queued.map Prod.snd ++ m.workers.map Worker.task ++
    posted.map Prod.fst ++ received.map Prod.fst).Perm tasks
  grows : row₀.Grows order (tasks.flatMap Task.resolvents) m.sweep.row
  sound : ∀ w ∈ m.workers, w.Sound m.sweep.row
  posted_reports : ∀ x ∈ posted, x.1.Reports m.sweep.row x.2
  received_reports : ∀ x ∈ received, x.2.ending = .finished ∧ x.1.Reports m.sweep.row (.ok x.2)
  stats_eq : m.sweep.stats = received.foldl (fun stats x => stats.absorb x.2.stats) stats₀
  /-- What the row has gained was added by someone. -/
  length_eq : (∀ x ∈ posted, ∀ f, x.2 ≠ .error f) →
    (m.sweep.row.clauses.length : Int) = row₀.clauses.length + (m.workers.map Worker.added).sum +
      (posted.map fun x => resultAdded x.2).sum + (received.map fun x => x.2.added).sum

section

variable {order : Order} {row₀ : Row} {stats₀ : Stats} {tasks : List Task} {m m' : Machine}
  {posted : List (Task × Except Fault Outcome)} {received : List (Task × Outcome)}

/-- The scheduler submits a task. -/
theorem Underway.submit {bucket : Var} {task : Task} {rest : List Task} {total : Nat}
    (h : Underway order row₀ stats₀ tasks m posted received)
    (hstage : m.stage = .submitting bucket (task :: rest) total) :
    Underway order row₀ stats₀ tasks
      { m with
        stage := .submitting bucket rest total
        sweep := { m.sweep with pool := m.sweep.pool.submit task } } posted received := by
  refine ⟨h.finished_eq, ?_, h.grows, h.sound, h.posted_reports, h.received_reports, h.stats_eq,
    h.length_eq⟩
  refine perm_of_countP_eq fun p => ?_
  have hcount := h.places.countP_eq p
  simp only [hstage, unsent, Pool.submit, List.countP_append, List.map_append, List.map_cons,
    List.map_nil, List.countP_cons, List.countP_nil] at hcount ⊢
  omega

/-- A worker begins with a task. -/
theorem Underway.start? (h : Underway order row₀ stats₀ tasks m posted received)
    (hmove : m.start? = some m') : Underway order row₀ stats₀ tasks m' posted received := by
  obtain ⟨job, queued, hqueued, -, rfl⟩ := start?_eq_some hmove
  refine ⟨h.finished_eq, ?_, h.grows, fun w hw => ?_, h.posted_reports, h.received_reports,
    h.stats_eq, fun hok => ?_⟩
  · refine perm_of_countP_eq fun p => ?_
    have hcount := h.places.countP_eq p
    simp only [hqueued, Worker.fresh, List.countP_append, List.map_append, List.map_cons,
      List.map_nil, List.countP_cons, List.countP_nil] at hcount ⊢
    omega
  · rcases List.mem_append.1 hw with hw | hw
    · exact h.sound w hw
    · rw [List.mem_singleton.1 hw]
      exact Worker.sound_fresh _ job
  · have hlength := h.length_eq hok
    simp only [List.map_append, List.sum_append_int, List.map_cons, List.map_nil, List.sum_cons,
      List.sum_nil]
    show _ = _ + (_ + (0 + 0)) + _ + _
    omega

/-- The task of a busy worker is one of those under way. -/
theorem Underway.task_mem {w : Worker} (h : Underway order row₀ stats₀ tasks m posted received)
    (hw : w ∈ m.workers) : w.task ∈ tasks := by
  refine h.places.mem_iff.1 ?_
  simp only [List.mem_append]
  exact .inl (.inl (.inr (List.mem_map_of_mem hw)))

/-- A worker goes on with its task, or posts its result. -/
theorem Underway.work? {position choice : Nat}
    (h : Underway order row₀ stats₀ tasks m posted received)
    (htasks : ∀ t ∈ tasks, t.WellFormed ∧ t.bucket.order = order)
    (hclear : m.sweep.pool.cancelled = false) (hmove : m.work? position choice = some m') :
    ∃ posted', Underway order row₀ stats₀ tasks m' posted' received := by
  obtain ⟨before, w, after, hworkers, hafter⟩ := work?_eq_some hmove
  have hw : w ∈ m.workers := by simp [hworkers]
  have htask := h.task_mem hw
  obtain ⟨hwf, rfl⟩ := htasks w.task htask
  obtain ⟨row, journal, progress, hadvance, hachieves⟩ :=
    (h.sound w hw).advance hwf h.grows.wellFormed choice m.sweep.journal
  have hgrows := hachieves.grows
  have hother : ∀ u ∈ before ++ after, u.Sound row := by
    intro u hu
    refine (h.sound u ?_).mono hgrows.kept
    rw [hworkers]
    rcases List.mem_append.1 hu with hu | hu
    · exact List.mem_append_left _ hu
    · exact List.mem_append_right _ (List.mem_cons_of_mem _ hu)
  have hposted : ∀ x ∈ posted, x.1.Reports row x.2 := fun x hx =>
    (h.posted_reports x hx).mono hgrows.size_eq hgrows.kept
  have hreceived : ∀ x ∈ received, x.2.ending = .finished ∧ x.1.Reports row (.ok x.2) := fun x hx =>
    (h.received_reports x hx).imp_right fun hr => hr.mono hgrows.size_eq hgrows.kept
  have hrow : row₀.Grows w.task.bucket.order (tasks.flatMap Task.resolvents) row :=
    h.grows.trans hgrows fun c hc => List.mem_flatMap.2 ⟨w.task, htask, hc⟩
  have hlength := h.length_eq
  simp only [hworkers, List.map_append, List.map_cons, List.sum_append_int, List.sum_cons]
    at hlength
  rw [hclear, hadvance] at hafter
  rcases hafter with ⟨row', journal', phase, heq, rfl⟩ | ⟨row', journal', result, heq, rfl⟩
  · cases heq
    obtain ⟨hsound, hadded⟩ := hachieves.onward phase rfl
    refine ⟨posted, h.finished_eq, ?_, hrow, fun u hu => ?_, hposted, hreceived, h.stats_eq,
      fun hok => ?_⟩
    · have hplaces := h.places
      rw [hworkers] at hplaces
      simpa using hplaces
    · rcases List.mem_append.1 hu with hu | hu
      · exact hother u (List.mem_append_left _ hu)
      · rcases List.mem_cons.1 hu with rfl | hu
        · exact hsound
        · exact hother u (List.mem_append_right _ hu)
    · have hlength := hlength hok
      simp only [List.map_append, List.map_cons, List.sum_append_int, List.sum_cons]
      omega
  · cases heq
    obtain ⟨hreports, hadded⟩ := hachieves.ended result rfl
    refine ⟨posted ++ [(w.task, result)], ?_, ?_, hrow, hother, fun x hx => ?_, hreceived,
      h.stats_eq, fun hok => ?_⟩
    · simp only [Pool.complete, List.map_append, h.finished_eq]
      rfl
    · refine perm_of_countP_eq fun p => ?_
      have hcount := h.places.countP_eq p
      simp only [hworkers, Pool.complete, List.countP_append, List.map_append, List.map_cons,
        List.map_nil, List.countP_cons, List.countP_nil] at hcount ⊢
      omega
    · rcases List.mem_append.1 hx with hx | hx
      · exact hposted x hx
      · rw [List.mem_singleton.1 hx]
        exact hreports
    · have hlength := hlength fun x hx => hok x (List.mem_append_left _ hx)
      have hadded := hadded (hok _ (List.mem_append_right _ (List.mem_singleton_self _)))
      simp only [List.map_append, List.map_cons, List.map_nil, List.sum_append_int, List.sum_cons,
        List.sum_nil]
      omega

/-- The oldest result belongs to a task that was posted. -/
theorem Underway.exists_posted {ticket : Nat} {result : Except Fault Outcome}
    {finished : List (Nat × Except Fault Outcome)}
    (h : Underway order row₀ stats₀ tasks m posted received)
    (hfinished : m.sweep.pool.finished = (ticket, result) :: finished) :
    ∃ t rest, posted = (t, result) :: rest ∧ finished.map Prod.snd = rest.map Prod.snd ∧
      t ∈ tasks ∧ t.Reports m.sweep.row result := by
  have heq := h.finished_eq
  rw [hfinished] at heq
  rcases posted with _ | ⟨⟨t, result'⟩, rest⟩
  · cases heq
  · simp only [List.map_cons, List.cons.injEq] at heq
    obtain ⟨rfl, heq⟩ := heq
    refine ⟨t, rest, rfl, heq, h.places.mem_iff.1 ?_, h.posted_reports _ List.mem_cons_self⟩
    simp

/-- The scheduler receives the result of a finished task. -/
theorem Underway.receive {bucket : Var} {total left ticket : Nat} {stats : TaskStats}
    {finished : List (Nat × Except Fault Outcome)}
    (h : Underway order row₀ stats₀ tasks m posted received)
    (hstage : m.stage = .collecting bucket total (left + 1))
    (hfinished : m.sweep.pool.finished = (ticket, .ok ⟨.finished, stats⟩) :: finished) :
    ∃ posted' received', Underway order row₀ stats₀ tasks
      ({ m with sweep := { m.sweep with
        pool := { m.sweep.pool with finished } } }.inspect bucket total left ⟨.finished, stats⟩)
      posted' received' := by
  obtain ⟨t, rest, rfl, heq, -, hreports⟩ := h.exists_posted hfinished
  refine ⟨rest, received ++ [(t, ⟨.finished, stats⟩)], heq, ?_, h.grows, h.sound,
    fun x hx => h.posted_reports x (List.mem_cons_of_mem _ hx), fun x hx => ?_, ?_, fun hok => ?_⟩
  · refine perm_of_countP_eq fun p => ?_
    have hcount := h.places.countP_eq p
    simp only [hstage, unsent, inspect, Sweep.note, List.countP_append, List.map_append,
      List.map_cons, List.map_nil, List.countP_cons, List.countP_nil] at hcount ⊢
    omega
  · rcases List.mem_append.1 hx with hx | hx
    · exact h.received_reports x hx
    · rw [List.mem_singleton.1 hx]
      exact ⟨rfl, hreports⟩
  · rw [List.foldl_append, ← h.stats_eq]
    rfl
  · have hlength := h.length_eq fun x hx f hf => by
      rcases List.mem_cons.1 hx with rfl | hx
      · cases hf
      · exact hok x hx f hf
    simp only [List.map_append, List.map_cons, List.map_nil, List.sum_append_int, List.sum_cons,
      List.sum_nil, resultAdded] at hlength ⊢
    show (m.sweep.row.clauses.length : Int) =
      _ + (m.workers.map Worker.added).sum + _ + _
    omega

/-! ## All tasks received -/

/-- All tasks were received, and each of them was finished. -/
structure Completed (order : Order) (row₀ : Row) (stats₀ : Stats) (tasks : List Task)
    (s : Sweep) : Prop where
  grows : row₀.Grows order (tasks.flatMap Task.resolvents) s.row
  not_refutes : ∀ t ∈ tasks, ¬ t.Refutes
  merged : ∀ t ∈ tasks, ∀ c ∈ t.resolvents, c ∈ s.row.clauses
  bucketsEliminated_eq : s.stats.bucketsEliminated = stats₀.bucketsEliminated + 1
  bucketsSkipped_eq : s.stats.bucketsSkipped = stats₀.bucketsSkipped
  resolvents_eq : s.stats.resolvents =
    stats₀.resolvents + (tasks.map fun t => t.resolvents.length).sum
  tautologies_eq : s.stats.tautologies = stats₀.tautologies + (tasks.map Task.tautologies).sum
  /-- What the tasks found and the row does not have was dropped. -/
  duplicates_eq : s.stats.duplicateResolvents + s.row.clauses.length =
    stats₀.duplicateResolvents + row₀.clauses.length +
      (tasks.map fun t => t.resolvents.length).sum

/-- The counters of tasks are added up. -/
theorem foldl_absorb (received : List (Task × Outcome)) (stats : Stats) :
    received.foldl (fun stats x => stats.absorb x.2.stats) stats =
      { stats with
        resolvents := stats.resolvents + (received.map fun x => x.2.stats.resolvents).sum
        tautologies := stats.tautologies + (received.map fun x => x.2.stats.tautologies).sum
        duplicateResolvents :=
          stats.duplicateResolvents + (received.map fun x => x.2.stats.duplicates).sum } := by
  induction received generalizing stats with
  | nil => rfl
  | cons x received ih =>
    rw [List.foldl_cons, ih]
    simp only [Stats.absorb, List.map_cons, List.sum_cons, Nat.add_assoc]

/-- Finished tasks have added what they found less what they dropped. -/
theorem sum_added {received : List (Task × Outcome)}
    (h : ∀ x ∈ received, x.2.ending = .finished) :
    (received.map fun x => x.2.added).sum +
        ((received.map fun x => x.2.stats.duplicates).sum : Nat) =
      ((received.map fun x => x.2.stats.resolvents).sum : Nat) := by
  induction received with
  | nil => rfl
  | cons x received ih =>
    have hx : x.2.added = x.2.stats.resolvents - x.2.stats.duplicates := by
      rw [Outcome.added, h x List.mem_cons_self]
    have := ih fun y hy => h y (List.mem_cons_of_mem _ hy)
    simp only [List.map_cons, List.sum_cons]
    omega

/-- When no task is left on the way, all of them were received. -/
theorem Underway.completed {bucket : Var} {total : Nat}
    (h : Underway order row₀ stats₀ tasks m posted received)
    (hstage : m.stage = .collecting bucket total 0) (hjobs : m.jobs = 0) :
    Completed order row₀ stats₀ tasks { m.sweep with
      stats := { m.sweep.stats with
        bucketsEliminated := m.sweep.stats.bucketsEliminated + 1 } } := by
  obtain ⟨⟨hqueued, hworkers⟩, hfinished⟩ : (m.sweep.pool.queued = [] ∧ m.workers = []) ∧
      m.sweep.pool.finished = [] := by
    simpa [jobs] using hjobs
  obtain rfl : posted = [] := by
    have := h.finished_eq
    rw [hfinished] at this
    exact List.map_eq_nil_iff.1 this.symm
  have hperm : (received.map Prod.fst).Perm tasks := by
    simpa [hstage, unsent, hqueued, hworkers] using h.places
  have hreceived : ∀ t ∈ tasks, ∃ o, (t, o) ∈ received := by
    intro t ht
    obtain ⟨⟨t, o⟩, ho, rfl⟩ := List.mem_map.1 (hperm.mem_iff.2 ht)
    exact ⟨o, ho⟩
  have hreport : ∀ t o, (t, o) ∈ received → ¬ t.Refutes ∧ o.stats.resolvents = t.resolvents.length ∧
      o.stats.tautologies = t.tautologies ∧ ∀ c ∈ t.resolvents, c ∈ m.sweep.row.clauses := by
    rintro t ⟨ending, stats⟩ ho
    obtain ⟨hending, hreport⟩ := h.received_reports _ ho
    cases hending
    exact hreport
  have hresolvents : (received.map fun x => x.2.stats.resolvents).sum =
      (tasks.map fun t => t.resolvents.length).sum := by
    rw [← (hperm.map _).sum_nat, List.map_map]
    exact congrArg List.sum (List.map_congr_left fun x hx => (hreport x.1 x.2 hx).2.1)
  have htautologies : (received.map fun x => x.2.stats.tautologies).sum =
      (tasks.map Task.tautologies).sum := by
    rw [← (hperm.map _).sum_nat, List.map_map]
    exact congrArg List.sum (List.map_congr_left fun x hx => (hreport x.1 x.2 hx).2.2.1)
  have hlength := h.length_eq (by simp)
  have hadded := sum_added fun x hx => (h.received_reports x hx).1
  have hstats := h.stats_eq
  rw [foldl_absorb] at hstats
  simp only [hworkers, List.map_nil, List.sum_nil] at hlength
  refine ⟨h.grows, fun t ht => ?_, fun t ht => ?_, ?_, ?_, ?_, ?_, ?_⟩
  · obtain ⟨o, ho⟩ := hreceived t ht
    exact (hreport t o ho).1
  · obtain ⟨o, ho⟩ := hreceived t ht
    exact (hreport t o ho).2.2.2
  · simp only [hstats]
  · simp only [hstats]
  · simp only [hstats, hresolvents]
  · simp only [hstats, htautologies]
  · simp only [hstats]
    omega

/-! ## Every stage -/

/-- What is known of the tasks at each stage after the bucket was taken. -/
def Tracks (order : Order) (row₀ : Row) (stats₀ : Stats) (tasks : List Task) (m : Machine) : Prop :=
  match m.stage with
  | .taking => False
  | .submitting _ _ _ | .collecting _ _ _ =>
    ∃ posted received, Underway order row₀ stats₀ tasks m posted received
  | .returned (.ok true) => ∃ t ∈ tasks, t.Refutes
  | .returned (.ok false) => Completed order row₀ stats₀ tasks m.sweep
  | .returned (.error _) => ∃ t ∈ tasks, ¬ t.Covered row₀

theorem Tracks.schedule? {size : Nat} (h : Tracks order row₀ stats₀ tasks m)
    (horderly : m.Orderly size) (hmove : m.schedule? config step v = some m') :
    Tracks order row₀ stats₀ tasks m' := by
  have hjobs := horderly.accounted
  rcases schedule?_cases hmove with ⟨hstage, rfl⟩ | ⟨bucket, task, rest, total, hstage, rfl⟩ |
    ⟨bucket, total, hstage, rfl⟩ | ⟨bucket, total, hstage, rfl⟩ |
    ⟨bucket, total, left, ticket, f, finished, hstage, hfinished, rfl⟩ |
    ⟨bucket, total, left, ticket, outcome, finished, hstage, hfinished, rfl⟩
  all_goals rw [Tracks, hstage] at h
  · exact h.elim
  · obtain ⟨posted, received, h⟩ := h
    exact ⟨posted, received, h.submit hstage⟩
  · obtain ⟨posted, received, h⟩ := h
    refine ⟨posted, received, h.finished_eq, ?_, h.grows, h.sound, h.posted_reports,
      h.received_reports, h.stats_eq, h.length_eq⟩
    simpa [hstage, unsent] using h.places
  · obtain ⟨posted, received, h⟩ := h
    rw [Accounted, hstage] at hjobs
    exact h.completed hstage hjobs
  · obtain ⟨posted, received, h⟩ := h
    obtain ⟨t, -, -, -, ht, hreports⟩ := h.exists_posted hfinished
    refine ⟨t, ht, fun hcovered => hreports fun c hc l hl => ?_⟩
    rw [h.grows.size_eq]
    exact hcovered c hc l hl
  · obtain ⟨posted, received, h⟩ := h
    obtain ⟨t, -, -, -, ht, hreports⟩ := h.exists_posted hfinished
    obtain ⟨ending, stats⟩ := outcome
    cases ending with
    | finished => exact h.receive hstage hfinished
    | unsat => exact ⟨t, ht, hreports⟩
    | cancelled => exact hreports.elim

/-- Nobody can move when the workers are free and the scheduler has returned. -/
theorem Idle.move?_eq_none (h : m.Idle) {result : Except Fault Bool}
    (hstage : m.stage = .returned result) (a : Action) : m.move? config step v a = none := by
  cases a with
  | schedule => simp [move?, schedule?, hstage]
  | start => simp [move?, start?, Pool.begin?, h.queued_eq]
  | work position choice => simp [move?, work?, h.workers_eq]

/-- A move of a worker leaves the stage alone, so only tasks under way are concerned. -/
theorem Tracks.of_stage_eq (h : Tracks order row₀ stats₀ tasks m) (hstage : m'.stage = m.stage)
    (hreturned : m.stage ≠ .returned (.ok false))
    (hunderway : (∀ result, m.stage ≠ .returned result) → ∀ posted received,
      Underway order row₀ stats₀ tasks m posted received →
        ∃ posted', Underway order row₀ stats₀ tasks m' posted' received) :
    Tracks order row₀ stats₀ tasks m' := by
  unfold Tracks at h
  rw [Tracks, hstage]
  split at h
  · exact h.elim
  · rename_i hstage
    obtain ⟨posted, received, h⟩ := h
    obtain ⟨posted', h⟩ := hunderway (by simp [hstage]) posted received h
    exact ⟨posted', received, h⟩
  · rename_i hstage
    obtain ⟨posted, received, h⟩ := h
    obtain ⟨posted', h⟩ := hunderway (by simp [hstage]) posted received h
    exact ⟨posted', received, h⟩
  · exact h
  · rename_i hstage
    exact absurd hstage hreturned
  · exact h

theorem Tracks.move? {size : Nat} {a : Action} (h : Tracks order row₀ stats₀ tasks m)
    (htasks : ∀ t ∈ tasks, t.WellFormed ∧ t.bucket.order = order) (hsize : 0 < size)
    (horderly : m.Orderly size) (hmove : m.move? config step v a = some m') :
    Tracks order row₀ stats₀ tasks m' := by
  have hreturned : m.stage ≠ .returned (.ok false) := by
    intro hstage
    rw [(horderly.idle hsize hstage).move?_eq_none hstage] at hmove
    cases hmove
  cases a with
  | schedule => exact h.schedule? horderly hmove
  | start =>
    refine h.of_stage_eq ?_ hreturned fun _ posted received hu => ⟨posted, hu.start? hmove⟩
    obtain ⟨-, -, -, -, rfl⟩ := start?_eq_some hmove
    rfl
  | work position choice =>
    refine h.of_stage_eq ?_ hreturned fun hstage posted received hu =>
      hu.work? htasks (horderly.uncancelled.resolve_right (hstage _)) hmove
    obtain ⟨-, -, -, -, ⟨-, -, -, -, rfl⟩ | ⟨-, -, -, -, rfl⟩⟩ := work?_eq_some hmove <;> rfl

end

end Machine

end BucketElimination
