import BucketElimination.Proofs.Eliminations
set_option autoImplicit false

/-!
# Settled buckets: what workers leave alone

Workers merge resolvents only into buckets of variables that are eliminated later than the one whose
clauses they resolve.  So from the moment when the bucket of a variable is taken, the buckets of
this variable and of all earlier ones stay as they are.  This holds in every state of the machine,
also after the scheduler has returned with the empty clause while workers are still busy, and in
none of these states was a fault posted or returned unless a clause mentions a variable without a
bucket.
-/

namespace BucketElimination

/-! ## One move of a worker -/

namespace Row

variable {r : Row} {w : Var}

/-- Uniting a bucket changes no other one. -/
theorem get_unite_of_ne (other : Bucket) (hwf : ∀ b, r.get other.var = .ok b → b.var = other.var)
    (h : w ≠ other.var) : (r.unite other).1.get w = r.get w := by
  cases hget : r.get other.var with
  | error f => simp only [Row.unite, hget, Except.map]
  | ok b =>
    rw [unite_of_get hget (hwf b hget)]
    exact get_set_of_ne h _

end Row

namespace Worker

variable {w : Worker} {row row' : Row} {journal journal' : Journal} {cancelled : Bool}
  {choice : Nat} {progress : Progress}

/-- The bucket that the next move of a worker merges into the row. -/
def merges (w : Worker) (choice : Nat) : Option Bucket :=
  match w.phase with
  | .resolving _ _ => none
  | .merging _ pending _ => (w.task.pick choice pending).map Prod.fst

theorem merges_eq_some {b : Bucket} (h : w.merges choice = some b) :
    ∃ stats pending dropped, w.phase = .merging stats pending dropped ∧ b ∈ pending := by
  unfold merges at h
  split at h
  · cases h
  · rename_i stats pending dropped hphase
    obtain ⟨⟨bucket, rest⟩, hpick, rfl⟩ := Option.map_eq_some_iff.1 h
    exact ⟨stats, pending, dropped, hphase,
      (Task.perm_of_pick hpick).mem_iff.2 List.mem_cons_self⟩

/-- A worker changes the row only by merging its next bucket. -/
theorem advance_row_eq
    (h : w.advance choice cancelled row journal = ((row', journal'), progress)) :
    row' = match w.merges choice with
      | none => row
      | some bucket => (row.unite bucket).1 := by
  obtain ⟨ticket, task, phase⟩ := w
  cases phase with
  | resolving positives harvest =>
    cases positives with
    | nil =>
      cases h
      rfl
    | cons positive positives =>
      simp only [advance] at h
      split at h
      · cases h
        rfl
      · split at h <;>
        · cases h
          rfl
  | merging stats pending dropped =>
    rcases hpick : task.pick choice pending with _ | ⟨bucket, rest⟩
    · simp only [advance, hpick] at h
      cases h
      simp only [merges, hpick, Option.map_none]
    · simp only [advance, hpick, Task.Merge.step] at h
      simp only [merges, hpick, Option.map_some]
      cases hget : row.get bucket.var with
      | error f =>
        simp only [hget] at h
        cases h
        simp only [Row.unite, hget, Except.map]
      | ok target =>
        simp only [hget] at h
        rcases hunite : row.unite bucket with ⟨united, f | more⟩
        · rw [hunite] at h
          cases h
          rfl
        · rw [hunite] at h
          cases h
          rfl

/-- A bucket of resolvents is of a later variable than the one that is eliminated. -/
theorem precedes_of_resolvents {task : Task} (htask : task.WellFormed) {b : Bucket}
    (hwf : b.WellFormed) (hne : b.allClauses ≠ [])
    (hsub : ∀ c ∈ b.allClauses, c ∈ task.resolvents) :
    task.bucket.order.precedes task.bucket.var b.var = true := by
  obtain ⟨c, hc⟩ := List.exists_mem_of_ne_nil _ hne
  obtain ⟨p, hp⟩ := Bucket.mem_allClauses.1 hc
  obtain ⟨x, hx, y, hy, hresolve⟩ := mem_resolvents.1 (hsub c hc)
  have hlater := (Task.resolvent_later (htask.bucket.pivot_of_mem hx)
    (htask.pivotsOn_negatives y hy) hresolve).2
  exact hlater _ (Order.pivot_mem (hwf.pivot_of_mem hp))

/-- What a worker merges next is of a later variable than the one whose clauses it resolves. -/
theorem Sound.merges (hsound : w.Sound row) (htask : w.task.WellFormed) {b : Bucket}
    (h : w.merges choice = some b) :
    b.WellFormed ∧ b.order = w.task.bucket.order ∧
      w.task.bucket.order.precedes w.task.bucket.var b.var = true := by
  obtain ⟨stats, pending, dropped, hphase, hmem⟩ := merges_eq_some h
  rw [Sound, hphase] at hsound
  obtain ⟨-, -, -, hpending, -⟩ := hsound
  obtain ⟨hwf, horder, hne, hsub⟩ := hpending b hmem
  exact ⟨hwf, horder, precedes_of_resolvents htask hwf hne hsub⟩

/-- A move of a worker changes no bucket but those of later variables. -/
theorem Sound.get_advance (hsound : w.Sound row) (htask : w.task.WellFormed)
    (hrow : row.WellFormed w.task.bucket.order)
    (hadvance : w.advance choice cancelled row journal = ((row', journal'), progress)) {u : Var}
    (hu : w.task.bucket.order.precedes w.task.bucket.var u = false) : row'.get u = row.get u := by
  have heq := advance_row_eq hadvance
  cases hmerges : w.merges choice with
  | none => rw [heq, hmerges]
  | some bucket =>
    obtain ⟨-, -, hlater⟩ := hsound.merges htask hmerges
    rw [heq, hmerges]
    apply Row.get_unite_of_ne bucket fun b hb => (hrow.get hb).2.2
    intro he
    rw [he, hlater] at hu
    cases hu

/-- The flag matters only before a positive clause is resolved, where it ends the task. -/
theorem advance_cancelled (w : Worker) (choice : Nat) (row : Row) (journal : Journal) :
    w.advance choice true row journal = w.advance choice false row journal ∨
      ∃ stats, w.advance choice true row journal =
        ((row, journal), .ended (.ok ⟨.cancelled, stats⟩)) := by
  obtain ⟨ticket, task, phase⟩ := w
  cases phase with
  | resolving positives harvest =>
    cases positives with
    | nil => exact .inl rfl
    | cons positive positives => exact .inr ⟨harvest.stats, rfl⟩
  | merging stats pending dropped => exact .inl rfl

/-- What one move of a worker leads to, whether or not it was told to stop. -/
structure Leads (w : Worker) (cancelled : Bool) (row row' : Row) (progress : Progress) : Prop where
  wellFormed : row'.WellFormed w.task.bucket.order
  size_eq : row'.size = row.size
  kept : ∀ c ∈ row.clauses, c ∈ row'.clauses
  settled : ∀ u, w.task.bucket.order.precedes w.task.bucket.var u = false → row'.get u = row.get u
  onward : ∀ phase, progress = .onward phase → Sound row' { w with phase }
  faulty : ∀ f, progress = .ended (.error f) → ¬ w.task.Covered row
  stopped : ∀ stats, progress = .ended (.ok ⟨.cancelled, stats⟩) → cancelled = true

theorem Sound.leads (hsound : w.Sound row) (htask : w.task.WellFormed)
    (hrow : row.WellFormed w.task.bucket.order)
    (hadvance : w.advance choice cancelled row journal = ((row', journal'), progress)) :
    w.Leads cancelled row row' progress := by
  have hsettled : ∀ u, w.task.bucket.order.precedes w.task.bucket.var u = false →
      row'.get u = row.get u := fun u hu => hsound.get_advance htask hrow hadvance hu
  obtain ⟨row₁, journal₁, progress₁, hclear, hachieves⟩ := hsound.advance htask hrow choice journal
  have hleads : w.advance choice false row journal = ((row', journal'), progress) →
      w.Leads cancelled row row' progress := by
    intro hsame
    rw [hclear] at hsame
    cases hsame
    obtain ⟨⟨hwf, hsize, hkept, -⟩, honward, hended⟩ := hachieves
    refine ⟨hwf, hsize, hkept, hsettled, fun phase hphase => (honward phase hphase).1, ?_, ?_⟩
    · intro f hf hcovered
      apply (hended _ hf).1
      intro c hc l hl
      rw [hsize]
      exact hcovered c hc l hl
    · intro stats hstats
      exact (hended _ hstats).1.elim
  cases cancelled with
  | false => exact hleads hadvance
  | true =>
    rcases advance_cancelled w choice row journal with hsame | ⟨stats, hstop⟩
    · exact hleads (hsame.symm.trans hadvance)
    · rw [hstop] at hadvance
      cases hadvance
      exact ⟨hrow, rfl, fun c hc => hc, hsettled, nofun, nofun, fun _ _ => rfl⟩

end Worker

/-! ## Every state after the bucket was taken -/

namespace Machine

variable {config : Config} {step : Nat} {v : Var}

/-- The bucket of the variable was taken, which left the row `row₀`, and dealt to the tasks.  This
holds on, whoever moves and whatever the scheduler has returned. -/
structure Settled (order : Order) (v : Var) (row₀ : Row) (tasks : List Task) (m : Machine) :
    Prop where
  begun : m.stage ≠ .taking
  wellFormed : m.sweep.row.WellFormed order
  size_eq : m.sweep.row.size = row₀.size
  /-- Only buckets of later variables have changed. -/
  get_eq : ∀ u, order.precedes v u = false → m.sweep.row.get u = row₀.get u
  unsent_mem : ∀ t ∈ unsent m.stage, t ∈ tasks
  queued_mem : ∀ job ∈ m.sweep.pool.queued, job.2 ∈ tasks
  workers_mem : ∀ w ∈ m.workers, w.task ∈ tasks ∧ w.Sound m.sweep.row
  faulty : ∀ ticket f, (ticket, Except.error f) ∈ m.sweep.pool.finished →
    ∃ t ∈ tasks, ¬ t.Covered row₀
  /-- A task is told to stop only after the scheduler has returned. -/
  stopped : ∀ ticket stats, (ticket, Except.ok ⟨.cancelled, stats⟩) ∈ m.sweep.pool.finished →
    m.stage = .returned (.ok true)
  returned : ∀ f, m.stage = .returned (.error f) → ∃ t ∈ tasks, ¬ t.Covered row₀

section

variable {order : Order} {row₀ : Row} {tasks : List Task} {m m' : Machine}

/-- A move of the scheduler that touches neither row nor workers. -/
theorem Settled.control (h : Settled order v row₀ tasks m)
    (hopen : m.stage ≠ .returned (.ok true)) (hrow : m'.sweep.row = m.sweep.row)
    (hworkers : m'.workers = m.workers) (hbegun : m'.stage ≠ .taking)
    (hunsent : ∀ t ∈ unsent m'.stage, t ∈ tasks)
    (hqueued : ∀ job ∈ m'.sweep.pool.queued, job.2 ∈ tasks)
    (hfinished : ∀ x ∈ m'.sweep.pool.finished, x ∈ m.sweep.pool.finished)
    (hreturned : ∀ f, m'.stage = .returned (.error f) → ∃ t ∈ tasks, ¬ t.Covered row₀) :
    Settled order v row₀ tasks m' := by
  refine ⟨hbegun, hrow ▸ h.wellFormed, hrow ▸ h.size_eq, ?_, hunsent, hqueued, ?_, ?_, ?_,
    hreturned⟩
  · rw [hrow]
    exact h.get_eq
  · rw [hworkers, hrow]
    exact h.workers_mem
  · intro ticket f hmem
    exact h.faulty ticket f (hfinished _ hmem)
  · intro ticket stats hmem
    exact absurd (h.stopped ticket stats (hfinished _ hmem)) hopen

theorem Settled.schedule? (h : Settled order v row₀ tasks m)
    (hmove : m.schedule? config step v = some m') : Settled order v row₀ tasks m' := by
  have hunsent := h.unsent_mem
  have hqueued := h.queued_mem
  rcases schedule?_cases hmove with ⟨hstage, rfl⟩ | ⟨bucket, task, rest, total, hstage, rfl⟩ |
    ⟨bucket, total, hstage, rfl⟩ | ⟨bucket, total, hstage, rfl⟩ |
    ⟨bucket, total, left, ticket, f, finished, hstage, hfinished, rfl⟩ |
    ⟨bucket, total, left, ticket, outcome, finished, hstage, hfinished, rfl⟩
  · exact absurd hstage h.begun
  · rw [hstage] at hunsent
    refine h.control (by simp [hstage]) rfl rfl nofun ?_ ?_ (fun x hx => hx) nofun
    · intro t ht
      exact hunsent t (List.mem_cons_of_mem _ ht)
    · intro job hjob
      rcases List.mem_append.1 hjob with hjob | hjob
      · exact hqueued job hjob
      · rw [List.mem_singleton.1 hjob]
        exact hunsent task List.mem_cons_self
  · exact h.control (by simp [hstage]) rfl rfl nofun nofun hqueued (fun x hx => hx) nofun
  · exact h.control (by simp [hstage]) rfl rfl nofun nofun hqueued (fun x hx => hx) nofun
  · have hmem : (ticket, Except.error f) ∈ m.sweep.pool.finished := by simp [hfinished]
    refine h.control (by simp [hstage]) rfl rfl nofun nofun hqueued ?_ ?_
    · intro x hx
      rw [hfinished]
      exact List.mem_cons_of_mem _ hx
    · exact fun _ _ => h.faulty ticket f hmem
  · have hmem : (ticket, Except.ok outcome) ∈ m.sweep.pool.finished := by simp [hfinished]
    have hrest : ∀ x ∈ finished, x ∈ m.sweep.pool.finished := by
      intro x hx
      rw [hfinished]
      exact List.mem_cons_of_mem _ hx
    obtain ⟨ending, stats⟩ := outcome
    cases ending with
    | finished => exact h.control (by simp [hstage]) rfl rfl nofun nofun hqueued hrest nofun
    | unsat => exact h.control (by simp [hstage]) rfl rfl nofun nofun hqueued hrest nofun
    | cancelled =>
      -- no task is told to stop while the scheduler waits for results
      have hreturned := h.stopped ticket stats hmem
      rw [hstage] at hreturned
      cases hreturned

theorem Settled.start? (h : Settled order v row₀ tasks m) (hmove : m.start? = some m') :
    Settled order v row₀ tasks m' := by
  obtain ⟨job, queued, hqueued, -, rfl⟩ := start?_eq_some hmove
  have hjobs := h.queued_mem
  rw [hqueued, List.forall_mem_cons] at hjobs
  refine ⟨h.begun, h.wellFormed, h.size_eq, h.get_eq, h.unsent_mem, hjobs.2, ?_, h.faulty,
    h.stopped, h.returned⟩
  intro w hw
  rcases List.mem_append.1 hw with hw | hw
  · exact h.workers_mem w hw
  · rw [List.mem_singleton.1 hw]
    exact ⟨hjobs.1, Worker.sound_fresh _ job⟩

theorem Settled.work? {size position choice : Nat} (h : Settled order v row₀ tasks m)
    (htasks : ∀ t ∈ tasks, t.WellFormed ∧ t.bucket.order = order ∧ t.bucket.var = v)
    (horderly : m.Orderly size) (hmove : m.work? position choice = some m') :
    Settled order v row₀ tasks m' := by
  obtain ⟨before, w, after, hworkers, hafter⟩ := work?_eq_some hmove
  obtain ⟨hmem, hsound⟩ := h.workers_mem w (by simp [hworkers])
  obtain ⟨htask, rfl, rfl⟩ := htasks w.task hmem
  have hothers : ∀ {row : Row}, (∀ c ∈ m.sweep.row.clauses, c ∈ row.clauses) →
      ∀ u ∈ before ++ after, u.task ∈ tasks ∧ u.Sound row := by
    intro row hkept u hu
    have hu' : u ∈ m.workers := by
      rw [hworkers]
      exact List.mem_append.2 ((List.mem_append.1 hu).imp_right (List.mem_cons_of_mem w))
    exact (h.workers_mem u hu').imp_right fun hs => hs.mono hkept
  rcases hafter with ⟨row, journal, phase, hadvance, rfl⟩ | ⟨row, journal, result, hadvance, rfl⟩
  · have hleads := hsound.leads htask h.wellFormed hadvance
    refine ⟨h.begun, hleads.wellFormed, hleads.size_eq.trans h.size_eq, ?_, h.unsent_mem,
      h.queued_mem, ?_, h.faulty, h.stopped, h.returned⟩
    · intro u hu
      exact (hleads.settled u hu).trans (h.get_eq u hu)
    · intro u hu
      rcases List.mem_append.1 hu with hu | hu
      · exact hothers hleads.kept u (List.mem_append_left _ hu)
      · rcases List.mem_cons.1 hu with rfl | hu
        · exact ⟨hmem, hleads.onward phase rfl⟩
        · exact hothers hleads.kept u (List.mem_append_right _ hu)
  · have hleads := hsound.leads htask h.wellFormed hadvance
    refine ⟨h.begun, hleads.wellFormed, hleads.size_eq.trans h.size_eq, ?_, h.unsent_mem,
      h.queued_mem, hothers hleads.kept, ?_, ?_, h.returned⟩
    · intro u hu
      exact (hleads.settled u hu).trans (h.get_eq u hu)
    · intro ticket f hposted
      rcases List.mem_append.1 hposted with hold | hnew
      · exact h.faulty ticket f hold
      · cases List.mem_singleton.1 hnew
        refine ⟨w.task, hmem, fun hcovered => hleads.faulty f rfl ?_⟩
        intro c hc l hl
        rw [h.size_eq]
        exact hcovered c hc l hl
    · intro ticket stats hposted
      rcases List.mem_append.1 hposted with hold | hnew
      · exact h.stopped ticket stats hold
      · cases List.mem_singleton.1 hnew
        have hflag := hleads.stopped stats rfl
        apply horderly.uncancelled.resolve_left
        rw [hflag]
        decide

theorem Settled.move? {size : Nat} {a : Action} (h : Settled order v row₀ tasks m)
    (htasks : ∀ t ∈ tasks, t.WellFormed ∧ t.bucket.order = order ∧ t.bucket.var = v)
    (horderly : m.Orderly size) (hmove : m.move? config step v a = some m') :
    Settled order v row₀ tasks m' := by
  cases a with
  | schedule => exact h.schedule? hmove
  | start => exact h.start? hmove
  | work position choice => exact h.work? htasks horderly hmove

end

section

variable {m m' : Machine} {bucket : Bucket}

/-- As long as no task was submitted nothing has happened to the row. -/
theorem Idle.settled {order : Order} {row₀ : Row} {tasks : List Task} (hidle : m.Idle)
    (hpool : m'.sweep.pool = m.sweep.pool) (hworkers : m'.workers = m.workers)
    (hrow : m'.sweep.row = row₀) (hwf : row₀.WellFormed order) (hbegun : m'.stage ≠ .taking)
    (hunsent : ∀ t ∈ unsent m'.stage, t ∈ tasks)
    (hfaultless : ∀ f, m'.stage ≠ .returned (.error f)) : Settled order v row₀ tasks m' := by
  subst hrow
  refine ⟨hbegun, hwf, rfl, fun _ _ => rfl, hunsent, ?_, ?_, ?_, ?_, fun f hf => ?_⟩
  · rw [hpool, hidle.queued_eq]
    nofun
  · rw [hworkers, hidle.workers_eq]
    nofun
  · rw [hpool, hidle.finished_eq]
    nofun
  · rw [hpool, hidle.finished_eq]
    nofun
  · exact absurd hf (hfaultless f)

variable (config step) in
/-- Taking the bucket settles it. -/
theorem settled_takeBucket (hidle : m.Idle) (hrow : m.sweep.row.WellFormed config.order)
    (hget : m.sweep.row.get v = .ok bucket) :
    ∃ tasks, (∀ t ∈ tasks, t.WellFormed ∧ t.bucket = bucket) ∧
      Settled config.order v (m.sweep.row.set v bucket.emptied) tasks
        (m.takeBucket config step v) := by
  obtain ⟨hwf, -, -⟩ := hrow.get hget
  obtain ⟨hwf', -, -⟩ := hrow.take hget
  by_cases hpure : bucket.clauses .positive = [] ∨ bucket.clauses .negative = []
  · refine ⟨[], nofun, ?_⟩
    rw [takeBucket_of_pure config step hwf hget hpure]
    exact hidle.settled rfl rfl rfl hwf' nofun nofun nofun
  · obtain ⟨hands, hperm, htake⟩ := takeBucket_of_both config step hidle hwf hget hpure
    refine ⟨Sweep.tasks config step bucket hands, fun t ht => ?_, ?_⟩
    · exact ⟨(wellFormed_of_mem_tasks hwf hperm ht).1, (of_mem_tasks ht).1⟩
    · rw [htake]
      exact hidle.settled rfl rfl rfl hwf' nofun (fun t ht => ht) nofun

/-- Every state in which the bucket was taken is settled. -/
theorem Reaches.settled (hidle : m.Idle) (hrow : m.sweep.row.WellFormed config.order)
    (hget : m.sweep.row.get v = .ok bucket)
    (hreaches : Reaches config step v { m with stage := .taking } m')
    (hbegun : m'.stage ≠ .taking) :
    ∃ tasks, (∀ t ∈ tasks, t.WellFormed ∧ t.bucket = bucket) ∧
      Settled config.order v (m.sweep.row.set v bucket.emptied) tasks m' := by
  obtain ⟨-, horder, hvar⟩ := hrow.get hget
  obtain ⟨actions, hfollow⟩ := hreaches
  obtain ⟨rest, hrest⟩ := hidle.exists_follow?_takeBucket hfollow hbegun
  obtain ⟨tasks, htasks, hsettled⟩ :=
    settled_takeBucket config step (hidle.atStage .taking) hrow hget
  have htake : { m with stage := .taking }.schedule? config step v =
      some ({ m with stage := .taking }.takeBucket config step v) := rfl
  refine ⟨tasks, htasks, ?_⟩
  refine (follow?_induction (P := fun n => Settled config.order v
    (m.sweep.row.set v bucket.emptied) tasks n ∧ n.Orderly m.sweep.pool.size) hrest
    ⟨hsettled, hidle.orderly.schedule? htake⟩ ?_).1
  intro a n n' hn hmove
  refine ⟨hn.1.move? (fun t ht => ?_) hn.2 hmove, hn.2.move? hmove⟩
  obtain ⟨hwf, rfl⟩ := htasks t ht
  exact ⟨hwf, horder, hvar⟩

end

end Machine

end BucketElimination
