import BucketElimination.Proofs.SweepCourse
set_option autoImplicit false

/-!
# Sweeps go forward

A sweep visits the buckets in the order of elimination and leaves nothing behind.  Whatever a worker
merges goes into a bucket of a step that is still to come, so a bucket that was taken is empty from
then on, and when all steps are through the whole row is.  Each step that is through has been counted
once, as eliminated or as skipped, and a step in which the empty clause is derived is not counted.

All this is said of every state that a sweep can reach, under every order in which scheduler and
workers move, and also after the scheduler has returned while workers are still busy.
-/

namespace BucketElimination

/-- The number of buckets that were resolved or skipped. -/
def Stats.passed (s : Stats) : Nat := s.bucketsEliminated + s.bucketsSkipped

theorem Stage.passed_le (stage : Stage) : stage.passed ≤ 1 := by
  unfold Stage.passed
  split
  · exact Nat.le_refl 1
  · exact Nat.zero_le 1

/-! ## One move -/

namespace Machine

variable {config : Config} {step : Nat} {v : Var} {m m' : Machine} {a : Action}

/-- The bucket that an action merges into the row. -/
def merges (m : Machine) : Action → Option Bucket
  | .work position choice => m.workers[position]?.bind (Worker.merges · choice)
  | _ => none

theorem exists_worker_of_merges {b : Bucket} (h : m.merges a = some b) :
    ∃ w ∈ m.workers, ∃ choice, w.merges choice = some b := by
  cases a with
  | schedule => cases h
  | start => cases h
  | work position choice =>
    obtain ⟨w, hw, hmerges⟩ := Option.bind_eq_some_iff.1 h
    exact ⟨w, List.mem_of_getElem? hw, choice, hmerges⟩

/-- Taking the bucket takes it out of the row, whatever comes of it. -/
theorem row_takeBucket (config : Config) (step : Nat) (v : Var) (m : Machine) :
    (m.takeBucket config step v).sweep.row = (m.sweep.row.take v).1 := by
  rcases htake : m.sweep.row.take v with ⟨row, f | bucket⟩
  · simp only [takeBucket, htake]
  · simp only [takeBucket, htake]
    split
    · rfl
    · split
      · rfl
      · split <;> rfl

/-- The row changes only when the bucket of the step is taken and when a bucket is merged. -/
theorem row_of_move? (h : m.move? config step v a = some m') :
    match m.merges a with
    | some b => m'.sweep.row = (m.sweep.row.unite b).1
    | none => m'.sweep.row = m.sweep.row ∨
      m.stage = .taking ∧ m'.sweep.row = (m.sweep.row.take v).1 := by
  cases a with
  | schedule =>
    rcases schedule?_cases h with ⟨hstage, rfl⟩ | ⟨_, _, _, _, -, rfl⟩ | ⟨_, _, -, rfl⟩ |
      ⟨_, _, -, rfl⟩ | ⟨_, _, _, _, _, _, -, -, rfl⟩ | ⟨_, _, _, _, ⟨ending, stats⟩, _, -, -, rfl⟩
    · exact .inr ⟨hstage, row_takeBucket config step v m⟩
    · exact .inl rfl
    · exact .inl rfl
    · exact .inl rfl
    · exact .inl rfl
    · cases ending <;> exact .inl rfl
  | start =>
    obtain ⟨_, _, -, -, rfl⟩ := start?_eq_some h
    exact .inl rfl
  | work position choice =>
    simp only [move?, work?] at h
    cases hw : m.workers[position]? with
    | none =>
      rw [hw] at h
      cases h
    | some w =>
      rw [hw] at h
      simp only [merges, hw, Option.bind_some]
      rcases hadvance : w.advance choice m.sweep.pool.cancelled m.sweep.row m.sweep.journal with
        ⟨⟨row, journal⟩, progress⟩
      have hrow : m'.sweep.row = row := by
        simp only [hadvance] at h
        cases progress <;>
        · cases h
          rfl
      rw [hrow, Worker.advance_row_eq hadvance]
      cases w.merges choice with
      | none => exact .inl rfl
      | some b => exact rfl

theorem passed_takeBucket (config : Config) (step : Nat) (v : Var) (m : Machine) :
    (m.takeBucket config step v).sweep.stats.passed =
      m.sweep.stats.passed + (m.takeBucket config step v).stage.passed := by
  rcases htake : m.sweep.row.take v with ⟨row, f | bucket⟩
  · simp only [takeBucket, htake]
    rfl
  · simp only [takeBucket, htake]
    split
    · rfl
    · split
      · rfl
      · split <;> rfl

/-- A step is counted by the move with which the scheduler gets through with it. -/
theorem passed_of_move? (h : m.move? config step v a = some m') :
    m'.sweep.stats.passed + m.stage.passed = m.sweep.stats.passed + m'.stage.passed := by
  cases a with
  | start =>
    obtain ⟨_, _, -, -, rfl⟩ := start?_eq_some h
    rfl
  | work position choice =>
    obtain ⟨_, _, _, -, ⟨_, _, _, -, rfl⟩ | ⟨_, _, _, -, rfl⟩⟩ := work?_eq_some h
    · rfl
    · rfl
  | schedule =>
    -- a scheduler that moves has not returned
    have hbefore : m.stage.passed = 0 := by
      cases hstage : m.stage with
      | returned result => simp [move?, schedule?, hstage] at h
      | taking | submitting | collecting => rfl
    rw [hbefore, Nat.add_zero]
    rcases schedule?_cases h with ⟨-, rfl⟩ | ⟨_, _, _, _, -, rfl⟩ | ⟨_, _, -, rfl⟩ |
      ⟨_, _, -, rfl⟩ | ⟨_, _, _, _, _, _, -, -, rfl⟩ | ⟨_, _, _, _, ⟨ending, stats⟩, _, -, -, rfl⟩
    · exact passed_takeBucket config step v m
    · rfl
    · rfl
    · exact Nat.add_right_comm _ 1 _
    · rfl
    · cases ending <;> rfl

end Machine

/-! ## Every state of a sweep -/

/-- A row without a bucket for the variable is not changed by uniting. -/
theorem Row.unite_of_size_le {r : Row} {b : Bucket} (h : r.size ≤ b.var.index) :
    (r.unite b).1 = r := by
  have hnone : r.buckets[b.var.index]? = none := Array.getElem?_eq_none h
  simp only [Row.unite, Row.get, hnone, Except.map]

namespace Course

/-- What a move out of a state of a sweep makes of the row, by the bucket that it merges. -/
inductive Writes (order : Order) (varCount : Nat) (c : Course) : Option Bucket → Row → Prop
  | nothing : Writes order varCount c none c.machine.sweep.row
  /-- The scheduler takes the bucket of the step. -/
  | takes {v : Var} : c.machine.stage = .taking → order.varAt? c.step varCount = some v →
      Writes order varCount c none (c.machine.sweep.row.take v).1
  /-- Clauses are merged into the bucket of their pivot, whose step is still to come. -/
  | merges {b : Bucket} {j : Nat} : (∀ x ∈ b.allClauses, ∃ p, order.pivot? x.lits = some ⟨b.var, p⟩) →
      order.varAt? j varCount = some b.var → c.step < j →
        Writes order varCount c (some b) (c.machine.sweep.row.unite b).1
  /-- There is no bucket to merge the clauses into. -/
  | misses {b : Bucket} : varCount ≤ b.var.index →
      Writes order varCount c (some b) c.machine.sweep.row

section

variable {config : Config} {m₁ m' : Machine} {c : Course} {v : Var} {a : Action} {b : Bucket}

theorem Located.wellFormed (h : Located config m₁ c) :
    c.machine.sweep.row.WellFormed config.order ∧
      c.machine.sweep.row.size = m₁.sweep.row.size := by
  cases h with
  | atStart hbegins hmachine =>
    rw [hmachine]
    exact ⟨hbegins.wellFormed, hbegins.size_eq⟩
  | within hbegins _ hget _ hstage hreaches =>
    obtain ⟨tasks, -, hsettled⟩ := hreaches.settled hbegins.idle hbegins.wellFormed hget hstage
    refine ⟨hsettled.wellFormed, ?_⟩
    rw [hsettled.size_eq, Row.size_set, hbegins.size_eq]

/-- What is merged belongs to a variable after the one that is eliminated. -/
theorem Located.precedes_of_merges (h : Located config m₁ c) (hmerges : c.machine.merges a = some b)
    (hvar : config.order.varAt? c.step m₁.sweep.row.size = some v) :
    b.WellFormed ∧ b.order = config.order ∧ config.order.precedes v b.var = true := by
  obtain ⟨w, hw, choice, hmerges⟩ := Machine.exists_worker_of_merges hmerges
  cases h with
  | atStart hbegins hmachine =>
    rw [hmachine, hbegins.idle.workers_eq] at hw
    cases hw
  | within hbegins hvar' hget _ hstage hreaches =>
    obtain rfl := Option.some.inj (hvar.symm.trans hvar')
    obtain ⟨tasks, htasks, hsettled⟩ :=
      hreaches.settled hbegins.idle hbegins.wellFormed hget hstage
    obtain ⟨hmem, hsound⟩ := hsettled.workers_mem w hw
    obtain ⟨htask, rfl⟩ := htasks w.task hmem
    obtain ⟨-, horder, rfl⟩ := hbegins.wellFormed.get hget
    rw [← horder]
    exact hsound.merges htask hmerges

/-- Every move writes forward. -/
theorem Located.writes (h : Located config m₁ c)
    (hvar : config.order.varAt? c.step m₁.sweep.row.size = some v)
    (hmove : c.machine.move? config c.step v a = some m') :
    c.Writes config.order m₁.sweep.row.size (c.machine.merges a) m'.sweep.row := by
  have hrow := Machine.row_of_move? hmove
  cases hmerges : c.machine.merges a with
  | none =>
    rw [hmerges] at hrow
    rcases hrow with hrow | ⟨hstage, hrow⟩
    · rw [hrow]
      exact .nothing
    · rw [hrow]
      exact .takes hstage hvar
  | some b =>
    rw [hmerges] at hrow
    obtain ⟨hwf, horder, hlater⟩ := h.precedes_of_merges hmerges hvar
    rw [hrow]
    by_cases hlt : b.var.index < m₁.sweep.row.size
    · refine .merges ?_ (config.order.varAt?_stepOf hlt) ?_
      · intro x hx
        obtain ⟨p, hp⟩ := Bucket.mem_allClauses.1 hx
        exact ⟨p, horder ▸ hwf.pivot_of_mem hp⟩
      · rw [← Order.stepOf_of_varAt? hvar]
        exact (Order.stepOf_lt_iff (Order.index_lt_of_varAt? hvar) hlt).2 hlater
    · rw [Row.unite_of_size_le (h.wellFormed.2 ▸ Nat.le_of_not_lt hlt)]
      exact .misses (Nat.le_of_not_lt hlt)

/-- A bucket that was taken is empty. -/
theorem Located.emptied (h : Located config m₁ c) {i : Nat} {w : Var}
    (hw : config.order.varAt? i m₁.sweep.row.size = some w)
    (hi : i < c.step ∨ i = c.step ∧ c.machine.stage ≠ .taking) :
    ∃ d : Bucket, c.machine.sweep.row.get w = .ok d.emptied := by
  cases h with
  | atStart hbegins hmachine =>
    have hlt : i < c.taken.length := by
      rw [hbegins.length_eq]
      exact hi.resolve_right fun hi => hi.2 (by rw [hmachine])
    refine ⟨c.taken[i], ?_⟩
    rw [hmachine]
    exact hbegins.emptied i _ w (List.getElem?_eq_getElem hlt) hw
  | @within m earlier v b hbegins hvar hget _ hstage hreaches =>
    have hlt : i < (earlier ++ [b]).length := by
      rw [List.length_append, hbegins.length_eq, List.length_singleton]
      omega
    obtain ⟨tasks, -, hsettled⟩ := hreaches.settled hbegins.idle hbegins.wellFormed hget hstage
    exact ⟨_, hbegins.get_of_settled hvar hget hsettled (List.getElem?_eq_getElem hlt) hw⟩

/-- When all steps are through, all buckets are empty. -/
theorem Located.emptied_of_concludes (h : Located config m₁ c)
    (hconcludes : c.Concludes m₁.sweep.row.size .sat) {i : Nat}
    (hb : c.machine.sweep.row.buckets[i]? = some b) : ∃ d : Bucket, b = d.emptied := by
  obtain ⟨hwf, hsize⟩ := h.wellFormed
  obtain ⟨-, -, rfl⟩ := hwf i b hb
  have hget : c.machine.sweep.row.get b.var = .ok b := Row.get_eq_ok_iff.2 hb
  have hlt : b.var.index < m₁.sweep.row.size := hsize ▸ Row.lt_size_of_get hget
  have hstep : config.order.stepOf m₁.sweep.row.size b.var < m₁.sweep.row.size :=
    Order.stepOf_lt hlt
  have hthrough : config.order.stepOf m₁.sweep.row.size b.var < c.step ∨
      config.order.stepOf m₁.sweep.row.size b.var = c.step ∧ c.machine.stage ≠ .taking := by
    simp only [Concludes] at hconcludes
    by_cases hstage : c.machine.stage = .taking
    · have hzero : c.machine.stage.passed = 0 := by rw [hstage]; rfl
      exact .inl (by omega)
    · have hone := c.machine.stage.passed_le
      exact (Nat.lt_or_eq_of_le (by omega)).imp_right fun heq => ⟨heq, hstage⟩
  obtain ⟨d, hd⟩ := h.emptied (config.order.varAt?_stepOf hlt) hthrough
  exact ⟨d, Except.ok.inj (hget.symm.trans hd)⟩

/-- The counters of buckets tell how many steps are through. -/
theorem Reached.passed_eq (h : Reached config m₁ c) :
    c.machine.sweep.stats.passed = m₁.sweep.stats.passed + c.step + c.machine.stage.passed := by
  induction h with
  | refl => rfl
  | @tail c c' _ hmoves ih =>
    cases hmoves with
    | act hvar hmove =>
      have hpassed := Machine.passed_of_move? hmove
      simp only
      omega
    | next hstage hlt =>
      rw [hstage] at ih
      exact ih

end

/-! ## Forward -/

/-- What holds of a state of a sweep that began with the machine `m`. -/
structure Forward (config : Config) (m : Machine) (c : Course) : Prop where
  /-- Clauses are merged only into buckets of later steps, and nothing else is written. -/
  writes : ∀ v a m', config.order.varAt? c.step m.sweep.row.size = some v →
    c.machine.move? config c.step v a = some m' →
      c.Writes config.order m.sweep.row.size (c.machine.merges a) m'.sweep.row
  /-- The buckets of the steps before, and of this step once it was taken, are empty. -/
  emptied : ∀ i w, config.order.varAt? i m.sweep.row.size = some w →
    i < c.step ∨ i = c.step ∧ c.machine.stage ≠ .taking →
      ∃ b, c.machine.sweep.row.get w = .ok b ∧ b.isEmpty = true ∧ b.allClauses = []
  /-- Without the empty clause all buckets are empty in the end, and each was counted. -/
  sat : c.Concludes m.sweep.row.size .sat →
    (∀ (i : Nat) (b : Bucket), c.machine.sweep.row.buckets[i]? = some b →
      b.isEmpty = true ∧ b.allClauses = []) ∧
    c.machine.sweep.stats.passed = m.sweep.stats.passed + m.sweep.row.size
  /-- With the empty clause the steps before this one were counted. -/
  unsat : c.Concludes m.sweep.row.size .unsat →
    c.machine.sweep.stats.passed = m.sweep.stats.passed + c.step

/-- In every state of a sweep, under every order of moves and merges, clauses go forward and buckets
that were taken are empty.  A sweep that returns a verdict, whatever these orders were, and the
executable sweep among them, has come to such a state, which is at its end with this verdict. -/
theorem reached_forward (config : Config) {m : Machine} (hidle : m.Idle)
    (hrow : m.sweep.row.WellFormed config.order) :
    (∀ c, Reached config m c → c.Forward config m) ∧
      (∀ m' verdict,
        Machine.Sweeps config m.sweep.row.size m.sweep.row.size m m' (.ok verdict) →
          ∃ c, Reached config m c ∧ c.machine.sweep = m'.sweep ∧
            c.Concludes m.sweep.row.size verdict) ∧
      ∀ shuffler verdict, (Sweep.run shuffler config m.sweep).2 = .ok verdict →
        ∃ c, Reached config m c ∧ c.machine.sweep = (Sweep.run shuffler config m.sweep).1 ∧
          c.Concludes m.sweep.row.size verdict := by
  have hends : ∀ m' verdict,
      Machine.Sweeps config m.sweep.row.size m.sweep.row.size m m' (.ok verdict) →
        ∃ c, Reached config m c ∧ c.machine.sweep = m'.sweep ∧
          c.Concludes m.sweep.row.size verdict := by
    intro m' verdict hsweeps
    obtain ⟨c, hreached, hsweep, hconcludes⟩ := exists_reached_of_sweeps hsweeps
    exact ⟨c, hreached, hsweep, hconcludes verdict rfl⟩
  refine ⟨fun c hreached => ?_, hends, fun shuffler verdict hverdict => ?_⟩
  · have hlocated := hreached.located hidle hrow
    have hpassed := hreached.passed_eq
    refine ⟨fun v a m' hvar hmove => hlocated.writes hvar hmove, fun i w hw hi => ?_,
      fun hconcludes => ⟨fun i b hb => ?_, ?_⟩, fun hconcludes => ?_⟩
    · obtain ⟨d, hd⟩ := hlocated.emptied hw hi
      exact ⟨d.emptied, hd, rfl, rfl⟩
    · obtain ⟨d, rfl⟩ := hlocated.emptied_of_concludes hconcludes hb
      exact ⟨rfl, rfl⟩
    · rw [hpassed, Nat.add_assoc, hconcludes]
    · rw [hpassed, hconcludes]
      rfl
  · obtain ⟨m', hsweeps, hm'⟩ :=
      Machine.sweeps_serial config shuffler m.sweep.row.size m.sweep.row.size hidle
    have hresult : (Sweep.runFrom shuffler config m.sweep.row.size m.sweep.row.size m.sweep).2 =
        .ok verdict := hverdict
    rw [hresult] at hsweeps
    obtain ⟨c, hreached, hsweep, hconcludes⟩ := hends m' verdict hsweeps
    exact ⟨c, hreached, hsweep.trans hm', hconcludes⟩

/-- The theorem on the machine of a solver that has loaded two clauses, with three workers. -/
theorem reached_forward_resolvingSolver :
    (resolvingSolver.machine 3).Idle ∧
      (resolvingSolver.machine 3).sweep.row.WellFormed resolvingSolver.config.order ∧
      ∀ shuffler, ∃ verdict c,
        (Sweep.run shuffler resolvingSolver.config (resolvingSolver.machine 3).sweep).2 =
            .ok verdict ∧
          Reached resolvingSolver.config (resolvingSolver.machine 3) c ∧
          c.Forward resolvingSolver.config (resolvingSolver.machine 3) ∧
          c.Concludes (resolvingSolver.machine 3).sweep.row.size verdict := by
  have hidle := resolvingSolver.idle_machine 3
  have hrow : (resolvingSolver.machine 3).sweep.row.WellFormed resolvingSolver.config.order :=
    standsFor_resolvingSolver.wellFormed
  have hcovers : (resolvingSolver.machine 3).sweep.row.Covers
      (resolvingSolver.machine 3).sweep.row.clauses := standsFor_resolvingSolver.covers
  obtain ⟨hforward, -, hrun⟩ := reached_forward resolvingSolver.config hidle hrow
  refine ⟨hidle, hrow, fun shuffler => ?_⟩
  obtain ⟨m', hsweeps, -⟩ := Machine.sweeps_serial resolvingSolver.config shuffler
    (resolvingSolver.machine 3).sweep.row.size (resolvingSolver.machine 3).sweep.row.size hidle
  obtain ⟨verdict, hverdict⟩ := hsweeps.returns hidle hrow rfl (Nat.le_refl _) hcovers
  obtain ⟨c, hreached, -, hconcludes⟩ := hrun shuffler verdict hverdict
  exact ⟨verdict, c, hverdict, hreached, hforward c hreached, hconcludes⟩

end Course

end BucketElimination
