import BucketElimination.Proofs.SettledBuckets
import BucketElimination.Proofs.SolverVerdict
import Mathlib.Logic.Relation
set_option autoImplicit false

/-!
# The course of a sweep: a barrier between buckets, and no fault

A sweep is followed move by move over all its steps, in any order in which the scheduler and the
workers may move, and also after the scheduler has returned with the empty clause while workers are
still busy.  Each step begins with all workers free, with the buckets of all earlier steps as their
taking left them, and with all resolvents of these in the buckets of the steps to come.  What
happens within a step is known from its beginning, since only buckets of later variables change.

So the scheduler takes a bucket only when nothing of an earlier step is under way and everything
that belongs in the bucket is there, and nothing is written into a bucket once it was taken.  No
internal check fails along the way if all clauses are over variables with buckets.
-/

namespace BucketElimination

/-! ## Steps and variables -/

/-- Variables of earlier steps are not eliminated later. -/
theorem Order.precedes_eq_false_of_le {order : Order} {varCount i j : Nat} {u v : Var}
    (hu : order.varAt? i varCount = some u) (hv : order.varAt? j varCount = some v) (h : i ≤ j) :
    order.precedes v u = false := by
  rw [← Bool.not_eq_true, Order.precedes_iff_lt hv hu]
  exact Nat.not_lt_of_le h

/-! ## Courses -/

/-- The scheduler is through with the variable, which counts for one step. -/
def Stage.passed : Stage → Nat
  | .returned (.ok false) => 1
  | _ => 0

/-- How far a sweep is. -/
structure Course where
  step : Nat
  /-- The buckets that were taken, one per step. -/
  taken : List Bucket
  machine : Machine

namespace Course

/-- The bucket that an action takes out of the row. -/
def takes (v : Var) (m : Machine) : Action → List Bucket
  | .schedule =>
    match m.stage, m.sweep.row.get v with
    | .taking, .ok b => [b]
    | _, _ => []
  | _ => []

/-- One move of a sweep over `varCount` variables. -/
inductive Moves (config : Config) (varCount : Nat) : Course → Course → Prop
  /-- The scheduler or a worker moves. -/
  | act {c : Course} {v : Var} {a : Action} {m : Machine} :
      config.order.varAt? c.step varCount = some v → c.machine.move? config c.step v a = some m →
        Moves config varCount c
          { c with taken := c.taken ++ takes v c.machine a, machine := m }
  /-- The scheduler turns to the next step. -/
  | next {c : Course} : c.machine.stage = .returned (.ok false) → c.step + 1 < varCount →
      Moves config varCount c
        { c with step := c.step + 1, machine := { c.machine with stage := .taking } }

/-- A sweep that begins. -/
def start (m : Machine) : Course := ⟨0, [], { m with stage := .taking }⟩

/-- A sweep of all variables can come this far. -/
def Reached (config : Config) (m : Machine) (c : Course) : Prop :=
  Relation.ReflTransGen (Moves config m.sweep.row.size) (start m) c

/-! ## The beginning of a step -/

/-- With the machine `m` a step begins, after the buckets `earlier` were taken in the steps before
it; `m₁` is the machine with which the sweep began. -/
structure Begins (config : Config) (m₁ : Machine) (step : Nat) (earlier : List Bucket)
    (m : Machine) : Prop where
  idle : m.Idle
  wellFormed : m.sweep.row.WellFormed config.order
  size_eq : m.sweep.row.size = m₁.sweep.row.size
  length_eq : earlier.length = step
  /-- A bucket that was taken stays empty. -/
  emptied : ∀ i b v, earlier[i]? = some b → config.order.varAt? i m₁.sweep.row.size = some v →
    m.sweep.row.get v = .ok b.emptied
  wellFormed_taken : ∀ b ∈ earlier, b.WellFormed ∧ b.order = config.order
  /-- Resolvents wait where they belong. -/
  resolved : ∀ b ∈ earlier,
    ∀ r ∈ resolvents config.order (b.clauses .positive) (b.clauses .negative),
      ∀ j w p, step ≤ j → config.order.varAt? j m₁.sweep.row.size = some w →
        config.order.pivot? r.lits = some ⟨w, p⟩ → r ∈ m.sweep.row.clauses
  covers : m₁.sweep.row.Covers m₁.sweep.row.clauses → m.sweep.row.Covers m.sweep.row.clauses

section

variable {config : Config} {m₁ m m' : Machine} {step : Nat} {earlier : List Bucket} {v : Var}
  {b : Bucket}

theorem begins_start (hidle : m₁.Idle) (hrow : m₁.sweep.row.WellFormed config.order) :
    Begins config m₁ 0 [] m₁ :=
  ⟨hidle, hrow, rfl, rfl, nofun, nofun, nofun, id⟩

/-- Within a step, the buckets that were taken stay as they are. -/
theorem Begins.get_of_settled {tasks : List Task} (h : Begins config m₁ step earlier m)
    (hvar : config.order.varAt? step m₁.sweep.row.size = some v) (hget : m.sweep.row.get v = .ok b)
    (hsettled : m'.Settled config.order v (m.sweep.row.set v b.emptied) tasks) {i : Nat}
    {d : Bucket} {u : Var} (hd : (earlier ++ [b])[i]? = some d)
    (hu : config.order.varAt? i m₁.sweep.row.size = some u) :
    m'.sweep.row.get u = .ok d.emptied := by
  have hle : i ≤ step := by
    have hlt := (List.getElem?_eq_some_iff.1 hd).1
    rw [List.length_append, List.length_singleton, h.length_eq] at hlt
    omega
  rw [hsettled.get_eq u (Order.precedes_eq_false_of_le hu hvar hle)]
  rcases Nat.lt_or_eq_of_le hle with hlt | rfl
  · have hne : u ≠ v := by
      rintro rfl
      have hsame := Order.stepOf_of_varAt? hu
      rw [Order.stepOf_of_varAt? hvar] at hsame
      omega
    rw [List.getElem?_append_left (h.length_eq.symm ▸ hlt)] at hd
    rw [Row.get_set_of_ne hne]
    exact h.emptied i d u hd hu
  · rw [hvar] at hu
    rw [List.getElem?_append_right (Nat.le_of_eq h.length_eq), h.length_eq, Nat.sub_self] at hd
    cases hu
    cases hd
    exact Row.get_set_self hget _

/-- A step that ends without the empty clause leads to the beginning of the next. -/
theorem Begins.next (h : Begins config m₁ step earlier m)
    (hvar : config.order.varAt? step m₁.sweep.row.size = some v) (hget : m.sweep.row.get v = .ok b)
    (he : Machine.Eliminates config step v m m' (.ok false)) :
    Begins config m₁ (step + 1) (earlier ++ [b]) m' := by
  have heliminated : Machine.Eliminated config.order b m.sweep m'.sweep :=
    he.achieves h.idle h.wellFormed hget
  obtain ⟨tasks, -, hsettled⟩ := he.2.settled h.idle h.wellFormed hget (by rw [he.1]; nofun)
  obtain ⟨hwf, horder, hbucket⟩ := h.wellFormed.get hget
  obtain ⟨hidle, -⟩ := h.idle.of_eliminates he
  refine ⟨hidle, heliminated.wellFormed, heliminated.size_eq.trans h.size_eq, ?_, ?_, ?_, ?_,
    fun hcovers => heliminated.covers h.wellFormed hget (h.covers hcovers)⟩
  · rw [List.length_append, h.length_eq, List.length_singleton]
  · intro i d u hd hu
    exact h.get_of_settled hvar hget hsettled hd hu
  · intro d hd
    rcases List.mem_append.1 hd with hd | hd
    · exact h.wellFormed_taken d hd
    · rw [List.mem_singleton.1 hd]
      exact ⟨hwf, horder⟩
  · intro d hd r hr j w p hj hw hpivot
    apply (heliminated.mem_clauses r).2
    rcases List.mem_append.1 hd with hd | hd
    · refine .inl ⟨h.resolved d hd r hr j w p (by omega) hw hpivot, fun hmem => ?_⟩
      -- a clause of the bucket has the variable of this step as pivot
      obtain ⟨q, hq⟩ := Bucket.mem_allClauses.1 hmem
      have hpivot' := hwf.pivot_of_mem hq
      rw [horder, hpivot, hbucket] at hpivot'
      cases hpivot'
      have hsame := Order.stepOf_of_varAt? hw
      rw [Order.stepOf_of_varAt? hvar] at hsame
      omega
    · rw [List.mem_singleton.1 hd] at hr
      exact .inr hr

end

/-! ## Every state of a sweep -/

/-- A sweep is at the beginning of a step, or it has taken the bucket of the step and has gone on
from there. -/
inductive Located (config : Config) (m₁ : Machine) (c : Course) : Prop
  | atStart {m : Machine} : Begins config m₁ c.step c.taken m →
      c.machine = { m with stage := .taking } → Located config m₁ c
  | within {m : Machine} {earlier : List Bucket} {v : Var} {b : Bucket} :
      Begins config m₁ c.step earlier m →
        config.order.varAt? c.step m₁.sweep.row.size = some v → m.sweep.row.get v = .ok b →
          c.taken = earlier ++ [b] → c.machine.stage ≠ .taking →
            Machine.Reaches config c.step v { m with stage := .taking } c.machine →
              Located config m₁ c

section

variable {config : Config} {step : Nat} {v : Var} {m m' : Machine} {a : Action}

/-- The bucket of a step is taken once. -/
theorem stage_ne_taking (h : m.stage ≠ .taking) (hmove : m.move? config step v a = some m') :
    m'.stage ≠ .taking := by
  cases a with
  | schedule =>
    rcases Machine.schedule?_cases hmove with ⟨hstage, -⟩ | ⟨_, _, _, _, -, rfl⟩ |
      ⟨_, _, -, rfl⟩ | ⟨_, _, -, rfl⟩ | ⟨_, _, _, _, _, _, -, -, rfl⟩ |
      ⟨_, _, _, _, ⟨ending, stats⟩, _, -, -, rfl⟩
    · exact absurd hstage h
    · nofun
    · nofun
    · nofun
    · nofun
    · cases ending <;> nofun
  | start =>
    obtain ⟨_, _, -, -, rfl⟩ := Machine.start?_eq_some hmove
    exact h
  | work position choice =>
    obtain ⟨_, _, _, -, ⟨_, _, _, -, rfl⟩ | ⟨_, _, _, -, rfl⟩⟩ := Machine.work?_eq_some hmove
    · exact h
    · exact h

/-- With all workers free, only the scheduler can move, and it takes the bucket. -/
theorem move?_of_idle (hidle : m.Idle)
    (hmove : { m with stage := .taking }.move? config step v a = some m') :
    a = .schedule ∧ m' = { m with stage := .taking }.takeBucket config step v := by
  cases a with
  | schedule => exact ⟨rfl, (Option.some.inj hmove).symm⟩
  | start => simp [Machine.move?, Machine.start?, Pool.begin?, hidle.queued_eq] at hmove
  | work position choice => simp [Machine.move?, Machine.work?, hidle.workers_eq] at hmove

theorem takes_of_ne_taking (h : m.stage ≠ .taking) (v : Var) (a : Action) : takes v m a = [] := by
  cases a with
  | schedule =>
    simp only [takes]
    split
    · rename_i hstage _
      exact absurd hstage h
    · rfl
  | start => rfl
  | work position choice => rfl

end

section

variable {config : Config} {m₁ : Machine} {c c' : Course}

theorem Located.moves (h : Located config m₁ c) (hmoves : Moves config m₁.sweep.row.size c c') :
    Located config m₁ c' := by
  cases hmoves with
  | @act v a m' hvar hmove =>
    cases h with
    | @atStart m hbegins hmachine =>
      obtain ⟨b, hget⟩ := Row.exists_get_of_lt (hbegins.size_eq ▸ Order.index_lt_of_varAt? hvar)
      rw [hmachine] at hmove
      obtain ⟨rfl, rfl⟩ := move?_of_idle hbegins.idle hmove
      have htakes : takes v c.machine .schedule = [b] := by simp only [takes, hmachine, hget]
      refine .within hbegins hvar hget ?_ ?_ (.head .schedule hmove (.refl _))
      · simp only [htakes]
      · obtain ⟨-, -, ⟨f, hstage⟩ | hstage | ⟨bucket, tasks, hstage⟩⟩ :=
          Machine.takeBucket_control config c.step v { m with stage := .taking }
        · simp [hstage]
        · simp [hstage]
        · simp [hstage]
    | @within m earlier u b hbegins hvar' hget htaken hstage hreaches =>
      obtain rfl : v = u := Option.some.inj (hvar.symm.trans hvar')
      refine .within hbegins hvar hget ?_ (stage_ne_taking hstage hmove)
        (hreaches.trans (.head a hmove (.refl _)))
      simp only [takes_of_ne_taking hstage, List.append_nil, htaken]
  | next hstage hlt =>
    cases h with
    | atStart hbegins hmachine =>
      rw [hmachine] at hstage
      cases hstage
    | @within m earlier v b hbegins hvar hget htaken _ hreaches =>
      refine .atStart ?_ rfl
      rw [htaken]
      exact hbegins.next hvar hget ⟨hstage, hreaches⟩

/-- Wherever a sweep is, it came there through the beginnings of its steps. -/
theorem Reached.located (h : Reached config m₁ c) (hidle : m₁.Idle)
    (hrow : m₁.sweep.row.WellFormed config.order) : Located config m₁ c := by
  induction h with
  | refl => exact .atStart (begins_start hidle hrow) rfl
  | tail _ hmoves ih => exact ih.moves hmoves

end

/-! ## The executable sweep is one of the courses -/

/-- A sweep is at its end: all steps are through, or the empty clause was derived. -/
def Concludes (varCount : Nat) (c : Course) : Verdict → Prop
  | .sat => c.step + c.machine.stage.passed = varCount
  | .unsat => c.machine.stage = .returned (.ok true)

section

variable {config : Config} {varCount left : Nat} {m m' : Machine} {result : Except Fault Verdict}

theorem exists_moves_of_reaches {step : Nat} {v : Var}
    (hvar : config.order.varAt? step varCount = some v)
    (hreaches : Machine.Reaches config step v m m') (taken : List Bucket) :
    ∃ taken', Relation.ReflTransGen (Moves config varCount) ⟨step, taken, m⟩
      ⟨step, taken', m'⟩ := by
  obtain ⟨actions, hfollow⟩ := hreaches
  induction actions generalizing m taken with
  | nil =>
    cases hfollow
    exact ⟨taken, .refl⟩
  | cons a actions ih =>
    unfold Machine.follow? at hfollow
    cases hmove : m.move? config step v a with
    | none =>
      rw [hmove] at hfollow
      cases hfollow
    | some n =>
      rw [hmove] at hfollow
      obtain ⟨taken', hrest⟩ := ih (taken ++ takes v m a) hfollow
      exact ⟨taken', .head (.act hvar hmove) hrest⟩

/-- The moves of a sweep, step after step, are those of a course. -/
theorem exists_moves_of_sweeps (h : Machine.Sweeps config varCount left m m' result)
    (hleft : left ≤ varCount) (taken : List Bucket) :
    ∃ c, Relation.ReflTransGen (Moves config varCount)
      ⟨varCount - left, taken, { m with stage := .taking }⟩ c ∧ c.machine.sweep = m'.sweep ∧
      ∀ verdict, result = .ok verdict → c.Concludes varCount verdict := by
  induction h generalizing taken with
  | sat m =>
    refine ⟨_, .refl, rfl, ?_⟩
    rintro verdict ⟨⟩
    rfl
  | noVar m hvar => exact ⟨_, .refl, rfl, nofun⟩
  | fault hvar he =>
    obtain ⟨taken', hmoves⟩ := exists_moves_of_reaches hvar he.2 taken
    exact ⟨_, hmoves, rfl, nofun⟩
  | unsat hvar he =>
    obtain ⟨taken', hmoves⟩ := exists_moves_of_reaches hvar he.2 taken
    refine ⟨_, hmoves, rfl, ?_⟩
    rintro verdict ⟨⟩
    exact he.1
  | @next left v m m₁ m' result hvar he hrest ih =>
    obtain ⟨taken', hmoves⟩ := exists_moves_of_reaches hvar he.2 taken
    cases left with
    | zero =>
      -- the last step was the last move
      cases hrest
      refine ⟨_, hmoves, rfl, ?_⟩
      rintro verdict ⟨⟩
      simp only [Concludes, he.1, Stage.passed]
      omega
    | succ left =>
      obtain ⟨c, hafter, hsweep, hconcludes⟩ := ih (by omega) taken'
      have hstep : varCount - (left + 1 + 1) + 1 = varCount - (left + 1) := by omega
      have hnext : Moves config varCount ⟨varCount - (left + 1 + 1), taken', m₁⟩
          ⟨varCount - (left + 1), taken', { m₁ with stage := .taking }⟩ := by
        have hlt : varCount - (left + 1 + 1) + 1 < varCount := by omega
        rw [← hstep]
        exact .next he.1 hlt
      exact ⟨c, hmoves.trans (.head hnext hafter), hsweep, hconcludes⟩

/-- A sweep that came to an end has followed one of the courses to its end. -/
theorem exists_reached_of_sweeps
    (h : Machine.Sweeps config m.sweep.row.size m.sweep.row.size m m' result) :
    ∃ c, Reached config m c ∧ c.machine.sweep = m'.sweep ∧
      ∀ verdict, result = .ok verdict → c.Concludes m.sweep.row.size verdict := by
  have hmoves := exists_moves_of_sweeps h (Nat.le_refl _) []
  rwa [Nat.sub_self] at hmoves

/-- With the tasks one after the other a sweep follows one of the courses. -/
theorem exists_reached_run (hidle : m.Idle) (shuffler : Shuffler) :
    ∃ c, Reached config m c ∧ c.machine.sweep = (Sweep.run shuffler config m.sweep).1 := by
  obtain ⟨m', hsweeps, hm'⟩ :=
    Machine.sweeps_serial config shuffler m.sweep.row.size m.sweep.row.size hidle
  obtain ⟨c, hreached, hsweep, -⟩ := exists_reached_of_sweeps hsweeps
  exact ⟨c, hreached, hsweep.trans hm'⟩

end

/-! ## The barrier -/

/-- What a barrier between the steps guarantees of a state of a sweep over `varCount` variables. -/
structure Barred (order : Order) (varCount : Nat) (c : Course) : Prop where
  /-- Nothing is written into a bucket after it was taken. -/
  untouched : ∀ i b v, c.taken[i]? = some b → order.varAt? i varCount = some v →
    c.machine.sweep.row.get v = .ok b.emptied
  /-- A bucket was taken in each of the steps before. -/
  length_eq : c.machine.stage = .taking → c.taken.length = c.step
  /-- No job of an earlier step is queued, running or posted, and the flag is not raised. -/
  idle : c.machine.stage = .taking → c.machine.Idle
  /-- Resolvents of the buckets that were taken wait in the buckets of the steps to come. -/
  resolved : c.machine.stage = .taking → ∀ b ∈ c.taken,
    ∀ p ∈ b.clauses .positive, ∀ n ∈ b.clauses .negative, ∀ r : Clause, r.ResolventOf b.var p n →
      ∀ j w q, c.step ≤ j → order.varAt? j varCount = some w →
        order.pivot? r.lits = some ⟨w, q⟩ →
          ∃ target, c.machine.sweep.row.get w = .ok target ∧ r ∈ target.clauses q

section

variable {config : Config} {m₁ : Machine} {c : Course}

theorem Begins.barred {m : Machine} (h : Begins config m₁ c.step c.taken m)
    (hmachine : c.machine = { m with stage := .taking }) :
    c.Barred config.order m₁.sweep.row.size := by
  have hsweep : c.machine.sweep = m.sweep := by rw [hmachine]
  refine ⟨?_, fun _ => h.length_eq, fun _ => ?_, fun _ => ?_⟩
  · rw [hsweep]
    exact h.emptied
  · rw [hmachine]
    exact h.idle.atStage .taking
  · intro b hb p hp n hn r hr j w q hj hw hpivot
    obtain ⟨hwf, horder⟩ := h.wellFormed_taken b hb
    have hne : r.lits ≠ [] := List.ne_nil_of_mem (Order.pivot_mem hpivot)
    have hresolve := hr.resolve hne (hwf.pivot_of_mem hp) (hwf.pivot_of_mem hn)
    rw [horder] at hresolve
    have hmem := h.resolved b hb r (mem_resolvents.2 ⟨p, hp, n, hn, hresolve⟩) j w q hj hw hpivot
    obtain ⟨target, hget⟩ :=
      Row.exists_get_of_lt (h.size_eq ▸ Order.index_lt_of_varAt? hw)
    rw [hsweep]
    exact ⟨target, hget, (h.wellFormed.mem_clauses_iff_of_get hget hpivot).1 hmem⟩

/-- In every state of a sweep, under every order of moves and merges, there is a barrier between the
steps, and with the tasks one after the other the sweep goes through such states. -/
theorem reached_barred (config : Config) {m : Machine} (hidle : m.Idle)
    (hrow : m.sweep.row.WellFormed config.order) :
    (∀ c, Reached config m c → c.Barred config.order m.sweep.row.size) ∧
      ∀ shuffler, ∃ c, Reached config m c ∧
        c.machine.sweep = (Sweep.run shuffler config m.sweep).1 := by
  refine ⟨fun c hreached => ?_, exists_reached_run hidle⟩
  cases hreached.located hidle hrow with
  | atStart hbegins hmachine => exact hbegins.barred hmachine
  | within hbegins hvar hget htaken hstage hreaches =>
    obtain ⟨tasks, -, hsettled⟩ := hreaches.settled hbegins.idle hbegins.wellFormed hget hstage
    refine ⟨?_, fun hf => absurd hf hstage, fun hf => absurd hf hstage,
      fun hf => absurd hf hstage⟩
    intro i d u hd hu
    rw [htaken] at hd
    exact hbegins.get_of_settled hvar hget hsettled hd hu

/-- A solver that has loaded two clauses which the second variable resolves to a third. -/
def resolvingSolver : Solver := (Solver.new.load 2 Solver.resolvingClauses).1

theorem standsFor_resolvingSolver : resolvingSolver.StandsFor Solver.resolvingClauses := by
  obtain ⟨s, hload, hstands⟩ :=
    Solver.standsFor_new.load_of_le 2 Solver.resolvingClauses (by decide) (by decide)
  have hsolver : resolvingSolver = s := congrArg Prod.fst hload
  rwa [hsolver]

/-- The theorem on this solver's machine with three workers. -/
theorem reached_barred_resolvingSolver :
    (resolvingSolver.machine 3).Idle ∧
      (resolvingSolver.machine 3).sweep.row.WellFormed resolvingSolver.config.order ∧
      (∀ c, Reached resolvingSolver.config (resolvingSolver.machine 3) c →
        c.Barred resolvingSolver.config.order resolvingSolver.row.size) ∧
      ∀ shuffler, ∃ c, Reached resolvingSolver.config (resolvingSolver.machine 3) c ∧
        c.machine.sweep =
          (Sweep.run shuffler resolvingSolver.config (resolvingSolver.machine 3).sweep).1 := by
  have hidle := resolvingSolver.idle_machine 3
  have hrow : (resolvingSolver.machine 3).sweep.row.WellFormed resolvingSolver.config.order :=
    standsFor_resolvingSolver.wellFormed
  exact ⟨hidle, hrow, reached_barred resolvingSolver.config hidle hrow⟩

/-! ## No fault

Every check of a task or of the scheduler that does not hold ends it with a fault.  Two checks are
part of a type instead: a chunk has room for a clause, by its `Capacity`, and only a chunk with
clauses can be handed to `Side.splice`. -/

/-- No internal check has failed: the scheduler has not returned a fault, and no task has ended with
one, whether or not its result was received. -/
structure Faultless (c : Course) : Prop where
  returned : ∀ f, c.machine.stage ≠ .returned (.error f)
  finished : ∀ ticket f, (ticket, Except.error f) ∉ c.machine.sweep.pool.finished

/-- If all clauses are over variables with buckets, no internal check fails in any state of a sweep,
under every order of moves and merges, so every sweep comes to a verdict. -/
theorem reached_faultless (config : Config) {m : Machine} (hidle : m.Idle)
    (hrow : m.sweep.row.WellFormed config.order)
    (hcovers : m.sweep.row.Covers m.sweep.row.clauses) :
    (∀ c, Reached config m c → c.Faultless) ∧
      (∀ m' result, Machine.Sweeps config m.sweep.row.size m.sweep.row.size m m' result →
        ∃ verdict, result = .ok verdict) ∧
      ∀ shuffler, ∃ verdict, (Sweep.run shuffler config m.sweep).2 = .ok verdict := by
  have hreturns : ∀ m' result,
      Machine.Sweeps config m.sweep.row.size m.sweep.row.size m m' result →
        ∃ verdict, result = .ok verdict := fun m' result hsweeps =>
    hsweeps.returns hidle hrow rfl (Nat.le_refl _) hcovers
  refine ⟨fun c hreached => ?_, hreturns, fun shuffler => ?_⟩
  · cases hreached.located hidle hrow with
    | atStart hbegins hmachine =>
      refine ⟨fun f => ?_, fun ticket f hf => ?_⟩
      · rw [hmachine]
        nofun
      · rw [hmachine, hbegins.idle.finished_eq] at hf
        cases hf
    | @within m₀ earlier v b hbegins hvar hget htaken hstage hreaches =>
      obtain ⟨tasks, htasks, hsettled⟩ :=
        hreaches.settled hbegins.idle hbegins.wellFormed hget hstage
      have hcovered : ¬ ∃ t ∈ tasks, ¬ t.Covered (m₀.sweep.row.set v b.emptied) := by
        rintro ⟨t, ht, hnot⟩
        obtain ⟨-, rfl⟩ := htasks t ht
        apply hnot
        intro c hc l hl
        rw [Row.size_set]
        exact hbegins.covers hcovers c
          (Row.mem_clauses_iff.2 ⟨_, _, Row.get_eq_ok_iff.1 hget, hc⟩) l hl
      exact ⟨fun f hf => hcovered (hsettled.returned f hf),
        fun ticket f hf => hcovered (hsettled.faulty ticket f hf)⟩
  · obtain ⟨m', hsweeps, -⟩ :=
      Machine.sweeps_serial config shuffler m.sweep.row.size m.sweep.row.size hidle
    exact hreturns m' _ hsweeps

/-- The theorem on the same machine. -/
theorem reached_faultless_resolvingSolver :
    (resolvingSolver.machine 3).Idle ∧
      (resolvingSolver.machine 3).sweep.row.WellFormed resolvingSolver.config.order ∧
      (resolvingSolver.machine 3).sweep.row.Covers (resolvingSolver.machine 3).sweep.row.clauses ∧
      (∀ c, Reached resolvingSolver.config (resolvingSolver.machine 3) c → c.Faultless) ∧
      ∀ shuffler, ∃ verdict,
        (Sweep.run shuffler resolvingSolver.config (resolvingSolver.machine 3).sweep).2 =
          .ok verdict := by
  have hidle := resolvingSolver.idle_machine 3
  have hrow : (resolvingSolver.machine 3).sweep.row.WellFormed resolvingSolver.config.order :=
    standsFor_resolvingSolver.wellFormed
  have hcovers : (resolvingSolver.machine 3).sweep.row.Covers
      (resolvingSolver.machine 3).sweep.row.clauses := standsFor_resolvingSolver.covers
  obtain ⟨hall, -, hverdict⟩ := reached_faultless resolvingSolver.config hidle hrow hcovers
  exact ⟨hidle, hrow, hcovers, hall, hverdict⟩

end

end Course

end BucketElimination
