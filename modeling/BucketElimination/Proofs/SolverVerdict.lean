import BucketElimination.Proofs.Loading
import BucketElimination.Proofs.StreamedReading
set_option autoImplicit false

/-!
# The verdict of the solver

Whatever is asked of a new solver before it solves, its buckets stand for the clauses that were
passed in: an assignment satisfies the buckets exactly if it satisfies all of these clauses, unless
one of them was empty, which the solver remembers as its verdict.  So the first answer is right,
whatever the configuration and the schedule of the workers.  Once a formula could not be read to its
end, the solver gives no verdict at all.
-/

namespace BucketElimination.Solver

open Machine

/-! ## What the solver stands for -/

/-- The solver is ready to load or solve, and stands for the clauses. -/
structure StandsFor (clauses : List (List Lit)) (s : Solver) : Prop where
  wellFormed : s.row.WellFormed s.config.order
  covers : s.row.Covers s.row.clauses
  /-- As long as the order can change there is no bucket. -/
  row_eq : s.loading = false → s.row = Row.empty
  unsolved : s.solved = false
  complete : s.loadFailed = false
  verdict : s.verdict = none ∧ (∀ a, s.row.SatisfiedBy a ↔ a.satisfiesAll clauses = true) ∨
    s.verdict = some .unsat ∧ ¬ Satisfiable clauses

theorem standsFor_new : StandsFor [] new where
  wellFormed := Row.wellFormed_empty _
  covers := fun c hc => by cases hc
  row_eq := fun _ => rfl
  unsolved := rfl
  complete := rfl
  verdict := .inl ⟨rfl, fun a => ⟨fun _ => rfl, fun _ c hc => by cases hc⟩⟩

section

variable {clauses : List (List Lit)} {s : Solver}

/-- Changing the configuration has no part in what the solver stands for. -/
theorem StandsFor.configure (h : StandsFor clauses s) (u : Update) :
    StandsFor clauses (s.configure u).1 := by
  unfold Solver.configure
  split
  · exact h
  · rename_i hloading
    have hrow := h.row_eq (by simpa using hloading)
    split
    · exact h
    · refine ⟨?_, h.covers, h.row_eq, h.unsolved, h.complete, h.verdict⟩
      show s.row.WellFormed _
      rw [hrow]
      exact Row.wellFormed_empty _

theorem satisfiesAll_append {a : Assignment} {clauses clauses' : List (List Lit)} :
    a.satisfiesAll (clauses ++ clauses') = true ↔
      a.satisfiesAll clauses = true ∧ a.satisfiesAll clauses' = true := by
  simp [Assignment.satisfiesAll, List.all_append]

/-- What cannot be satisfied stays so when more is asked. -/
theorem not_satisfiable_append {clauses : List (List Lit)} (h : ¬ Satisfiable clauses)
    (more : List (List Lit)) : ¬ Satisfiable (clauses ++ more) := by
  rintro ⟨a, ha⟩
  exact h ⟨a, (satisfiesAll_append.1 ha).1⟩

/-- Loading a clause over variables with buckets. -/
theorem StandsFor.loadClause (h : StandsFor clauses s) (hloading : s.loading = true)
    {lits : List Lit} (hlt : ∀ l ∈ lits, l.var.index < s.row.size) :
    ∃ s', s.loadClause lits = (s', .ok ()) ∧ StandsFor (clauses ++ [lits]) s' ∧
      s'.loading = true ∧ s'.row.size = s.row.size := by
  rcases h.verdict with ⟨hnone, hiff⟩ | ⟨hunsat, hnot⟩
  · obtain ⟨row, loaded, hload, hof⟩ := h.wellFormed.load hlt
    have hrun : s.loadClause lits = ({ s with row }.countLoaded loaded, .ok ()) := by
      rw [Solver.loadClause, if_neg (by rw [hnone]; decide), hload]
    refine ⟨_, hrun, ?_⟩
    have hall : loaded ≠ .empty → ∀ a, row.SatisfiedBy a ↔
        a.satisfiesAll (clauses ++ [lits]) = true := by
      intro hne a
      rw [hof.satisfiedBy_iff hne, hiff, satisfiesAll_append]
      simp [Assignment.satisfiesAll]
    have hready : ∀ stats, loaded ≠ .empty →
        StandsFor (clauses ++ [lits]) { s with row, stats } := fun stats hne =>
      ⟨hof.wellFormed, hof.covers h.covers, fun hf => absurd hloading (by rw [hf]; decide),
        h.unsolved, h.complete, .inl ⟨hnone, hall hne⟩⟩
    cases loaded with
    | filed => exact ⟨hready _ (by decide), hloading, hof.size_eq⟩
    | duplicate => exact ⟨hready _ (by decide), hloading, hof.size_eq⟩
    | tautology => exact ⟨hready _ (by decide), hloading, hof.size_eq⟩
    | empty =>
      have hkept : s.loading = false → row = Row.empty := fun hf =>
        absurd hloading (by rw [hf]; decide)
      refine ⟨⟨hof.wellFormed, hof.covers h.covers, hkept, h.unsolved, h.complete,
        .inr ⟨rfl, ?_⟩⟩, hloading, hof.size_eq⟩
      rintro ⟨a, ha⟩
      have hsat := (satisfiesAll_append.1 ha).2
      simp [Assignment.satisfiesAll, hof.of_empty rfl a] at hsat
  · refine ⟨s, ?_, ⟨h.wellFormed, h.covers, h.row_eq, h.unsolved, h.complete,
      .inr ⟨hunsat, not_satisfiable_append hnot _⟩⟩, hloading, rfl⟩
    rw [Solver.loadClause, if_pos hunsat]

theorem StandsFor.loadClauses (h : StandsFor clauses s) (hloading : s.loading = true)
    (more : List (List Lit)) (hlt : ∀ lits ∈ more, ∀ l ∈ lits, l.var.index < s.row.size) :
    ∃ s', loadClauses more s = (s', .ok ()) ∧ StandsFor (clauses ++ more) s' := by
  induction more generalizing clauses s with
  | nil => exact ⟨s, rfl, by rwa [List.append_nil]⟩
  | cons lits more ih =>
    obtain ⟨s₁, hrun, h₁, hloading₁, hsize⟩ := h.loadClause hloading (hlt lits List.mem_cons_self)
    obtain ⟨s', hrun', h'⟩ := ih h₁ hloading₁ fun x hx l hl => by
      rw [hsize]
      exact hlt x (List.mem_cons_of_mem _ hx) l hl
    refine ⟨s', ?_, by simpa using h'⟩
    rw [Solver.loadClauses, hrun]
    exact hrun'

/-- Loading clauses over counted variables, of which there are not too many. -/
theorem StandsFor.load_of_le (h : StandsFor clauses s) (count : Nat) (more : List (List Lit))
    (hle : ∀ lits ∈ more, ∀ l ∈ lits, l.var.number ≤ count) (hmax : count ≤ Var.maxNumber) :
    ∃ s', s.load count more = (s', .ok ()) ∧ StandsFor (clauses ++ more) s' := by
  rw [Solver.load, if_neg (by rw [h.unsolved]; decide)]
  obtain ⟨hwf, hclauses, hgrow, hsize⟩ :=
    h.wellFormed.extend s.config.chunkCapacity (count - s.row.size)
  have hlarge : count ≤ (s.row.extend s.config.order s.config.chunkCapacity
      (count - s.row.size)).size := by
    by_cases hcount : count ≤ s.row.size
    · omega
    · rw [hsize (by omega)]
      omega
  simp only [if_neg (Nat.not_lt_of_le hmax), Solver.growTo]
  generalize s.row.extend s.config.order s.config.chunkCapacity (count - s.row.size) = row at *
  have hgrown : StandsFor clauses { s with loading := true, row, varCount := row.size } := by
    refine ⟨hwf, fun c hc l hl => ?_, fun hfalse => ?_, h.unsolved, h.complete, ?_⟩
    · simp only [hclauses] at hc
      exact Nat.lt_of_lt_of_le (h.covers c hc l hl) hgrow
    · cases hfalse
    · rcases h.verdict with ⟨hnone, hiff⟩ | hunsat
      · refine .inl ⟨hnone, fun a => ?_⟩
        rw [← hiff a, Row.SatisfiedBy, Row.SatisfiedBy, hclauses]
      · exact .inr hunsat
  apply hgrown.loadClauses rfl more
  intro lits hlits l hl
  exact Nat.lt_of_lt_of_le (Var.index_lt_iff.2 (hle lits hlits l hl)) hlarge

/-- With too many variables the solver gives up. -/
theorem StandsFor.load (h : StandsFor clauses s) {count : Nat} {more : List (List Lit)}
    (hle : ∀ lits ∈ more, ∀ l ∈ lits, l.var.number ≤ count) :
    (∃ f, (s.load count more).2 = .error (.fault f)) ∨
      ∃ s', s.load count more = (s', .ok ()) ∧ StandsFor (clauses ++ more) s' := by
  by_cases hmax : count ≤ Var.maxNumber
  · exact .inr (h.load_of_le count more hle hmax)
  · refine .inl ⟨.tooManyVars count, ?_⟩
    rw [Solver.load, if_neg (by rw [h.unsolved]; decide)]
    simp only [if_pos (Nat.lt_of_not_le hmax)]

/-- A formula counts its variables, so it can be loaded unless there are too many of them. -/
theorem StandsFor.addFormula (h : StandsFor clauses s) {f : Formula} (hf : f.Reachable) :
    (∃ fault, (s.addFormula f).2 = .error (.fault fault)) ∨
      ∃ s', s.addFormula f = (s', .ok ()) ∧ StandsFor (clauses ++ f.clauses) s' :=
  h.load fun _ hlits _ hl => hf.wellFormed.number_le_of_mem hlits hl

/-- Formulas that were all accepted were all loaded. -/
theorem StandsFor.visitAll {formulas : List Formula} {s' : Solver} (h : StandsFor clauses s)
    (hreachable : ∀ f ∈ formulas, f.Reachable)
    (hrun : Dimacs.visitAll (fun f s => s.addFormula f) formulas s = (s', .ok ())) :
    StandsFor (clauses ++ formulas.flatMap Formula.clauses) s' := by
  induction formulas generalizing clauses s with
  | nil =>
    cases hrun
    rwa [List.flatMap_nil, List.append_nil]
  | cons f formulas ih =>
    simp only [Dimacs.visitAll] at hrun
    rcases h.addFormula (hreachable f List.mem_cons_self) with ⟨fault, hfault⟩ | ⟨s₁, hadd, h₁⟩
    · rcases hadd : s.addFormula f with ⟨s₁, result⟩
      rw [hadd] at hrun hfault
      cases hfault
      cases hrun
    · rw [hadd] at hrun
      have h' := ih h₁ (fun g hg => hreachable g (List.mem_cons_of_mem _ hg)) hrun
      rwa [List.append_assoc] at h'

/-- A source that was read to its end passed in the clauses of its formula. -/
theorem StandsFor.addDimacs {source : Dimacs.Source} {s' : Solver} (h : StandsFor clauses s)
    (hrun : s.addDimacs source = (s', .ok ())) :
    ∃ F, Dimacs.read source = .ok F ∧ StandsFor (clauses ++ F.clauses) s' := by
  unfold Solver.addDimacs at hrun
  rcases hread : Dimacs.readInto Error.read (fun f s => s.addFormula f) source s with ⟨s₁, result⟩
  rw [hread] at hrun
  cases result with
  | error e => cases hrun
  | ok reader =>
    cases hrun
    obtain ⟨formulas, F, hvisits, hreachable, hF, hclauses⟩ := Dimacs.of_readInto_eq_ok hread
    have h₁ := h.visitAll hreachable hvisits
    rw [← hclauses] at h₁
    exact ⟨F, hF, h₁.wellFormed, h₁.covers, h₁.row_eq, h₁.unsolved, h₁.complete, h₁.verdict⟩

end

/-! ## Runs -/

/-- What can be asked of a solver before it solves. -/
inductive Call where
  | configure (u : Update)
  | addClause (lits : List Lit)
  | addFormula (f : Formula)
  | addDimacs (source : Dimacs.Source)

namespace Call

/-- Formulas are made clause by clause. -/
def WellFormed : Call → Prop
  | .addFormula f => f.Reachable
  | _ => True

/-- Ask the solver. -/
def run : Call → Solver → Solver × Except Error Unit
  | .configure u, s => s.configure u
  | .addClause lits, s => s.addClause lits
  | .addFormula f, s => s.addFormula f
  | .addDimacs source, s => s.addDimacs source

/-- The clauses that the call passes in. -/
def clauses : Call → List (List Lit)
  | .configure _ => []
  | .addClause lits => [lits]
  | .addFormula f => f.clauses
  | .addDimacs source =>
    match Dimacs.read source with
    | .error _ => []
    | .ok f => f.clauses

end Call

/-- Calls with their results. -/
abbrev History := List (Call × Except Error Unit)

/-- Make calls one after the other. -/
def record : List Call → Solver → History × Solver
  | [], s => ([], s)
  | call :: calls, s =>
    let (s, result) := call.run s
    let (history, s) := record calls s
    ((call, result) :: history, s)

namespace History

/-- The clauses that the successful calls passed in. -/
def clauses (history : History) : List (List Lit) :=
  history.flatMap fun entry =>
    match entry.2 with
    | .error _ => []
    | .ok () => entry.1.clauses

/-- Some source could not be read to its end. -/
def Incomplete (history : History) : Prop :=
  ∃ source e, (Call.addDimacs source, Except.error e) ∈ history

/-- No call gave up on an internal check. -/
def Faultless (history : History) : Prop :=
  ∀ call f, (call, Except.error (Error.fault f)) ∉ history

end History

/-- A call that succeeds, or is refused as such, leaves the solver standing for what was passed
in. -/
theorem StandsFor.call {clauses : List (List Lit)} {s s' : Solver} {call : Call}
    {result : Except Error Unit} (h : StandsFor clauses s) (hcall : call.WellFormed)
    (hrun : call.run s = (s', result)) (hfault : ∀ f, result ≠ .error (.fault f))
    (hread : ∀ source e, call = .addDimacs source → result ≠ .error e) :
    StandsFor (clauses ++ History.clauses [(call, result)]) s' := by
  have hload : ∀ more, (∃ f, (call.run s).2 = .error (.fault f)) ∨
      (∃ s', call.run s = (s', .ok ()) ∧ StandsFor (clauses ++ more) s') →
        call.clauses = more → StandsFor (clauses ++ History.clauses [(call, result)]) s' := by
    rintro more (⟨f, hf⟩ | ⟨s₁, hok, h₁⟩) rfl
    · rw [hrun] at hf
      exact absurd hf (hfault f)
    · rw [hrun] at hok
      cases hok
      simpa [History.clauses] using h₁
  cases call with
  | configure u =>
    have h' := h.configure u
    rw [show s.configure u = (s', result) from hrun] at h'
    cases result <;> simpa [History.clauses, Call.clauses] using h'
  | addClause lits =>
    refine hload [lits] (h.load fun x hx l hl => ?_) rfl
    rw [List.mem_singleton.1 hx] at hl
    exact Formula.number_le_maxVarNumber hl
  | addFormula f => exact hload f.clauses (h.addFormula hcall) rfl
  | addDimacs source =>
    cases result with
    | error e => exact absurd rfl (hread source e rfl)
    | ok done =>
      obtain ⟨F, hF, h'⟩ := h.addDimacs hrun
      simpa [History.clauses, Call.clauses, hF] using h'

/-- A run without faults in which every source was read leaves the solver standing for all clauses
that were passed in. -/
theorem StandsFor.record {clauses : List (List Lit)} {s : Solver} {calls : List Call}
    (h : StandsFor clauses s) (hcalls : ∀ call ∈ calls, call.WellFormed)
    (hfaultless : (record calls s).1.Faultless) (hcomplete : ¬ (record calls s).1.Incomplete) :
    StandsFor (clauses ++ (record calls s).1.clauses) (record calls s).2 := by
  induction calls generalizing clauses s with
  | nil => simpa [Solver.record, History.clauses] using h
  | cons call calls ih =>
    unfold Solver.record at hfaultless hcomplete ⊢
    rcases hrun : call.run s with ⟨s₁, result⟩
    rw [hrun] at hfaultless hcomplete
    rcases hrest : Solver.record calls s₁ with ⟨history, s'⟩
    simp only [hrest] at hfaultless hcomplete ⊢
    have h₁ := h.call (hcalls call List.mem_cons_self) hrun
      (fun f hf => hfaultless call f (hf ▸ List.mem_cons_self))
      (fun source e hsource he => hcomplete ⟨source, e, hsource ▸ he ▸ List.mem_cons_self⟩)
    have h' := ih h₁ (fun c hc => hcalls c (List.mem_cons_of_mem _ hc))
      (by rw [hrest]; exact fun c f hf => hfaultless c f (List.mem_cons_of_mem _ hf))
      (by rw [hrest]; exact fun ⟨source, e, he⟩ => hcomplete ⟨source, e, List.mem_cons_of_mem _ he⟩)
    rw [hrest, List.append_assoc] at h'
    simpa [History.clauses] using h'

/-! ## Sources that could not be read -/

/-- Loading has no part in whether the formula counts as incomplete. -/
theorem loadFailed_load (s : Solver) (count : Nat) (clauses : List (List Lit)) :
    (s.load count clauses).1.loadFailed = s.loadFailed := by
  have hclause : ∀ (s : Solver) lits, (s.loadClause lits).1.loadFailed = s.loadFailed := by
    intro s lits
    unfold Solver.loadClause
    split
    · rfl
    · rcases s.row.load s.config.order lits with ⟨row, f | loaded⟩
      · rfl
      · cases loaded <;> rfl
  have hclauses : ∀ (s : Solver), (loadClauses clauses s).1.loadFailed = s.loadFailed := by
    induction clauses with
    | nil => exact fun s => rfl
    | cons lits clauses ih =>
      intro s
      unfold Solver.loadClauses
      have hnext := hclause s lits
      rcases hrun : s.loadClause lits with ⟨s', e | done⟩
      · rwa [hrun] at hnext
      · rw [hrun] at hnext
        exact (ih s').trans hnext
  unfold Solver.load
  split
  · rfl
  · simp only
    split
    · rfl
    · exact hclauses _

/-- An incomplete formula stays incomplete. -/
theorem loadFailed_run {s : Solver} (h : s.loadFailed = true) (call : Call) :
    (call.run s).1.loadFailed = true := by
  cases call with
  | configure u =>
    rw [Call.run, Solver.configure]
    split
    · exact h
    · split
      · exact h
      · exact h
  | addClause lits => exact (loadFailed_load _ _ _).trans h
  | addFormula f => exact (loadFailed_load _ _ _).trans h
  | addDimacs source =>
    have hread := Dimacs.readInto_induction Error.read
      (fun f (s : Solver) => s.addFormula f) (P := fun s => s.loadFailed = true)
      (fun f s hs => (loadFailed_load _ _ _).trans hs) h source
    rw [Call.run, Solver.addDimacs]
    rcases hrun : Dimacs.readInto Error.read (fun f s => s.addFormula f) source s with
      ⟨s', e | reader⟩
    · simp only [hrun]
    · rw [hrun] at hread
      simp only [hrun]
      exact hread

theorem loadFailed_addDimacs {s s' : Solver} {source : Dimacs.Source} {e : Error}
    (h : s.addDimacs source = (s', .error e)) : s'.loadFailed = true := by
  unfold Solver.addDimacs at h
  rcases hrun : Dimacs.readInto Error.read (fun f s => s.addFormula f) source s with
    ⟨s₁, e₁ | reader⟩
  · rw [hrun] at h
    cases h
    rfl
  · rw [hrun] at h
    cases h

/-- After a source could not be read, the formula counts as incomplete. -/
theorem loadFailed_record {s : Solver} {calls : List Call}
    (h : s.loadFailed = true ∨ (record calls s).1.Incomplete) :
    (record calls s).2.loadFailed = true := by
  induction calls generalizing s with
  | nil =>
    rcases h with h | ⟨source, e, he⟩
    · exact h
    · cases he
  | cons call calls ih =>
    unfold Solver.record at h ⊢
    rcases hrun : call.run s with ⟨s₁, result⟩
    rw [hrun] at h
    have ih := ih (s := s₁)
    rcases hrest : Solver.record calls s₁ with ⟨history, s'⟩
    rw [hrest] at ih
    simp only [hrest] at h ⊢
    refine ih ?_
    rcases h with h | ⟨source, e, he⟩
    · have hkeep := loadFailed_run h call
      rw [hrun] at hkeep
      exact .inl hkeep
    · rcases List.mem_cons.1 he with heq | he
      · cases heq
        exact .inl (loadFailed_addDimacs hrun)
      · exact .inr ⟨source, e, he⟩

/-! ## Solving -/

/-- The machine with which the solver begins to eliminate. -/
def machine (s : Solver) (parallelism : Nat) : Machine :=
  let workers := s.config.workers parallelism
  let s := ((s.note (.eliminating s.row.size s.stats.inputClauses workers)).note
    (.initialBuckets s.row)).note (.workersStarted workers)
  ofSweep ⟨⟨workers, false, 0, [], [], []⟩, s.row, s.stats, s.journal⟩

/-- The answer that the result of a sweep leads to. -/
def answer : Except Fault Verdict → Except Error Bool
  | .error f => .error (.fault f)
  | .ok verdict => .ok (verdict == .sat)

/-- The solver gives the answer under some schedule of its workers. -/
def SolvesTo (s : Solver) (parallelism : Nat) (result : Except Error Bool) : Prop :=
  if s.loadFailed then result = .error .incompleteFormula
  else
    match s.verdict with
    | some verdict => result = .ok (verdict == .sat)
    | none => ∃ m' swept, Sweeps s.config s.row.size s.row.size (s.machine parallelism) m' swept ∧
        result = answer swept

theorem idle_machine (s : Solver) (parallelism : Nat) : (s.machine parallelism).Idle :=
  ⟨s.config.workers_pos parallelism, rfl, rfl, rfl, rfl, rfl⟩

/-- With the tasks one after the other, and the buckets shuffled in any way, the solver gives one of
these answers. -/
theorem solvesTo_solve (s : Solver) (shuffler : Shuffler) (parallelism : Nat) :
    s.SolvesTo parallelism (s.solve shuffler parallelism).2 := by
  rw [SolvesTo, Solver.solve]
  by_cases hfailed : s.loadFailed = true
  · simp only [if_pos hfailed]
  · simp only [if_neg hfailed]
    cases s.verdict with
    | some verdict => rfl
    | none =>
      obtain ⟨m', hsweeps, -⟩ := sweeps_serial s.config shuffler s.row.size s.row.size
        (s.idle_machine parallelism)
      refine ⟨m', _, hsweeps, ?_⟩
      have hpool : Pool.start (s.config.workers parallelism) =
          .ok (⟨s.config.workers parallelism, false, 0, [], [], []⟩ : Pool Task Outcome) :=
        if_neg (Nat.ne_of_gt (s.config.workers_pos parallelism))
      have hrun : Sweep.runFrom shuffler s.config s.row.size s.row.size
          (s.machine parallelism).sweep =
            Sweep.run shuffler s.config (s.machine parallelism).sweep := rfl
      rw [hrun]
      simp only [Solver.eliminate, hpool, Solver.note, machine, ofSweep]
      rcases Sweep.run shuffler s.config _ with ⟨sweep, f | verdict⟩
      · rfl
      · rfl

/-- What a solver that stands for clauses answers. -/
theorem StandsFor.solvesTo {clauses : List (List Lit)} {s : Solver} {parallelism : Nat}
    {result : Except Error Bool} (h : StandsFor clauses s) (hs : s.SolvesTo parallelism result) :
    (Satisfiable clauses → result = .ok true) ∧ (¬ Satisfiable clauses → result = .ok false) := by
  rw [SolvesTo, if_neg (by rw [h.complete]; decide)] at hs
  rcases h.verdict with ⟨hnone, hiff⟩ | ⟨hunsat, hnot⟩
  · rw [hnone] at hs
    obtain ⟨m', swept, hsweeps, rfl⟩ := hs
    have hidle := s.idle_machine parallelism
    obtain ⟨verdict, rfl⟩ := hsweeps.returns hidle h.wellFormed rfl (Nat.le_refl _) h.covers
    have hverdict := hsweeps.verdict_iff hidle h.wellFormed rfl (Nat.le_refl _)
      (by rw [Nat.sub_self]; exact Row.cleared_zero _ _) verdict rfl
    have hsat : verdict = .sat ↔ Satisfiable clauses := by
      rw [hverdict]
      exact exists_congr hiff
    refine ⟨fun hclauses => ?_, fun hclauses => ?_⟩
    · rw [hsat.2 hclauses]
      rfl
    · cases verdict with
      | sat => exact absurd (hsat.1 rfl) hclauses
      | unsat => rfl
  · rw [hunsat] at hs
    exact ⟨fun hclauses => absurd hclauses hnot, fun _ => hs⟩

/-- The first answer of a solver, under every schedule of its workers and with the merges in any
order: after a run without faults in which every source was read, whether some assignment satisfies
all clauses that were passed in, and after a source could not be read, no verdict. -/
theorem solve_answers {calls : List Call} (hcalls : ∀ call ∈ calls, call.WellFormed)
    (parallelism : Nat) :
    (∀ shuffler, SolvesTo (record calls new).2 parallelism
      (solve (record calls new).2 shuffler parallelism).2) ∧
    ∀ result, SolvesTo (record calls new).2 parallelism result →
      ((record calls new).1.Incomplete → result = .error .incompleteFormula) ∧
      ((record calls new).1.Faultless → ¬ (record calls new).1.Incomplete →
        (Satisfiable (record calls new).1.clauses → result = .ok true) ∧
        (¬ Satisfiable (record calls new).1.clauses → result = .ok false)) := by
  refine ⟨fun shuffler => solvesTo_solve _ shuffler _, fun result hs => ⟨?_, ?_⟩⟩
  · intro hincomplete
    rw [SolvesTo, if_pos (loadFailed_record (.inr hincomplete))] at hs
    exact hs
  · intro hfaultless hcomplete
    have hstands := standsFor_new.record hcalls hfaultless hcomplete
    exact hstands.solvesTo hs

/-- Settings other than the standard ones. -/
def threeWorkers : Update := ⟨some 3, some 1, some .ascending, none, some 7⟩

/-- A variable asked to be true and to be false. -/
def clashingCalls : List Call :=
  [.configure threeWorkers,
    .addClause [⟨default, .positive⟩, ⟨default, .positive⟩],
    .addFormula (Formula.ofClauses [[⟨default, .negative⟩]])]

/-- Two clauses that the second variable resolves to a third. -/
def resolvingClauses : List (List Lit) :=
  let second : Var := (Var.ofNumber? 2).getD default
  [[⟨default, .positive⟩, ⟨second, .positive⟩], [⟨default, .positive⟩, ⟨second, .negative⟩]]

/-- They are loaded together. -/
def resolvingCalls : List Call := [.addFormula (Formula.ofClauses resolvingClauses)]

theorem record_clashingCalls : (record clashingCalls new).1 = clashingCalls.map (·, .ok ()) := by
  have hrun₁ : (Call.configure threeWorkers).run new =
      ((new.configure threeWorkers).1, .ok ()) := rfl
  have h₁ := standsFor_new.configure threeWorkers
  obtain ⟨s₂, hclause, h₂⟩ := h₁.load_of_le 1 [[⟨default, .positive⟩, ⟨default, .positive⟩]]
    (by decide) (by decide)
  obtain ⟨s₃, hformula, -⟩ := h₂.load_of_le 1 [[⟨default, .negative⟩]] (by decide) (by decide)
  have hrun₂ : (Call.addClause [⟨default, .positive⟩, ⟨default, .positive⟩]).run
      (new.configure threeWorkers).1 = (s₂, .ok ()) := hclause
  have hrun₃ : (Call.addFormula (Formula.ofClauses [[⟨default, .negative⟩]])).run s₂ =
      (s₃, .ok ()) := hformula
  simp only [clashingCalls, record, List.map_cons, List.map_nil, hrun₁, hrun₂, hrun₃]

theorem record_resolvingCalls : (record resolvingCalls new).1 = resolvingCalls.map (·, .ok ()) := by
  obtain ⟨s, hformula, -⟩ :=
    standsFor_new.load_of_le 2 resolvingClauses (by decide) (by decide)
  have hrun : (Call.addFormula (Formula.ofClauses resolvingClauses)).run new = (s, .ok ()) :=
    hformula
  simp only [resolvingCalls, record, List.map_cons, List.map_nil, hrun]

theorem not_satisfiable_clashingCalls : ¬ Satisfiable (record clashingCalls new).1.clauses := by
  rw [record_clashingCalls]
  rintro ⟨a, ha⟩
  have hclauses : History.clauses (clashingCalls.map (·, .ok ())) =
      [[⟨default, .positive⟩, ⟨default, .positive⟩], [⟨default, .negative⟩]] := rfl
  rw [hclauses] at ha
  cases hvalue : a default <;>
    simp [Assignment.satisfiesAll, Assignment.satisfies, Assignment.holds, Polarity.toBool, hvalue]
      at ha

theorem satisfiable_resolvingCalls : Satisfiable (record resolvingCalls new).1.clauses := by
  rw [record_resolvingCalls]
  exact ⟨fun _ => true, by decide⟩

/-- Calls that all succeed leave no fault and nothing incomplete. -/
theorem History.faultless_of_ok {calls : List Call} :
    History.Faultless (calls.map (·, .ok ())) ∧ ¬ History.Incomplete (calls.map (·, .ok ())) := by
  constructor
  · intro call f hmem
    obtain ⟨call, -, heq⟩ := List.mem_map.1 hmem
    cases heq
  · rintro ⟨source, e, hmem⟩
    obtain ⟨call, -, heq⟩ := List.mem_map.1 hmem
    cases heq

/-- The theorem on the clauses that clash, and on those that are resolved and can be satisfied. -/
theorem solve_answers_clashingCalls :
    (∀ call ∈ clashingCalls ++ resolvingCalls, call.WellFormed) ∧
      (record clashingCalls new).1.Faultless ∧ ¬ (record clashingCalls new).1.Incomplete ∧
      (record resolvingCalls new).1.Faultless ∧ ¬ (record resolvingCalls new).1.Incomplete ∧
      ∀ shuffler, (solve (record clashingCalls new).2 shuffler 1).2 = .ok false ∧
        (solve (record resolvingCalls new).2 shuffler 2).2 = .ok true := by
  have hwf : ∀ call ∈ clashingCalls, call.WellFormed := by
    intro call hcall
    simp only [clashingCalls, List.mem_cons, List.not_mem_nil, or_false] at hcall
    rcases hcall with rfl | rfl | rfl
    · trivial
    · trivial
    · exact .addClause _ .empty
  have hwf' : ∀ call ∈ resolvingCalls, call.WellFormed := by
    intro call hcall
    rw [List.mem_singleton.1 hcall]
    exact .addClause _ (.addClause _ .empty)
  obtain ⟨hfaultless, hcomplete⟩ :
      (record clashingCalls new).1.Faultless ∧ ¬ (record clashingCalls new).1.Incomplete := by
    rw [record_clashingCalls]
    exact History.faultless_of_ok
  obtain ⟨hfaultless', hcomplete'⟩ :
      (record resolvingCalls new).1.Faultless ∧ ¬ (record resolvingCalls new).1.Incomplete := by
    rw [record_resolvingCalls]
    exact History.faultless_of_ok
  obtain ⟨hsolves, hall⟩ := solve_answers hwf 1
  obtain ⟨hsolves', hall'⟩ := solve_answers hwf' 2
  refine ⟨fun call hcall => (List.mem_append.1 hcall).elim (hwf call) (hwf' call), hfaultless,
    hcomplete, hfaultless', hcomplete', fun shuffler => ⟨?_, ?_⟩⟩
  · exact ((hall _ (hsolves shuffler)).2 hfaultless hcomplete).2 not_satisfiable_clashingCalls
  · exact ((hall' _ (hsolves' shuffler)).2 hfaultless' hcomplete').1 satisfiable_resolvingCalls

end BucketElimination.Solver
