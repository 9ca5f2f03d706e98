import BucketElimination.Proofs.SolverVerdict
set_option autoImplicit false

/-!
# Runs of a solver

A solver goes from state to state by the calls that were made and by being asked for its verdict,
any number of times and in any order, each time under some schedule of the workers.  Whatever was
asked of it, its buckets are in order and there are none while the configuration is open.  A verdict
that was handed out is handed out again, until a source is read: the solver refuses the source, and
from then on it gives no verdict.
-/

namespace BucketElimination

/-! ## Refused clauses and formulas -/

namespace Row

variable {order : Order} {r : Row}

/-- Filing keeps a row well formed, even if the clause is refused. -/
theorem WellFormed.fst_file (h : r.WellFormed order) (c : Clause) :
    (r.file order c).1.WellFormed order ∧ (r.file order c).1.size = r.size := by
  unfold Row.file
  cases order.pivot? c.lits with
  | none => exact ⟨h, rfl⟩
  | some pivot =>
    simp only [Row.add]
    cases hget : r.get pivot.var with
    | error f => exact ⟨h, rfl⟩
    | ok b =>
      obtain ⟨hwf, rfl, hvar⟩ := h.get hget
      simp only [Except.bind]
      cases hon : b.pivotOn c pivot.polarity with
      | error f => exact ⟨h, rfl⟩
      | ok l =>
        obtain ⟨rfl, hp⟩ := Bucket.pivotOn_eq_ok_iff.1 hon
        obtain ⟨hwf', hvar', horder', -⟩ := hwf.store hp
        simp only [update_eq, hget]
        exact ⟨h.set hwf' horder' (hvar'.trans hvar), size_set _ _ _⟩

/-- So does loading. -/
theorem WellFormed.fst_load (h : r.WellFormed order) (lits : List Lit) :
    (r.load order lits).1.WellFormed order ∧ (r.load order lits).1.size = r.size := by
  unfold Row.load
  cases canonicalize lits with
  | none => exact ⟨h, rfl⟩
  | some canonical =>
    cases canonical with
    | nil => exact ⟨h, rfl⟩
    | cons l ls =>
      simp only
      cases Clause.ofLits (l :: ls) with
      | error f => exact ⟨h, rfl⟩
      | ok c =>
        have hfile := h.fst_file c
        rcases hrun : r.file order c with ⟨r', f | filed⟩
        · rw [hrun] at hfile
          simp only [hrun]
          exact hfile
        · rw [hrun] at hfile
          simp only [hrun]
          cases filed <;> exact hfile

end Row

namespace Dimacs

/-- A visitor that refuses everything ends the reading. -/
theorem readInto_of_refused {σ ε : Type} (fail : ReadError → ε)
    (visit : Formula → σ → σ × Except ε Unit) {s : σ}
    (hvisit : ∀ f, ∃ e, visit f s = (s, .error e)) (source : Source) :
    ∃ e, readInto fail visit source s = (s, .error e) := by
  have hhand : ∀ r, ∃ e, handOn visit r s = (s, .error e) := by
    intro r
    obtain ⟨e, he⟩ := hvisit r.formula
    exact ⟨e, by simp only [handOn, Reader.takeFormula, he]⟩
  unfold readInto
  cases source.reads with
  | nil =>
    simp only [feedInto, finishInto]
    rcases Reader.start.finish with ⟨r, e | done⟩
    · exact ⟨_, rfl⟩
    · obtain ⟨e, he⟩ := hhand r
      exact ⟨e, by simp only [he]⟩
  | cons part reads =>
    cases part with
    | failure text => exact ⟨_, rfl⟩
    | data bytes =>
      simp only [feedInto]
      rcases Reader.start.feed bytes with ⟨r, e | done⟩
      · exact ⟨_, rfl⟩
      · obtain ⟨e, he⟩ := hhand r
        exact ⟨e, by simp only [he]⟩

end Dimacs

namespace Solver

open Machine

/-! ## Requests -/

/-- The solver after a sweep, which has used up the buckets. -/
def afterSweep (s : Solver) (m : Machine) : Except Fault Verdict → Solver
  | .error _ => { s with row := Row.empty, stats := m.sweep.stats, journal := m.sweep.journal }
  | .ok verdict =>
    { s with
      row := Row.empty, stats := m.sweep.stats
      journal := m.sweep.journal.push (.eliminated m.sweep.stats)
      verdict := some verdict, solved := true }

/-- Asked for its verdict, the solver goes over to another state and gives the result, under some
schedule of its workers. -/
inductive Solves (s : Solver) (parallelism : Nat) : Solver → Except Error Bool → Prop
  | incomplete : s.loadFailed = true → Solves s parallelism s (.error .incompleteFormula)
  | known {verdict : Verdict} : s.loadFailed = false → s.verdict = some verdict →
      Solves s parallelism { s with solved := true } (.ok (verdict == .sat))
  | swept {m : Machine} {result : Except Fault Verdict} :
      s.loadFailed = false → s.verdict = none →
        Sweeps s.config s.row.size s.row.size (s.machine parallelism) m result →
          Solves s parallelism (s.afterSweep m result) (answer result)

/-- What can be asked of a solver. -/
inductive Request where
  | call (call : Call)
  | solve (parallelism : Nat)

/-- The request has a source read. -/
def Request.reads : Request → Bool
  | .call (.addDimacs _) => true
  | _ => false

/-- The request takes the solver to another state. -/
inductive Answers : Solver → Request → Solver → Prop
  | call (s : Solver) (call : Call) : Answers s (.call call) (call.run s).1
  | solve {s s' : Solver} {parallelism : Nat} {result : Except Error Bool} :
      s.Solves parallelism s' result → Answers s (.solve parallelism) s'

/-- The requests, one after the other, take the solver to another state. -/
inductive Runs : Solver → List Request → Solver → Prop
  | nil (s : Solver) : Runs s [] s
  | cons {s s₁ s' : Solver} {request : Request} {requests : List Request} :
      Answers s request s₁ → Runs s₁ requests s' → Runs s (request :: requests) s'

/-- The states that a new solver can come to. -/
def Reachable (s : Solver) : Prop := ∃ requests, Runs new requests s

/-- With the tasks one after the other, the solver solves under one of the schedules. -/
theorem solves_solve (s : Solver) (shuffler : Shuffler) (parallelism : Nat) :
    s.Solves parallelism (s.solve shuffler parallelism).1 (s.solve shuffler parallelism).2 := by
  rw [Solver.solve]
  by_cases hfailed : s.loadFailed = true
  · rw [if_pos hfailed]
    exact .incomplete hfailed
  · rw [if_neg hfailed]
    have hcomplete : s.loadFailed = false := by simpa using hfailed
    split
    · rename_i verdict hverdict
      exact .known hcomplete hverdict
    · rename_i hverdict
      obtain ⟨m, hsweeps, hm⟩ := sweeps_serial s.config shuffler s.row.size s.row.size
        (s.idle_machine parallelism)
      have hsolves := Solves.swept hcomplete hverdict hsweeps
      have hpool : Pool.start (s.config.workers parallelism) =
          .ok (⟨s.config.workers parallelism, false, 0, [], [], []⟩ : Pool Task Outcome) :=
        if_neg (Nat.ne_of_gt (s.config.workers_pos parallelism))
      have hrun : Sweep.runFrom shuffler s.config s.row.size s.row.size
          (s.machine parallelism).sweep =
            Sweep.run shuffler s.config (s.machine parallelism).sweep := rfl
      rw [hrun] at hm hsolves
      simp only [Solver.eliminate, hpool, Solver.note]
      simp only [machine, ofSweep, Solver.note] at hm hsolves
      rcases hsweep : Sweep.run shuffler s.config _ with ⟨sweep, f | verdict⟩
      · rw [hsweep] at hm hsolves
        simpa only [afterSweep, hm, answer] using hsolves
      · rw [hsweep] at hm hsolves
        simpa only [afterSweep, hm, answer] using hsolves

/-- A property of the new solver that every request keeps holds in every state. -/
theorem Reachable.induction {P : Solver → Prop} (hnew : P new)
    (hstep : ∀ s request s', P s → Answers s request s' → P s') {s : Solver} (h : s.Reachable) :
    P s := by
  obtain ⟨requests, hruns⟩ := h
  generalize new = s₀ at hnew hruns
  induction hruns with
  | nil s => exact hnew
  | cons hanswers _ ih => exact ih (hstep _ _ _ hnew hanswers)

/-! ## Buckets in order -/

/-- The buckets are in order, and there are none while the configuration is open. -/
structure Tidy (s : Solver) : Prop where
  wellFormed : s.row.WellFormed s.config.order
  row_eq : s.loading = false → s.row = Row.empty

/-- The second solver differs from the first at most in what loading changes: its buckets are still
in order and as many as before. -/
def Loads (s s' : Solver) : Prop :=
  ∃ row verdict stats journal, s' = { s with row, verdict, stats, journal } ∧
    row.WellFormed s.config.order ∧ row.size = s.row.size

theorem loads_loadClause {s : Solver} (h : s.row.WellFormed s.config.order) (lits : List Lit) :
    Loads s (s.loadClause lits).1 := by
  unfold Solver.loadClause
  split
  · exact ⟨_, _, _, _, rfl, h, rfl⟩
  · have hload := h.fst_load lits
    rcases hrun : s.row.load s.config.order lits with ⟨row, f | loaded⟩
    · rw [hrun] at hload
      exact ⟨_, _, _, _, rfl, hload⟩
    · rw [hrun] at hload
      cases loaded <;> exact ⟨_, _, _, _, rfl, hload⟩

theorem loads_loadClauses {s : Solver} (h : s.row.WellFormed s.config.order)
    (clauses : List (List Lit)) : Loads s (loadClauses clauses s).1 := by
  induction clauses generalizing s with
  | nil => exact ⟨_, _, _, _, rfl, h, rfl⟩
  | cons lits clauses ih =>
    have hclause := loads_loadClause h lits
    unfold Solver.loadClauses
    rcases hrun : s.loadClause lits with ⟨s₁, e | done⟩
    · rwa [hrun] at hclause
    · rw [hrun] at hclause
      obtain ⟨row, verdict, stats, journal, rfl, hwf, hsize⟩ := hclause
      obtain ⟨row', verdict', stats', journal', heq, hwf', hsize'⟩ :=
        ih (s := { s with row, verdict, stats, journal }) hwf
      exact ⟨row', verdict', stats', journal', heq, hwf', hsize'.trans hsize⟩

theorem tidy_new : Tidy new := ⟨Row.wellFormed_empty _, fun _ => rfl⟩

/-- Loading keeps the buckets in order, even if it fails. -/
theorem Tidy.load {s : Solver} (h : s.Tidy) (count : Nat) (clauses : List (List Lit)) :
    (s.load count clauses).1.Tidy := by
  unfold Solver.load
  split
  · exact h
  · simp only
    split
    · exact ⟨h.wellFormed, fun hf => by cases hf⟩
    · have hgrown := (h.wellFormed.extend s.config.chunkCapacity (count - s.row.size)).1
      obtain ⟨row, verdict, stats, journal, heq, hwf, -⟩ :=
        loads_loadClauses (s := { s with loading := true }.growTo count) hgrown clauses
      rw [heq]
      exact ⟨hwf, fun hf => by cases hf⟩

theorem Tidy.configure {s : Solver} (h : s.Tidy) (u : Update) : (s.configure u).1.Tidy := by
  unfold Solver.configure
  split
  · exact h
  · rename_i hloading
    have hrow := h.row_eq (by simpa using hloading)
    split
    · exact h
    · refine ⟨?_, h.row_eq⟩
      show s.row.WellFormed _
      rw [hrow]
      exact Row.wellFormed_empty _

theorem Tidy.addDimacs {s : Solver} (h : s.Tidy) (source : Dimacs.Source) :
    (s.addDimacs source).1.Tidy := by
  have hread := Dimacs.readInto_induction Error.read (fun f (s : Solver) => s.addFormula f)
    (P := Tidy) (fun f s hs => Tidy.load hs f.varCount f.clauses) h source
  unfold Solver.addDimacs
  rcases hrun : Dimacs.readInto Error.read (fun f s => s.addFormula f) source s with
    ⟨s', e | reader⟩
  · rw [hrun] at hread
    simp only [hrun]
    exact ⟨hread.wellFormed, hread.row_eq⟩
  · rw [hrun] at hread
    simp only [hrun]
    exact ⟨hread.wellFormed, hread.row_eq⟩

theorem Tidy.answers {s s' : Solver} {request : Request} (h : s.Tidy)
    (hanswers : Answers s request s') : s'.Tidy := by
  cases hanswers with
  | call call =>
    cases call with
    | configure u => exact h.configure u
    | addClause lits => exact h.load _ _
    | addFormula f => exact h.load _ _
    | addDimacs source => exact h.addDimacs source
  | solve hsolves =>
    cases hsolves with
    | incomplete _ => exact h
    | known _ _ => exact ⟨h.wellFormed, h.row_eq⟩
    | @swept m result _ _ _ =>
      cases result <;> exact ⟨Row.wellFormed_empty _, fun _ => rfl⟩

theorem load_of_solved {s : Solver} (h : s.solved = true) (count : Nat)
    (clauses : List (List Lit)) : s.load count clauses = (s, .error .alreadySolved) := by
  rw [Solver.load, if_pos h]

/-- A solved formula refuses every source, and then counts as incomplete. -/
theorem addDimacs_of_solved {s : Solver} (h : s.solved = true) (source : Dimacs.Source) :
    ∃ e, s.addDimacs source = ({ s with loadFailed := true }, .error e) := by
  obtain ⟨e, he⟩ := Dimacs.readInto_of_refused Error.read (fun f (s : Solver) => s.addFormula f)
    (fun f => ⟨_, load_of_solved h f.varCount f.clauses⟩) source
  exact ⟨e, by simp only [Solver.addDimacs, he]⟩

/-- The verdict was handed out, and `reread` says whether a source was read since then. -/
structure Final (verdict : Verdict) (reread : Bool) (s : Solver) : Prop where
  solved : s.solved = true
  verdict_eq : s.verdict = some verdict
  loadFailed_eq : s.loadFailed = reread

section

variable {s s' : Solver} {verdict : Verdict} {reread : Bool} {parallelism : Nat}

/-- An answer hands out the verdict. -/
theorem Solves.final {v : Bool} (h : s.Solves parallelism s' (.ok v)) :
    ∃ verdict : Verdict, v = (verdict == .sat) ∧ s'.Final verdict false := by
  generalize hresult : Except.ok v = result at h
  cases h with
  | incomplete _ => cases hresult
  | @known verdict hcomplete hverdict =>
    cases hresult
    exact ⟨verdict, rfl, rfl, hverdict, hcomplete⟩
  | @swept m swept hcomplete _ _ =>
    cases swept with
    | error f => cases hresult
    | ok verdict =>
      cases hresult
      exact ⟨verdict, rfl, rfl, rfl, hcomplete⟩

/-- A verdict that was handed out is handed out again, unless a source was read since then. -/
theorem Final.solves {result : Except Error Bool} (h : s.Final verdict reread)
    (hsolves : s.Solves parallelism s' result) :
    s'.Final verdict reread ∧
      result = if reread then .error .incompleteFormula else .ok (verdict == .sat) := by
  obtain ⟨hsolved, hverdict, rfl⟩ := h
  cases hsolves with
  | incomplete hfailed =>
    refine ⟨⟨hsolved, hverdict, rfl⟩, ?_⟩
    rw [if_pos hfailed]
  | known hcomplete hknown =>
    rw [hverdict] at hknown
    cases hknown
    refine ⟨⟨rfl, hverdict, rfl⟩, ?_⟩
    rw [hcomplete, if_neg (by decide)]
  | swept _ hnone _ =>
    rw [hverdict] at hnone
    cases hnone

/-- No request takes the verdict back, but reading a source makes the formula incomplete. -/
theorem Final.answers {request : Request} (h : s.Final verdict reread)
    (hanswers : Answers s request s') : s'.Final verdict (reread || request.reads) := by
  cases hanswers with
  | solve hsolves =>
    show s'.Final verdict (reread || false)
    rw [Bool.or_false]
    exact (h.solves hsolves).1
  | call call =>
    cases call with
    | configure u =>
      show (s.configure u).1.Final verdict (reread || false)
      rw [Bool.or_false, Solver.configure]
      split
      · exact h
      · split
        · exact h
        · exact ⟨h.solved, h.verdict_eq, h.loadFailed_eq⟩
    | addClause lits =>
      show (s.load _ _).1.Final verdict (reread || false)
      rwa [Bool.or_false, load_of_solved h.solved]
    | addFormula f =>
      show (s.load _ _).1.Final verdict (reread || false)
      rwa [Bool.or_false, load_of_solved h.solved]
    | addDimacs source =>
      obtain ⟨e, he⟩ := addDimacs_of_solved h.solved source
      show (s.addDimacs source).1.Final verdict (reread || true)
      rw [Bool.or_true, he]
      exact ⟨h.solved, h.verdict_eq, rfl⟩

theorem Final.runs {requests : List Request} (h : s.Final verdict reread)
    (hruns : Runs s requests s') : s'.Final verdict (reread || requests.any Request.reads) := by
  induction hruns generalizing reread with
  | nil s => simpa using h
  | cons hanswers _ ih =>
    have h' := ih (h.answers hanswers)
    rwa [List.any_cons, ← Bool.or_assoc]

end

/-- After a verdict was handed out, every source is refused, and the solver gives the same verdict
again, whatever else is asked of it and under every schedule, as long as no source was passed to it;
after that it gives no verdict any more. -/
theorem solves_again {s₀ s s' : Solver} {parallelism : Nat} {v : Bool} {requests : List Request}
    (hsolves : s₀.Solves parallelism s (.ok v)) (hruns : Runs s requests s') (workers : Nat) :
    (∀ source, ∃ e, (s'.addDimacs source).2 = .error e) ∧
    (∀ shuffler, s'.Solves workers (s'.solve shuffler workers).1 (s'.solve shuffler workers).2) ∧
    ∀ s'' result, s'.Solves workers s'' result →
      result = if requests.any Request.reads then .error .incompleteFormula else .ok v := by
  obtain ⟨verdict, rfl, hfinal⟩ := hsolves.final
  have hfinal' := hfinal.runs hruns
  rw [Bool.false_or] at hfinal'
  refine ⟨fun source => ?_, fun shuffler => solves_solve s' shuffler workers,
    fun s'' result hagain => ?_⟩
  · obtain ⟨e, he⟩ := addDimacs_of_solved hfinal'.solved source
    exact ⟨e, by rw [he]⟩
  · exact (hfinal'.solves hagain).2

/-- A solver for one clause, which can be satisfied. -/
def unitSolver : Solver := (new.addClause [⟨default, .positive⟩]).1

/-- The same clause, written down: `p cnf 1 1` and `1 0`. -/
def unitSource : Dimacs.Source :=
  [.data [112, 32, 99, 110, 102, 32, 49, 32, 49, 10, 49, 32, 48, 10]]

theorem standsFor_unitSolver : StandsFor [[⟨default, .positive⟩]] unitSolver := by
  obtain ⟨s, hadd, hstands⟩ := standsFor_new.load_of_le 1 [[⟨default, .positive⟩]]
    (by decide) (by decide)
  have hunit : unitSolver = s := congrArg Prod.fst hadd
  rwa [hunit]

theorem reachable_unitSolver : unitSolver.Reachable :=
  ⟨[.call (.addClause [⟨default, .positive⟩])], .cons (.call _ _) (.nil _)⟩

theorem solve_unitSolver (shuffler : Shuffler) : (unitSolver.solve shuffler 1).2 = .ok true := by
  have hanswer := (standsFor_unitSolver.solvesTo (solvesTo_solve unitSolver shuffler 1)).1
  exact hanswer ⟨fun _ => true, rfl⟩

/-- The theorem on a solver that is asked for more workers, then for more clauses and for its
verdict, and at last given a source. -/
theorem solves_again_unitSolver :
    unitSolver.Reachable ∧ ∀ shuffler,
      (unitSolver.solve shuffler 1).2 = .ok true ∧
      ((((unitSolver.solve shuffler 1).1.configure threeWorkers).1.addClause []).1.solve
        shuffler 2).2 = .ok true ∧
      (((unitSolver.solve shuffler 1).1.addDimacs unitSource).1.solve shuffler 2).2 =
        .error .incompleteFormula := by
  refine ⟨reachable_unitSolver, fun shuffler => ?_⟩
  have hsolves := unitSolver.solves_solve shuffler 1
  rw [solve_unitSolver] at hsolves
  have hcalls := Runs.cons (.call (unitSolver.solve shuffler 1).1 (.configure threeWorkers))
    (.cons (.call _ (.addClause [])) (.nil _))
  have hread := Runs.cons (.call (unitSolver.solve shuffler 1).1 (.addDimacs unitSource)) (.nil _)
  obtain ⟨-, hsame, hall⟩ := solves_again hsolves hcalls 2
  obtain ⟨-, hlast, hall'⟩ := solves_again hsolves hread 2
  exact ⟨solve_unitSolver shuffler, hall _ _ (hsame shuffler), hall' _ _ (hlast shuffler)⟩

/-- A verdict is not final, however buckets are shuffled: a solver that has answered refuses the
source, and answers no more. -/
theorem verdict_lost_after_source :
    ¬ ∃ shuffler : Shuffler,
      ∀ (s₀ s s' : Solver) (parallelism workers : Nat) (v : Bool) (requests : List Request),
        s₀.Reachable → s₀.Solves parallelism s (.ok v) → Runs s requests s' →
          (s'.solve shuffler workers).2 = .ok v := by
  rintro ⟨shuffler, hfinal⟩
  have hsolves := unitSolver.solves_solve shuffler 1
  rw [solve_unitSolver] at hsolves
  have hread := Runs.cons (.call (unitSolver.solve shuffler 1).1 (.addDimacs unitSource)) (.nil _)
  have hok := hfinal _ _ _ 1 1 true _ reachable_unitSolver hsolves hread
  obtain ⟨verdict, -, hsolved⟩ := hsolves.final
  obtain ⟨e, he⟩ := addDimacs_of_solved hsolved.solved unitSource
  rw [Call.run, he, solve_of_loadFailed rfl] at hok
  cases hok

end Solver

end BucketElimination
