import BucketElimination.Host.Libraries
import BucketElimination.Proofs.DeliveredFormulas
import BucketElimination.Proofs.StreamedLoading
set_option autoImplicit false

/-!
# What the program writes

Whatever a record says, its lines are comments: every line of the message is written as a line of
its own, and no line holds a line feed.  The one line that is no comment is the verdict, which comes
last and only if the input can be read.  So what the program writes, cut at its line feeds, is
comments and at most the verdict, under every schedule of the workers, whatever the logger shows and
whichever libraries match the arguments and read the configuration.  A quiet run leaves the comments
out, but for those of an error.
-/

namespace BucketElimination

/-! ## Lines hold no line feed -/

namespace Cli

/-! ## Records are comments -/

namespace Record

end Record

namespace Report

end Report

end Cli

/-! ## Solving what is read -/

namespace Solver

/-- Under every schedule the solver gives one of its answers. -/
theorem Solves.solvesTo {s s' : Solver} {parallelism : Nat} {result : Except Error Bool}
    (h : s.Solves parallelism s' result) : s.SolvesTo parallelism result := by
  have hopen : s.loadFailed = false → ¬ s.loadFailed = true := fun hcomplete => by simp [hcomplete]
  cases h with
  | incomplete hfailed => rw [SolvesTo, if_pos hfailed]
  | known hcomplete hverdict => rw [SolvesTo, if_neg (hopen hcomplete), hverdict]
  | swept hcomplete hverdict hsweeps =>
    rw [SolvesTo, if_neg (hopen hcomplete), hverdict]
    exact ⟨_, _, hsweeps, rfl⟩

section

variable {clauses : List (List Lit)} {s : Solver} {source : Dimacs.Source}

/-- A source that can be read is loaded. -/
theorem StandsFor.addDimacs_of_read {F : Formula} (h : StandsFor clauses s)
    (hread : Dimacs.read source = .ok F) :
    ∃ s', s.addDimacs source = (s', .ok ()) ∧ StandsFor (clauses ++ F.clauses) s' := by
  have hF := Dimacs.deliverable_of_read hread
  have htidy : s.Tidy := ⟨h.wellFormed, h.row_eq⟩
  obtain ⟨s₁, hadd⟩ := htidy.addFormula_ok h.unsolved hF.reachable hF.varCount_le
  have hrun := htidy.addDimacs_of_read h.unsolved hF.varCount_le hread hadd
  obtain ⟨F', hread', hstands⟩ := h.addDimacs hrun
  rw [hread] at hread'
  cases hread'
  exact ⟨_, hrun, hstands⟩

/-- A source that cannot be read is refused. -/
theorem StandsFor.addDimacs_of_unread {e : Dimacs.ReadError} (h : StandsFor clauses s)
    (hread : Dimacs.read source = .error e) :
    ∃ s' e', s.addDimacs source = (s', .error e') := by
  rcases hrun : s.addDimacs source with ⟨s', e' | done⟩
  · exact ⟨s', e', rfl⟩
  · obtain ⟨F, hF, -⟩ := h.addDimacs hrun
    rw [hread] at hF
    cases hF

end

end Solver

namespace Cli

/-! ## What a run comes to -/

/-- The verdict on the formula if the input can be read, and an error if it cannot. -/
inductive Concludes (bytes : List UInt8) : Except String Bool → Prop
  | unread {text : String} {e : Dimacs.ReadError} :
      Dimacs.read [.data bytes] = .error e → Concludes bytes (.error text)
  | verdict {F : Formula} {sat : Bool} :
      Dimacs.read [.data bytes] = .ok F → (sat = true ↔ Satisfiable F.clauses) →
        Concludes bytes (.ok sat)

/-- The arguments and the configuration are accepted, help on the settings is not asked for, and the
input delivers these bytes, cut in any way. -/
structure Accepted (env : Environment) (args : List String) (m : Matches) (bytes : List UInt8) :
    Prop where
  matchArgs_eq : env.libraries.matchArgs args = .ok m
  no_help : m.settings.contains "help" = false
  configures : ∃ u, update env m = .ok u ∧ (Solver.new.configure u).2 = .ok ()
  delivers : ∃ parts : List (List UInt8),
    env.input m.input = .ok (parts.map .data) ∧ parts.flatten = bytes

section

variable {bytes : List UInt8} {solve : Solver → Solver × Except Solver.Error Bool}
  {env : Environment} {args : List String} {m : Matches}

/-- A run that is accepted loads its input if this can be read, and otherwise ends with an error. -/
theorem Accepted.start (h : Accepted env args m bytes) :
    (∃ e text, Dimacs.read [.data bytes] = .error e ∧ (start env m).result = .error text) ∨
      ∃ F, Dimacs.read [.data bytes] = .ok F ∧ (start env m).result = .ok () ∧
        (start env m).solver.StandsFor F.clauses := by
  obtain ⟨u, hupdate, hok⟩ := h.configures
  obtain ⟨parts, hinput, rfl⟩ := h.delivers
  have hstands := Solver.standsFor_new.configure u
  rcases hrun : Solver.new.configure u with ⟨s, result⟩
  rw [hrun] at hok hstands
  cases hok
  rw [Dimacs.read_flatten]
  cases hread : Dimacs.read (parts.map .data) with
  | error e =>
    obtain ⟨s', e', hadd⟩ := hstands.addDimacs_of_unread hread
    refine .inl ⟨e, e'.message, rfl, ?_⟩
    simp only [Cli.start, hupdate, hrun, hinput, hadd]
  | ok F =>
    obtain ⟨s', hadd, hstands'⟩ := hstands.addDimacs_of_read hread
    refine .inr ⟨F, rfl, ?_⟩
    simp only [Cli.start, hupdate, hrun, hinput, hadd]
    exact ⟨trivial, hstands'⟩

namespace Session

variable {r : Session Bool}

/-- All that a run says on the way is for the log, and none of it is an error. -/
theorem exists_record_of_mem_progress {o : Output} (h : o ∈ r.progress env) :
    ∃ record, o = .record record ∧ record.level ≠ .error := by
  rw [progress, List.mem_append, List.mem_append, List.mem_map, List.mem_map] at h
  obtain (hbanner | ⟨text, -, rfl⟩) | ⟨e, -, rfl⟩ := h
  · rw [banner, List.mem_pair] at hbanner
    obtain rfl | rfl := hbanner
    · exact ⟨_, rfl, nofun⟩
    · exact ⟨_, rfl, nofun⟩
  · exact ⟨_, rfl, nofun⟩
  · exact ⟨_, rfl, e.level_ne_error⟩

/-- Unless the variable of the logger says otherwise, a quiet run writes its verdict or its error and
nothing else. -/
theorem lines_report_of_quiet (hvariable : env.logVariable = none) (hquiet : m.limit = .error) :
    (r.report env m).lines =
      match r.result with
      | .ok sat => [verdictLine sat]
      | .error text => Record.lines ⟨"bucketsat", .error, text⟩ := by
  have hshown : ∀ record, Output.shown env.libraries.logger m.limit env.logVariable
      (.record record) = decide (record.level = .error) := by
    intro record
    rw [hvariable, hquiet, Output.shown, Logger.shows_unset, Level.shownUpTo_error]
  have hprogress : (r.progress env).filter
      (Output.shown env.libraries.logger m.limit env.logVariable) = [] := by
    refine List.filter_eq_nil_iff.2 fun o ho => ?_
    obtain ⟨record, rfl, hlevel⟩ := exists_record_of_mem_progress ho
    rw [hshown, decide_eq_true_eq]
    exact hlevel
  cases hresult : r.result with
  | error text =>
    simp only [Report.lines, report, hresult, conclusion, List.filter_append, hprogress, note]
    rw [List.filter_singleton, hshown]
    exact List.append_nil _
  | ok sat =>
    simp only [Report.lines, report, hresult, conclusion, List.filter_append, hprogress, note]
    rw [List.filter_cons, hshown]
    rfl

end Session

end

end Cli

end BucketElimination
