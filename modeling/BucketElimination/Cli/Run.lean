import BucketElimination.Cli.Report
import BucketElimination.Solver
set_option autoImplicit false

/-!
# Command line: a run of the program

A run reads the configuration and the formula, solves it and reports.  What is reported on the way
goes to the log; the verdict is written as a line of its own and given as exit code: 10 for
satisfiable, 20 for unsatisfiable, 1 for an error.

How arguments are matched, configuration texts read and records shown is up to libraries, and the
files, the clock and the number of processors are the machine's.  A run takes both as parameters and
asks no more of them than what is said here.
-/

namespace BucketElimination.Cli

/-! ## What a run is given -/

/-- The arguments that were given, each matched with the option or operand that it belongs to. -/
structure Matches where
  /-- The input file; without one standard input is read. -/
  input : Option String
  configFile : Option String
  /-- The configuration texts, in the order in which they were given. -/
  settings : List String
  /-- The number of workers, as it was written. -/
  jobs : Option String
  verbosity : Option String
  deriving DecidableEq, Repr

/-- Why arguments are not carried on with. -/
inductive Stop where
  /-- The arguments are refused. -/
  | usage
  /-- The arguments ask for these lines, such as the version. -/
  | answer (lines : List String)
  deriving DecidableEq, Repr

/-- The libraries that a run uses, as far as its outcome depends on them. -/
structure Libraries where
  /-- Match the arguments with the options of the program. -/
  matchArgs : List String → Except Stop Matches
  /-- The text of the error for a number of workers that is no count. -/
  refuseCount : String → String
  /-- The update that a configuration text describes, or the text of an error. -/
  readSettings : String → Except String Update
  logger : Logger
  shuffler : Shuffler

/-- What the program was built from. -/
structure Build where
  version : String
  profile : String
  compiler : String

/-- How many seconds a run took to load and to solve, as they are written. -/
structure Times where
  load : String
  solve : String

/-- The machine that a run is on, with the libraries. -/
structure Environment where
  libraries : Libraries
  build : Build
  /-- A file that was opened, or the text of the error. -/
  file : String → Except String Dimacs.Source
  stdin : Dimacs.Source
  /-- The value of the variable for the logger. -/
  logVariable : Option String
  /-- Number of workers that the machine runs at once. -/
  parallelism : Nat
  times : Times

/-! ## Configuration -/

/-- The text of a file, or the text of the error. -/
def readText (env : Environment) (path : String) : Except String String := do
  let bytes ← (← env.file path).contents
  match Utf8.decode? bytes with
  | none => .error "stream did not contain valid UTF-8"
  | some text => return String.ofList text

/-- The update that all arguments ask for: the file first, then the single settings, then the number
of workers. -/
def update (env : Environment) (m : Matches) : Except String Update := do
  let file ← m.configFile.mapM (readText env)
  let u ← (file.toList ++ m.settings).foldlM
    (fun u text => return u.merge (← env.libraries.readSettings text)) Update.empty
  match m.jobs with
  | none => return u
  | some value =>
    match Decimal.count? value.toList with
    | none => .error (env.libraries.refuseCount value)
    | some n => return { u with workerCount := some n }

/-- The level that a verbosity sets the logger to. -/
def verbosityLimit (verbosity : String) : Level :=
  match verbosity with
  | "quiet" => .error
  | "full" => .trace
  | _ => .info

/-- The level that the arguments set the logger to. -/
def Matches.limit (m : Matches) : Level :=
  verbosityLimit ((m.verbosity.getD "progress").map Char.toLower)

/-! ## Loading and solving -/

/-- How far a run has come: what it said before its solver began to load, the solver with all that it
has reported, and whether the run goes on or ends with the text of an error. -/
structure Session (α : Type) where
  said : List String
  solver : Solver
  result : Except String α

/-- The input: a file, or standard input if none is named. -/
def Environment.input (env : Environment) : Option String → Except String Dimacs.Source
  | none => .ok env.stdin
  | some path => env.file path

/-- Which input is read. -/
def readingMessage : Option String → String
  | none => "Reading from stdin"
  | some path => s!"Reading file '{path}'"

/-- Configure a solver and load the input. -/
def start (env : Environment) (m : Matches) : Session Unit :=
  match update env m with
  | .error text => ⟨[], .new, .error text⟩
  | .ok u =>
    match Solver.new.configure u with
    | (s, .error e) => ⟨[], s, .error e.message⟩
    | (s, .ok ()) =>
      let said := [readingMessage m.input]
      match env.input m.input with
      | .error text => ⟨said, s, .error text⟩
      | .ok source =>
        match s.addDimacs source with
        | (s, .error e) => ⟨said, s, .error e.message⟩
        | (s, .ok ()) => ⟨said, s, .ok ()⟩

/-- Bring the loaded formula to its verdict. -/
def Session.solve (solve : Solver → Solver × Except Solver.Error Bool) (r : Session Unit) :
    Session Bool :=
  match r.result with
  | .error text => ⟨r.said, r.solver, .error text⟩
  | .ok () =>
    match solve r.solver with
    | (s, .error e) => ⟨r.said, s, .error e.message⟩
    | (s, .ok sat) => ⟨r.said, s, .ok sat⟩

/-! ## Reporting -/

/-- A record of the program itself. -/
def note (level : Level) (message : String) : Output := .record ⟨"bucketsat", level, message⟩

/-- The record of an event of the solver. -/
def eventRecord (times : Times) (e : Event) : Output :=
  .record ⟨e.target, e.level, e.message times.solve⟩

/-- What a run says first. -/
def banner (build : Build) : List Output :=
  [ note .info s!"This is bucketsat {build.version}",
    note .info s!"  {build.profile} build - {build.compiler}" ]

/-- How many clauses were loaded. -/
def loadedMessage (stats : Stats) (times : Times) : String :=
  s!"Loaded {stats.inputClauses} clauses ({stats.tautologicalInputs} tautologies, "
    ++ s!"{stats.duplicateInputs} duplicates) in {times.load}s"

/-- The line that a verdict is written as. -/
def verdictLine (sat : Bool) : String := if sat then "s SATISFIABLE" else "s UNSATISFIABLE"

/-- The exit code of a verdict. -/
def verdictCode (sat : Bool) : Nat := if sat then 10 else 20

/-- What a run says last, and its exit code. -/
def conclusion (times : Times) (stats : Stats) : Except String Bool → List Output × Nat
  | .error text => ([note .error text], 1)
  | .ok sat => ([note .info (loadedMessage stats times), .line (verdictLine sat)], verdictCode sat)

/-- What a run says before it comes to its end. -/
def Session.progress (env : Environment) (r : Session Bool) : List Output :=
  banner env.build ++ r.said.map (note .info)
    ++ r.solver.journal.toList.map (eventRecord env.times)

/-- The report of a run that came to its end. -/
def Session.report (env : Environment) (m : Matches) (r : Session Bool) : Report :=
  let (last, exitCode) := conclusion env.times r.solver.stats r.result
  let outputs := r.progress env ++ last
  ⟨outputs.filter (Output.shown env.libraries.logger m.limit env.logVariable), exitCode, false⟩

/-- The report of a run whose arguments are not carried on with. -/
def Stop.report : Stop → Report
  | .usage => ⟨[], 1, true⟩
  | .answer lines => ⟨lines.map .line, 0, false⟩

/-- The arguments that a run is carried on with, unless they ask for help on the settings. -/
def accept (env : Environment) (args : List String) : Except Stop Matches :=
  match env.libraries.matchArgs args with
  | .error stop => .error stop
  | .ok m => if m.settings.contains "help" then .error (.answer Config.helpLines) else .ok m

/-- A run of the program, where `solve` brings the solver to its verdict. -/
def runBy (solve : Solver → Solver × Except Solver.Error Bool) (env : Environment)
    (args : List String) : Report :=
  match accept env args with
  | .error stop => stop.report
  | .ok m => ((start env m).solve solve).report env m

/-- Bring a solver to its verdict with the tasks of the workers one after the other. -/
def solveSerially (env : Environment) (s : Solver) : Solver × Except Solver.Error Bool :=
  s.solve env.libraries.shuffler env.parallelism

/-- A run of the program, with the tasks of the workers one after the other. -/
def run (env : Environment) (args : List String) : Report := runBy (solveSerially env) env args

end BucketElimination.Cli
