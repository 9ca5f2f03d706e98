import BucketElimination.Host.Libraries
set_option autoImplicit false

/-!
# The program

Reads the files and streams that a run needs, looks at the clock before and after its parts, and
writes what it leaves.
-/

namespace BucketElimination.Main

/-- Read a stream to its end. -/
partial def readAll (input : IO.FS.Stream) (read : ByteArray) : IO ByteArray := do
  let bytes ← input.read 65536
  if bytes.isEmpty then return read else readAll input (read ++ bytes)

/-- The text of an error of the machine. -/
def errorText : IO.Error → String
  | .noFileOrDirectory .. => "No such file or directory (os error 2)"
  | .inappropriateType _ 20 _ => "Not a directory (os error 20)"
  | .inappropriateType _ 21 _ => "Is a directory (os error 21)"
  | .invalidArgument _ 36 _ => "File name too long (os error 36)"
  | e => toString e

/-- A stream that is read when it is there, as a source. -/
def source (read : IO ByteArray) : IO (Except String Dimacs.Source) := do
  try
    let bytes ← read
    return .ok [.data bytes.toList]
  catch e => return .error (errorText e)

/-- The files that the arguments name. -/
def paths (m : Cli.Matches) : List String := m.configFile.toList ++ m.input.toList

/-- Number of processors that the process may run on, as the system lists them. -/
def parallelism : IO Nat := do
  try
    let status ← IO.FS.readFile "/proc/self/status"
    let masks := (status.splitOn "\n").filterMap fun line =>
      match line.splitOn ":" with
      | ["Cpus_allowed", mask] => some mask.toList
      | _ => none
    let digits := masks.flatten.filterMap (Host.Settings.digit? 16)
    let ones := (digits.flatMap (Nat.toDigits 2)).filter fun c => c.toNat = '1'.toNat
    return if ones.isEmpty then 1 else ones.length
  catch _ => return 1

/-- The seconds between two readings of a clock in milliseconds, with three decimals. -/
def seconds (start stop : Nat) : String :=
  let n := stop - start
  let decimals := toString (n % 1000)
  toString (n / 1000) ++ "." ++ "".pushn '0' (3 - decimals.length) ++ decimals

/-- What the executable was built from. -/
def build : Cli.Build where
  version := Host.version
  profile := "release"
  compiler := "Lean 4"

/-- What the machine provides for a run with these arguments, while its times are not known. -/
def environment (args : List String) : IO Cli.Environment := do
  let mut files : List (String × Except String Dimacs.Source) := []
  let mut stdin : Dimacs.Source := []
  match Host.matchArgs args with
  | .error _ => pure ()
  | .ok m =>
    for path in paths m do
      files := (path, ← source (IO.FS.readBinFile path)) :: files
    if m.input.isNone ∧ ¬ m.settings.contains "help" then
      stdin := match ← source (do readAll (← IO.getStdin) ByteArray.empty) with
        | .ok source => source
        | .error text => [.failure text]
  let found := files
  return {
    libraries := Host.libraries
    build
    file := fun path => (found.lookup path).getD (.error "No such file or directory (os error 2)")
    stdin
    logVariable := ← IO.getEnv "BUCKETSAT_LOG"
    parallelism := ← parallelism
    times := ⟨"0.000", "0.000"⟩ }

/-- A run of the program, part by part, with the time that each part took. -/
def report (env : Cli.Environment) (args : List String) : IO Cli.Report := do
  match Cli.accept env args with
  | .error stop => return stop.report
  | .ok m =>
    let start ← IO.monoMsNow
    let loaded ← IO.lazyPure fun _ => Cli.start env m
    let between ← IO.monoMsNow
    let solved ← IO.lazyPure fun _ => loaded.solve (Cli.solveSerially env)
    let stop ← IO.monoMsNow
    let env := { env with times := ⟨seconds start between, seconds between stop⟩ }
    return solved.report env m

end BucketElimination.Main

/-- Run the program and give its exit code. -/
def main (args : List String) : IO UInt32 := do
  let env ← BucketElimination.Main.environment args
  let report ← BucketElimination.Main.report env args
  let out ← IO.getStdout
  out.putStr report.text
  if report.usageError then
    let err ← IO.getStderr
    err.putStrLn "error: the arguments are not understood, try --help"
  return UInt32.ofNat report.exitCode
