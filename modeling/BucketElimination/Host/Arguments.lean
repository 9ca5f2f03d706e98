import BucketElimination.Cli.Run
set_option autoImplicit false

/-!
# Host: arguments

How the executable matches arguments with options.  The command line has one optional operand, the
input file, and four options that take a value.  The value of an option is attached to it or is the
next argument; arguments after `--` are operands.  Only `-C` may be given more than once.

An argument that is neither an option nor fits as an operand is refused where it stands, and
`--version` and `--help` are answered where they stand; the values of the options are checked when
all arguments are known.  So a run whose arguments are matched has a count of workers and a verbosity
that it knows.
-/

namespace BucketElimination.Host

open Cli (Matches Stop)

/-- The version of the executable. -/
def version : String := "0.1.0"

/-- How the executable is called. -/
def usageLines : List String :=
  [ s!"bucketsat {version}",
    "",
    "USAGE:",
    "    bucketsat [FLAGS] [OPTIONS] [INPUT]",
    "",
    "FLAGS:",
    "    -h, --help       Prints help information",
    "    -V, --version    Prints version information",
    "",
    "OPTIONS:",
    "        --config <FILE>                      Read parameters from configuration file",
    "    -C, --config-option <OPTION>=<VALUE>     Specify a single config option, see "
      ++ "'bucketsat -C help' for a list of options.",
    "    -j, --jobs <N>                           Number of worker threads (0 for all cores)",
    "        --verbosity <LEVEL>                  Amount of diagnostic output.",
    "",
    "ARGS:",
    "    <INPUT>    The input file to use (stdin if omitted)" ]

/-- The options that take a value. -/
inductive Flag where
  /-- `--config`: a configuration file. -/
  | config
  /-- `-C`, `--config-option`: a configuration text. -/
  | setting
  /-- `-j`, `--jobs`: the number of workers. -/
  | jobs
  /-- `--verbosity`: how much is reported. -/
  | verbosity
  deriving DecidableEq, Repr

/-- What a name or letter of the command line means. -/
inductive Meaning where
  | flag (f : Flag)
  | version
  | help

/-- The meaning of a long name. -/
def long? : String → Option Meaning
  | "config" => some (.flag .config)
  | "config-option" => some (.flag .setting)
  | "jobs" => some (.flag .jobs)
  | "verbosity" => some (.flag .verbosity)
  | "help" => some .help
  | "version" => some .version
  | _ => none

/-- The meaning of a letter. -/
def short? : Char → Option Meaning
  | 'C' => some (.flag .setting)
  | 'j' => some (.flag .jobs)
  | 'h' => some .help
  | 'V' => some .version
  | _ => none

/-- How an option was given. -/
structure Given where
  /-- How often. -/
  count : Nat
  /-- With which values. -/
  values : List String
  deriving DecidableEq, Repr

/-- Not given. -/
def Given.never : Given := ⟨0, []⟩

/-- The arguments read so far. -/
structure Scan where
  given : Flag → Given
  operand : Option String
  /-- The option whose value the next argument may be. -/
  pending : Option Flag
  /-- Only operands follow. -/
  operandsOnly : Bool

namespace Scan

/-- Nothing was read. -/
def start : Scan := ⟨fun _ => .never, none, none, false⟩

/-- An option was given as often and with the values that `g` says. -/
def setGiven (s : Scan) (f : Flag) (g : Given) (pending : Option Flag) : Scan :=
  { s with given := fun f' => if f' = f then g else s.given f', pending }

/-- What a name or letter means, with a value attached or not.  Equals signs before the value do not
belong to it. -/
def addMeaning (s : Scan) (attached : Option (List Char)) : Option Meaning → Except Stop Scan
  | none => .error .usage
  | some .version => .error (.answer [s!"bucketsat {version}"])
  | some .help => .error (.answer usageLines)
  | some (.flag f) =>
    let g := s.given f
    match attached with
    | none => .ok (s.setGiven f ⟨g.count + 1, g.values⟩ (some f))
    | some value =>
      let value := String.ofList (value.dropWhile (· == '='))
      .ok (s.setGiven f ⟨g.count + 1, g.values ++ [value]⟩ none)

/-- An operand; there is room for one. -/
def addOperand (s : Scan) (value : String) : Except Stop Scan :=
  match s.operand with
  | none => .ok { s with operand := some value }
  | some _ => .error .usage

/-- An argument that is no option: the value of the option before it, or else an operand. -/
def addPlain (s : Scan) (value : String) : Except Stop Scan :=
  match s.pending with
  | some f => .ok (s.setGiven f ⟨(s.given f).count, (s.given f).values ++ [value]⟩ none)
  | none => s.addOperand value

/-- One more argument. -/
def add (s : Scan) (arg : String) : Except Stop Scan :=
  if s.operandsOnly then s.addOperand arg
  else if arg = "--" then .ok { s with operandsOnly := true }
  else
    match arg.toList with
    | '-' :: '-' :: rest =>
      let body := rest.dropWhile (· == '-')
      let name := body.takeWhile (· != '=')
      let attached := body.drop name.length
      s.addMeaning (if attached.isEmpty then none else some attached) (long? (String.ofList name))
    | '-' :: c :: attached =>
      s.addMeaning (if attached.isEmpty then none else some attached) (short? c)
    | _ => s.addPlain arg

end Scan

/-! ## Values of the options -/

/-- The value of an option that may be given once; if it may be left out of the option, there need
not be one. -/
def single? (g : Given) (bare : Bool) : Except Stop (Option String) :=
  match g.count, g.values with
  | 0, _ => .ok none
  | 1, value :: _ => .ok (some value)
  | 1, [] => if bare then .ok none else .error .usage
  | _, _ => .error .usage

/-- The values of an option that may be given often, each time with a value. -/
def many? (g : Given) : Except Stop (List String) :=
  if 0 < g.count ∧ g.values = [] then .error .usage else .ok g.values

/-- A value that passes a check, if there is one. -/
def checked (check : String → Bool) (value : Option String) : Except Stop (Option String) :=
  if value.all check then .ok value else .error .usage

/-- The text is a count of workers. -/
def isCount (text : String) : Bool := (Decimal.count? text.toList).isSome

/-- The text names a verbosity, in upper or lower case. -/
def isVerbosity (text : String) : Bool :=
  ["quiet", "progress", "full"].contains (text.map Char.toLower)

/-- Check the values of all options. -/
def Scan.matches (s : Scan) : Except Stop Matches := do
  let configFile ← single? (s.given .config) false
  let jobs ← checked isCount (← single? (s.given .jobs) false)
  let verbosity ← checked isVerbosity (← single? (s.given .verbosity) true)
  let settings ← many? (s.given .setting)
  return { input := s.operand, configFile, settings, jobs, verbosity }

/-- The options that a list of arguments stands for. -/
def matchArgs (args : List String) : Except Stop Matches :=
  (args.foldlM Scan.add Scan.start).bind Scan.matches

/-! ## What matched arguments give -/

theorem all_of_checked {check : String → Bool} {value value' : Option String}
    (h : checked check value = .ok value') : value'.all check = true := by
  unfold checked at h
  split at h
  case isTrue hall =>
    cases h
    exact hall
  case isFalse => cases h

theorem exists_of_bind_eq_ok {ε α β : Type} {x : Except ε α} {f : α → Except ε β} {b : β}
    (h : x.bind f = .ok b) : ∃ a, x = .ok a ∧ f a = .ok b := by
  cases x with
  | error e => cases h
  | ok a => exact ⟨a, rfl, h⟩

/-- The number of workers is a count and the verbosity is known. -/
theorem all_of_matchArgs {args : List String} {m : Matches} (h : matchArgs args = .ok m) :
    m.jobs.all isCount = true ∧ m.verbosity.all isVerbosity = true := by
  obtain ⟨s, -, h⟩ := exists_of_bind_eq_ok h
  obtain ⟨configFile, -, h⟩ := exists_of_bind_eq_ok h
  obtain ⟨jobs, -, h⟩ := exists_of_bind_eq_ok h
  obtain ⟨jobs, hjobs, h⟩ := exists_of_bind_eq_ok h
  obtain ⟨verbosity, -, h⟩ := exists_of_bind_eq_ok h
  obtain ⟨verbosity, hverbosity, h⟩ := exists_of_bind_eq_ok h
  obtain ⟨settings, -, h⟩ := exists_of_bind_eq_ok h
  cases h
  exact ⟨all_of_checked hjobs, all_of_checked hverbosity⟩

end BucketElimination.Host
