import BucketElimination.Elimination.Event
import BucketElimination.Text.Lines
set_option autoImplicit false

/-!
# Command line: what a run writes

A run makes records for the log, and it writes lines that are no records, such as the verdict.  A
record is written as comment lines: every line of its message becomes a line of its own.  The logger
decides which records are shown, and nothing else about them.
-/

namespace BucketElimination.Cli

/-- A record for the log. -/
structure Record where
  /-- The module that it comes from. -/
  target : String
  level : Level
  message : String
  deriving DecidableEq, Repr

/-- A logger that is set to a level and told the value of a variable, if it has one.  The value may
settle for each record whether it is shown; without it the records up to the level are. -/
structure Logger where
  shows : Level → Option String → Record → Bool
  shows_unset : ∀ limit r, shows limit none r = r.level.shownUpTo limit

/-- Something that a run writes. -/
inductive Output where
  | record (r : Record)
  /-- A line that is no comment. -/
  | line (text : String)
  deriving DecidableEq, Repr

/-- What a run leaves. -/
structure Report where
  outputs : List Output
  exitCode : Nat
  /-- The arguments were refused. -/
  usageError : Bool
  deriving DecidableEq, Repr

/-- The lines of a record: the first one names the level unless it is plain information. -/
def Record.lines (r : Record) : List String :=
  let (first, rest) := match textLines r.message with
    | [] => ("", [])
    | first :: rest => (first, rest)
  let head := if r.level = .info then "c " ++ first else "c " ++ r.level.name ++ ": " ++ first
  head :: rest.map ("c " ++ ·)

namespace Output

/-- The lines of an output. -/
def lines : Output → List String
  | .record r => r.lines
  | .line text => [text]

/-- The output is written: a line always, a record if the logger shows it. -/
def shown (logger : Logger) (limit : Level) (value? : Option String) : Output → Bool
  | .record r => logger.shows limit value? r
  | .line _ => true

end Output

namespace Report

/-- All lines of a report. -/
def lines (r : Report) : List String := r.outputs.flatMap Output.lines

/-- What is written for a report: every line ends with a line feed. -/
def text (r : Report) : String := String.join (r.lines.map (· ++ "\n"))

end Report

end BucketElimination.Cli
