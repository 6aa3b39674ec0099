/-!
# The log

Lines with a level. A threshold lets its own level through and everything that weighs more.
-/

namespace Chip8

/-- How much a line of the log weighs, the heaviest first. -/
inductive LogLevel where
  | error
  | warn
  | info
  | debug
  | trace
deriving DecidableEq, Repr

namespace LogLevel

/-- The place of a level in the order, the heaviest first. -/
def rank : LogLevel → Nat
  | error => 0
  | warn => 1
  | info => 2
  | debug => 3
  | trace => 4

/-- The name of a level as it is given on the command line. -/
def name : LogLevel → String
  | error => "error"
  | warn => "warn"
  | info => "info"
  | debug => "debug"
  | trace => "trace"

/-- All levels, the heaviest first. -/
def all : List LogLevel :=
  [error, warn, info, debug, trace]

/-- The level of a name. -/
def ofName? (s : String) : Option LogLevel :=
  all.find? fun level => level.name == s

/-- The mark of a level in front of its lines. -/
def mark : LogLevel → String
  | error => "ERROR"
  | warn => "WARN"
  | info => "INFO"
  | debug => "DEBUG"
  | trace => "TRACE"

end LogLevel

/-- A line of the log. -/
structure LogLine where
  level : LogLevel
  message : String
deriving DecidableEq, Repr

namespace LogLine

/-- The text of a line. -/
def text (line : LogLine) : String :=
  line.level.mark ++ " " ++ line.message

/-- The lines that a threshold lets through. -/
def upTo (threshold : LogLevel) (lines : List LogLine) : List LogLine :=
  lines.filter fun line => line.level.rank ≤ threshold.rank

end LogLine

end Chip8
