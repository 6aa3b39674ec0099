import Chip8.Log
import Chip8.RunOptions

/-!
# Command line

What a command line asks for, and why one is refused.

## Shape of the grammar

The program takes one of two commands. Each `Scope`, the program itself or a command, knows a table
of flags. A flag either takes a value for a `Slot` or asks for help or the version. A command has
one more slot, the path, which is filled by the argument that is no flag.
-/

namespace Chip8.CommandLine

/-- What a command line asks for. -/
inductive Request where
  | run (path : String) (options : RunOptions)
  | disassemble (path : String) (output : Option String)
deriving DecidableEq

/-- A command line that was accepted. -/
structure Invocation where
  request : Request
  /-- The threshold of the log, if one is given. -/
  debug : Option LogLevel
deriving DecidableEq

/-- Why a command line is not carried out. -/
inductive Refusal where
  /-- The command needs a path. -/
  | missingPath
  /-- Nothing was given at all, so the help is shown. -/
  | emptyLine
  | missingCommand
  | unknownCommand
  | unknownArgument
  /-- A value is missing, empty where it must not be, or not one of the names. -/
  | invalidValue
  /-- A value is no number of the kind needed. -/
  | invalidNumber
  /-- A flag was given twice. -/
  | repeated
  /-- A value is attached to a flag that takes none. -/
  | needlessValue
  | helpWanted
  | versionWanted
deriving DecidableEq, Repr

/-- Something that takes a value. -/
inductive Slot where
  | path
  | debug
  | stepsPerTick
  | tickRate
  | scale
  | onUnknown
  | layout
  | outputFile
deriving DecidableEq, Repr

/-- What a flag does. -/
inductive Flag where
  /-- Takes a value for a slot. -/
  | value (slot : Slot)
  | help
  | version
deriving DecidableEq, Repr

namespace Flag

/-- The long name of a flag; the path has none. -/
def long? : Flag → Option String
  | value .path => none
  | value .debug => some "debug"
  | value .stepsPerTick => some "steps-per-tick"
  | value .tickRate => some "tick-rate"
  | value .scale => some "scale"
  | value .onUnknown => some "on-unknown"
  | value .layout => some "layout"
  | value .outputFile => some "output-file"
  | help => some "help"
  | version => some "version"

/-- The letter of a flag. -/
def letter? : Flag → Option Char
  | value .debug => some 'd'
  | value .stepsPerTick => some 's'
  | value .tickRate => some 't'
  | value .outputFile => some 'o'
  | help => some 'h'
  | version => some 'V'
  | _ => none

end Flag

/-- Where flags are looked up. -/
inductive Scope where
  | program
  | run
  | disassemble
deriving DecidableEq, Repr

namespace Scope

/-- The flags of a scope. -/
def flags : Scope → List Flag
  | program => [.value .debug, .help, .version]
  | run =>
    [.value .stepsPerTick, .value .tickRate, .value .scale, .value .onUnknown, .value .layout,
      .value .debug, .help]
  | disassemble => [.value .outputFile, .value .debug, .help]

/-- The flag with a long name. -/
def long? (scope : Scope) (name : String) : Option Flag :=
  scope.flags.find? fun flag => flag.long? == some name

/-- The flag with a letter. -/
def letter? (scope : Scope) (letter : Char) : Option Flag :=
  scope.flags.find? fun flag => flag.letter? == some letter

end Scope

/-- One argument by its form. -/
inductive Token where
  /-- Two dashes: no argument after it is a flag. -/
  | escape
  /-- Two dashes and a name, with what follows an equals sign. -/
  | long (name : String) (value : Option String)
  /-- A dash and a letter, with what follows it; an equals sign in between is dropped. -/
  | short (letter : Char) (value : Option String)
  | word (text : String)
deriving DecidableEq, Repr

namespace Token

/-- What stands before the first equals sign, and what stands after it. -/
def splitEquals : List Char → List Char × Option (List Char)
  | [] => ([], none)
  | '=' :: cs => ([], some cs)
  | c :: cs => let (name, value) := splitEquals cs; (c :: name, value)

/-- The value that follows a letter in the same argument. -/
def attached : List Char → Option String
  | [] => none
  | '=' :: cs => some (String.ofList cs)
  | cs => some (String.ofList cs)

/-- The form of an argument. A lone dash is a word. -/
def ofArgument (argument : String) : Token :=
  match argument.toList with
  | ['-', '-'] => escape
  | '-' :: '-' :: cs =>
    let (name, value) := splitEquals cs
    long (String.ofList name) (value.map String.ofList)
  | '-' :: c :: cs => short c (attached cs)
  | _ => word argument

end Token

end Chip8.CommandLine
