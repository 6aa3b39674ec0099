import Chip8.CommandLine.Values

/-!
# Reading a command line

From a list of arguments to an invocation, or to the first reason for which there is none.

## Shape of the scan

A scan keeps the values taken in so far and the slot that was met last. That slot is `pending`: its
text is looked at only when the next slot is met or the arguments end, so an unknown flag right
after a bad value is reported before the value. A slot pending without a text takes the next word,
whatever that word is.

`scanCommand` reads the arguments of a command, `scanProgram` those in front of it. A command is
read to its end before a slot pending in front of it is looked at.
-/

namespace Chip8.CommandLine

/-- How far the arguments of a scope are read. -/
structure Scan where
  values : Values
  /-- The slot met last, and its text if that is already known. -/
  pending : Option (Slot × Option String)
deriving DecidableEq

namespace Scan

/-- Nothing read. -/
def start : Scan :=
  ⟨.none, none⟩

/-- Takes the pending slot in. -/
def settle (s : Scan) : Except Refusal Scan :=
  match s.pending with
  | none => .ok s
  | some (_, none) => .error .invalidValue
  | some (slot, some text) => (s.values.accept slot text).map fun v => ⟨v, none⟩

/-- The slot that waits for its text. -/
def awaiting? (s : Scan) : Option Slot :=
  match s.pending with
  | some (slot, none) => some slot
  | _ => none

/-- Makes a slot the pending one. -/
def meet (s : Scan) (slot : Slot) (text : Option String) : Except Refusal Scan :=
  s.settle.map fun s => ⟨s.values, some (slot, text)⟩

/-- Takes a slot in whose text is part of its argument. -/
def take (s : Scan) (slot : Slot) (text : String) : Except Refusal Scan :=
  s.settle.bind fun s => (s.values.accept slot text).map fun v => ⟨v, none⟩

/-- Acts on a flag of the scope. -/
def flag (s : Scan) (f : Flag) (attached : Option String) : Except Refusal Scan :=
  match f, attached with
  | .value slot, some text => s.take slot text
  | .value slot, none => s.meet slot none
  | .help, _ => s.settle.bind fun _ => .error .helpWanted
  | .version, _ => s.settle.bind fun _ => .error .versionWanted

/-- Whether a flag takes no value but has one attached. -/
def isNeedless : Flag → Option String → Bool
  | .value _, _ => false
  | _, value => value.isSome

/-- Acts on a flag by its long name. -/
def long (s : Scan) (scope : Scope) (name : String) (value : Option String) : Except Refusal Scan :=
  match scope.long? name with
  | none => .error .unknownArgument
  | some f => if isNeedless f value then .error .needlessValue else s.flag f value

/-- Acts on a flag by its letter. -/
def short (s : Scan) (scope : Scope) (letter : Char) (value : Option String) :
    Except Refusal Scan :=
  match scope.letter? letter with
  | none => .error .unknownArgument
  | some f => s.flag f value

/-- Whether a path was met. -/
def hasPath (s : Scan) : Bool :=
  s.values.path.isSome || match s.pending with
    | some (.path, _) => true
    | _ => false

/-- Takes a word for the path of a command, of which there is one. -/
def path (s : Scan) (text : String) : Except Refusal Scan :=
  if s.hasPath then .error .unknownArgument else s.meet .path (some text)

/-- Reads words none of which is a flag. -/
def paths (s : Scan) : List String → Except Refusal Scan
  | [] => .ok s
  | text :: rest => (s.path text).bind fun s => s.paths rest

/-- Reads a word: the text of the slot that waits for one, or the path. -/
def word (s : Scan) (text : String) : Except Refusal Scan :=
  match s.awaiting? with
  | some slot => .ok ⟨s.values, some (slot, some text)⟩
  | none => s.path text

/-- Reads the arguments of a command. -/
def scanCommand (scope : Scope) : List String → Scan → Except Refusal Scan
  | [], s => .ok s
  | argument :: rest, s =>
    match Token.ofArgument argument with
    | .escape => s.paths rest
    | .long name value => (s.long scope name value).bind fun s => scanCommand scope rest s
    | .short letter value => (s.short scope letter value).bind fun s => scanCommand scope rest s
    | .word text => (s.word text).bind fun s => scanCommand scope rest s

end Scan

/-! ## Commands -/

/-- Reads the arguments of a command to their end: its path and its values. -/
def readCommand (scope : Scope) (arguments : List String) : Except Refusal (String × Values) :=
  (Scan.scanCommand scope arguments Scan.start).bind fun s => s.settle.bind fun s =>
    match s.values.path with
    | some path => .ok (path, s.values)
    | none => .error .missingPath

/-- The request of a command with its path and values. -/
def request (scope : Scope) (path : String) (v : Values) : Request :=
  match scope with
  | .disassemble => .disassemble path v.outputFile
  | _ => .run path v.runOptions

/-- Reads a command after the arguments in front of it. A threshold of the log that is given to both
is taken from the command. -/
def finish (scope : Scope) (front : Scan) (arguments : List String) : Except Refusal Invocation :=
  (readCommand scope arguments).bind fun (path, v) => front.settle.map fun front =>
    { request := request scope path v, debug := v.debug <|> front.values.debug }

/-- Why a line without a command is refused. -/
def refuseBare (front : Scan) : Except Refusal Invocation :=
  front.settle.bind fun front =>
    .error (if front.values.debug.isSome then .missingCommand else .emptyLine)

/-! ## The program -/

/-- The commands by name. -/
def command? : String → Option Scope
  | "run" => some .run
  | "disassemble" => some .disassemble
  | _ => none

/-- Whether a word is a topic of the help command. -/
def isTopic (text : String) : Bool :=
  (command? text).isSome || text == "help"

/-- What the help command leads to: the help on a topic, if there is such a topic. -/
def helpOn : List String → Refusal
  | [] => .helpWanted
  | [topic] => if isTopic topic then .helpWanted else .unknownCommand
  | _ => .unknownCommand

/-- Why the first word after two dashes in front of a command is refused; there it can be none. -/
def refuseEscaped (front : Scan) : List String → Except Refusal Invocation
  | [] => refuseBare front
  | text :: _ => .error (if isTopic text then .unknownArgument else .unknownCommand)

/-- Reads the arguments in front of a command, and the command. -/
def scanProgram : List String → Scan → Except Refusal Invocation
  | [], front => refuseBare front
  | argument :: rest, front =>
    match Token.ofArgument argument with
    | .escape => refuseEscaped front rest
    | .long name value => (front.long .program name value).bind fun s => scanProgram rest s
    | .short letter value => (front.short .program letter value).bind fun s => scanProgram rest s
    | .word text =>
      match front.awaiting? with
      | some slot => scanProgram rest ⟨front.values, some (slot, some text)⟩
      | none =>
        match command? text with
        | some scope => finish scope front rest
        | none => .error (if text = "help" then helpOn rest else .unknownCommand)

/-- Reads the arguments of the program. -/
def parse (arguments : List String) : Except Refusal Invocation :=
  scanProgram arguments Scan.start

end Chip8.CommandLine
