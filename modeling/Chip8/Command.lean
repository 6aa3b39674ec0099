import Chip8.CommandLine.Parse
import Chip8.FileSystem.Calls
import Chip8.Listing
import Chip8.Log
import Chip8.Machine.Basic

/-!
# Commands

What the program does with an accepted command line: it writes the listing of an image to a file, or
it starts an image. Both work through file calls of any monad.

## Shape of a command

Each command is a sequence of steps of which the first that fails ends it with a `Failure`. The
output file is made before the image is read, and its directory before that. `execute` turns the
result into an exit status and lines of the log.
-/

namespace Chip8

/-- Why a command fails. -/
inductive Failure where
  /-- The output has no extension, so it is taken for a directory. -/
  | notAFile (path : Path)
  | file (cause : FileError)
  | fault (cause : Fault)
deriving DecidableEq, Repr

namespace Failure

/-- The text shown for a failure. -/
def message : Failure → String
  | notAFile path => path.text ++ " is not a file"
  | file cause => cause.message
  | fault cause => cause.message

end Failure

namespace Command

variable {m : Type → Type} [Monad m]

/-- A step that calls the file system. -/
def fileStep {α : Type} (call : m (Except FileError α)) : ExceptT Failure m α :=
  ExceptT.mk do return (← call).mapError .file

/-- The file that a listing goes to when none is named. -/
def defaultOutput : Path :=
  ⟨"output.txt"⟩

/-- Makes the directory of a named output, which must have an extension. -/
def prepareOutput (calls : FileCalls m) (output : Option Path) : ExceptT Failure m Path :=
  match output with
  | none => pure defaultOutput
  | some path =>
    if path.extension?.isNone then
      throw (.notAFile path)
    else do
      fileStep (calls.makeParents path)
      return path

/-- The content of a listing file: a heading with the name of the image, and the lines. -/
def listingText (path : Path) (image : List UInt8) : String :=
  String.join ((("== " ++ path.text ++ " ==") :: Listing.lines image).map fun line => line ++ "\n")

/-- Writes the listing of an image to a file and answers the file. -/
def disassemble (calls : FileCalls m) (image : Path) (output : Option Path) :
    ExceptT Failure m Path := do
  let file ← prepareOutput calls output
  fileStep (calls.create file)
  let bytes ← fileStep (calls.read image)
  fileStep (calls.write file (listingText image bytes).toUTF8.toList)
  return file

/-- A new machine with an image from a file in memory, and the size of the image. -/
def openImage (calls : FileCalls m) (random : RandomSource) (path : Path) :
    ExceptT Failure m (Nat × Machine) := do
  let image ← fileStep (calls.read path)
  match (Machine.fresh random .released).load image with
  | .ok machine => return (image.length, machine)
  | .error fault => throw (.fault fault)

/-- How the program ends. -/
structure Report where
  status : Nat
  log : List LogLine
deriving DecidableEq

namespace Report

/-- The end of a command that has failed. -/
def failed (failure : Failure) : Report :=
  ⟨1, [⟨.error, failure.message⟩]⟩

/-- The end of a refused command line; help and version are no failures. -/
def refused : CommandLine.Refusal → Report
  | .helpWanted | .versionWanted => ⟨0, []⟩
  | _ => ⟨2, []⟩

/-- The exit status of a program that finds no screen to show the picture on. -/
abbrev noScreen : Nat := 101

/-- The report with the lines that a threshold lets through. -/
def upTo (threshold : LogLevel) (r : Report) : Report :=
  { r with log := LogLine.upTo threshold r.log }

end Report

/-- The lines of the log for a started program. -/
def startLines (path : String) (options : RunOptions) (size : Nat) : List LogLine :=
  [⟨.info, "Loaded program [size: " ++ Numeral.decimal size ++ "]"⟩,
    ⟨.info, "Running " ++ path ++ " [config: " ++ options.text ++ "]"⟩]

/-- Carries a request out. A started program ends at once, because there is no screen. -/
def carryOut (calls : FileCalls m) (random : RandomSource) : CommandLine.Request → m Report
  | .disassemble path output => do
    match ← (disassemble calls ⟨path⟩ (output.map Path.mk)).run with
    | .ok file => return ⟨0, [⟨.info, "Wrote listing to " ++ file.text⟩]⟩
    | .error failure => return .failed failure
  | .run path options => do
    match ← (openImage calls random ⟨path⟩).run with
    | .ok (size, _) => return ⟨Report.noScreen, startLines path options size⟩
    | .error failure => return .failed failure

/-- Reads the arguments of the program and does what they ask for. Without a threshold the log shows
errors and warnings. -/
def execute (calls : FileCalls m) (random : RandomSource) (arguments : List String) : m Report :=
  match CommandLine.parse arguments with
  | .error refusal => pure (.refused refusal)
  | .ok invocation => do
    return (← carryOut calls random invocation.request).upTo (invocation.debug.getD .warn)

end Command

end Chip8
