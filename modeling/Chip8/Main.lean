import Chip8.Command

/-!
# The program

The command line on the files of the system: the log goes to the error output and the report's
status is the exit status.
-/

namespace Chip8.Program

/-- The number of a failure, which some calls give with a minus. -/
def number (code : UInt32) : Nat :=
  if code.toNat < 0x80000000 then code.toNat else 0x100000000 - code.toNat

/-- The cause of a numbered failure, or its text. -/
def numbered (code : UInt32) (details : String) : FileError :=
  match number code with
  | 17 => .alreadyExists
  | 20 => .notADirectory
  | 21 => .isADirectory
  | 36 => .nameTooLong
  | n => .other (details ++ " (os error " ++ Numeral.decimal n ++ ")")

/-- The cause of a failed file call. -/
def fileError : IO.Error → FileError
  | .noFileOrDirectory .. => .notFound
  | .alreadyExists _ code details => numbered code details
  | .inappropriateType _ code details => numbered code details
  | .invalidArgument _ code details => numbered code details
  | .permissionDenied _ code details => numbered code details
  | error => .other error.toString

/-- A file call with its failure as a value. -/
def call {α : Type} (action : IO α) : IO (Except FileError α) := do
  try
    return .ok (← action)
  catch error =>
    return .error (fileError error)

/-- Makes an existing or new file hold some bytes. -/
def store (path : Path) (content : List UInt8) : IO Unit :=
  IO.FS.writeBinFile path.text (ByteArray.mk content.toArray)

/-- The file calls of the system. -/
def calls : FileCalls IO where
  makeDirectory path := call (IO.FS.createDir path.text)
  isDirectory path := do
    match ← call (IO.FS.realPath path.text) with
    | .ok real => real.isDir
    | .error _ => return false
  create path := call (store path [])
  read path := call do return (← IO.FS.readBinFile path.text).toList
  write path content := call (store path content)

/-- A random source that differs from run to run. -/
def entropy : IO RandomSource := do
  let bytes ← IO.getRandomBytes 8
  return .ofSeed (bytes.toList.foldl (fun seed byte => seed * 256 + byte.toUInt64) 0)

end Chip8.Program

/-- Runs the program on its arguments. -/
def main (arguments : List String) : IO UInt32 := do
  let report ← Chip8.Command.execute Chip8.Program.calls (← Chip8.Program.entropy) arguments
  for line in report.log do
    IO.eprintln line.text
  return UInt32.ofNat report.status
