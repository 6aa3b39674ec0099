import Chip8.FileSystem.Error
import Chip8.FileSystem.Path

/-!
# File calls

The calls that the program makes on a file system, as a record of actions in some monad. A tree of
files in memory provides them as a state, a running program as input and output.

## Shape of a made directory

`makeReversed` asks for the whole path first. Only when a directory above it is missing does it make
that one and ask again, so the recursion is on the parts of the path. Every path that it asks for is
a beginning of the written one, with the blank parts in between as they were written.
-/

namespace Chip8

/-- The calls that the program makes on a file system. -/
structure FileCalls (m : Type → Type) where
  /-- Makes one directory, whose parent exists. -/
  makeDirectory : Path → m (Except FileError Unit)
  isDirectory : Path → m Bool
  /-- Makes a file empty, or makes an empty file. -/
  create : Path → m (Except FileError Unit)
  read : Path → m (Except FileError (List UInt8))
  /-- Gives an existing file its content. -/
  write : Path → List UInt8 → m (Except FileError Unit)

namespace FileCalls

variable {m : Type → Type} [Monad m]

/-- Takes a refused directory for made if it is there. -/
def orPresent (calls : FileCalls m) (path : Path) :
    Except FileError Unit → m (Except FileError Unit)
  | .ok () => pure (.ok ())
  | .error e => do
    if ← calls.isDirectory path then pure (.ok ()) else pure (.error e)

/-- Makes the directory with the given parts, the last part first, and those above it as needed. A
blank part needs no directory of its own. -/
def makeReversed (calls : FileCalls m) : List String → m (Except FileError Unit)
  | [] => pure (.ok ())
  | part :: above =>
    if Path.isBlank part then
      calls.makeReversed above
    else do
      let path := Path.ofParts (part :: above).reverse
      match ← calls.makeDirectory path with
      | .error .notFound =>
        match ← calls.makeReversed above with
        | .error e => pure (.error e)
        | .ok () => calls.orPresent path (← calls.makeDirectory path)
      | result => calls.orPresent path result

/-- Makes the directory that a file lies in, and those above it as needed. -/
def makeParents (calls : FileCalls m) (file : Path) : m (Except FileError Unit) :=
  calls.makeReversed (file.reversedParts.drop 1)

end FileCalls

end Chip8
