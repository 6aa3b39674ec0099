/-!
# File errors

Why a file call fails, and the text shown for it: the system's wording, followed by its number.
-/

namespace Chip8

/-- A cause for which a file call is refused. -/
inductive FileError where
  | notFound
  | alreadyExists
  | notADirectory
  | isADirectory
  | nameTooLong
  /-- The name holds a zero character, which no file call takes. -/
  | zeroInName
  /-- Any other cause, with its text. -/
  | other (text : String)
deriving DecidableEq, Repr

namespace FileError

/-- The text shown for a file error. -/
def message : FileError → String
  | notFound => "No such file or directory (os error 2)"
  | alreadyExists => "File exists (os error 17)"
  | notADirectory => "Not a directory (os error 20)"
  | isADirectory => "Is a directory (os error 21)"
  | nameTooLong => "File name too long (os error 36)"
  | zeroInName => "file name contained an unexpected NUL byte"
  | other text => text

end FileError

end Chip8
