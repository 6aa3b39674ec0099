/-!
# Paths

A path is a text whose parts are separated by slashes. It is kept as it was written, because it is
shown as it was written and because a file system bounds the length of the written text.

## Shape of the two views

`parts` are all stretches between slashes, also the empty ones, so they give the text back. A part
is blank if it leads nowhere: an empty one, or one that says "here". The file system walks the
`segments`, every part that is not empty; questions about a name pass over the blank parts.
-/

namespace Chip8

/-- The name of a file or directory, as written. -/
structure Path where
  text : String
deriving DecidableEq, Repr

namespace Path

/-- The stretches of a text between the occurrences of a separator. -/
def splitAt (separator : Char) : List Char → List (List Char)
  | [] => [[]]
  | c :: cs =>
    if c = separator then
      [] :: splitAt separator cs
    else
      match splitAt separator cs with
      | [] => [[c]]
      | part :: parts => (c :: part) :: parts

/-- Whether a path starts at the root. -/
def isAbsolute (p : Path) : Bool :=
  p.text.toList.head? == some '/'

/-- Whether a path ends with a slash, and so can only name a directory. -/
def endsWithSlash (p : Path) : Bool :=
  p.text.toList.getLast? == some '/'

/-- All stretches between slashes, also the empty ones. -/
def parts (p : Path) : List String :=
  (splitAt '/' p.text.toList).map String.ofList

/-- The path whose parts these are. -/
def ofParts (parts : List String) : Path :=
  ⟨"/".intercalate parts⟩

/-- The non-empty stretches between slashes. -/
def segments (p : Path) : List String :=
  p.parts.filter fun part => part ≠ ""

/-- Whether a part leads nowhere. -/
def isBlank (part : String) : Bool :=
  part == "" || part == "."

/-- The parts from the last one that leads somewhere back to the first. -/
def reversedParts (p : Path) : List String :=
  p.parts.reverse.dropWhile isBlank

/-- The last name, unless it only says "one up". -/
def fileName? (p : Path) : Option String :=
  match p.reversedParts with
  | [] => none
  | name :: _ => if name = ".." then none else some name

/-- The part of a name after its last dot. A name without a dot, or with its only dot in front, has
none. -/
def extensionOf? (name : String) : Option String :=
  let reversed := name.toList.reverse
  match reversed.dropWhile (· ≠ '.') with
  | '.' :: _ :: _ => some (String.ofList (reversed.takeWhile (· ≠ '.')).reverse)
  | _ => none

/-- The extension of the file that a path names. -/
def extension? (p : Path) : Option String :=
  p.fileName?.bind extensionOf?

end Path

end Chip8
