import Chip8.FileSystem.Calls

/-!
# A tree of files

Directories and files without links, with the file calls of a POSIX system on them.

## Shape of a call

A location is the list of names from the root. `enter` goes from a directory to one of its entries,
`walk` follows the segments of a path, and `locate` ends at something that exists. A call that makes
a new entry walks to the parent only (`slot`), and says what is already there. `lookup_put` is the
read-back law of the tree.
-/

namespace Chip8

/-- What lies at a location. -/
inductive FileNode where
  | directory
  | file (content : List UInt8)
deriving DecidableEq

/-- The names from the root to a file or directory. -/
abbrev Location := List String

/-- A tree of files, and the directory where relative paths start. -/
structure FileTree where
  nodes : List (Location × FileNode)
  workingDirectory : Location

namespace FileTree

/-- What lies at a location; the root is always a directory. -/
def lookup (t : FileTree) (location : Location) : Option FileNode :=
  if location = [] then some .directory else t.nodes.lookup location

/-- The tree with a node at a location, in place of what was there. -/
def put (t : FileTree) (location : Location) (node : FileNode) : FileTree :=
  { t with nodes := (location, node) :: t.nodes.filter fun entry => entry.1 ≠ location }

/-! ## Walking a path -/

/-- The most bytes that a name may have. -/
abbrev nameLimit : Nat := 255

/-- The number of bytes that a path must stay below. -/
abbrev pathLimit : Nat := 4096

/-- The entry of a directory that a name stands for, which need not exist. -/
def entry (t : FileTree) (directory : Location) (name : String) : Except FileError Location :=
  match t.lookup directory with
  | none => .error .notFound
  | some (.file _) => .error .notADirectory
  | some .directory =>
    if name = "." then .ok directory
    else if name = ".." then .ok directory.dropLast
    else if name.utf8ByteSize > nameLimit then .error .nameTooLong
    else .ok (directory ++ [name])

/-- The existing entry of a directory that a name stands for. -/
def enter (t : FileTree) (directory : Location) (name : String) : Except FileError Location :=
  match t.entry directory name with
  | .error e => .error e
  | .ok location => if (t.lookup location).isSome then .ok location else .error .notFound

/-- The existing location that a list of names leads to. -/
def walk (t : FileTree) (start : Location) : List String → Except FileError Location
  | [] => .ok start
  | name :: names =>
    match t.enter start name with
    | .error e => .error e
    | .ok next => t.walk next names

/-- Where a path starts, unless no file call takes it. -/
def origin (t : FileTree) (p : Path) : Except FileError Location :=
  if p.text.toList.contains '\x00' then .error .zeroInName
  else if p.text = "" then .error .notFound
  else if p.text.utf8ByteSize ≥ pathLimit then .error .nameTooLong
  else .ok (if p.isAbsolute then [] else t.workingDirectory)

/-- The existing location that a path names. A path that ends with a slash names no file. -/
def locate (t : FileTree) (p : Path) : Except FileError (Location × FileNode) := do
  let location ← t.walk (← t.origin p) p.segments
  match t.lookup location with
  | none => .error .notFound
  | some (.file content) =>
    if p.endsWithSlash then .error .notADirectory else .ok (location, .file content)
  | some .directory => .ok (location, .directory)

/-- The directory in which a path names an entry. -/
def parent (t : FileTree) (p : Path) : Except FileError Location := do
  let directory ← t.walk (← t.origin p) p.segments.dropLast
  match t.lookup directory with
  | some .directory => .ok directory
  | some (.file _) => .error .notADirectory
  | none => .error .notFound

/-- The location that a path names in an existing directory, and what is there now. -/
def slot (t : FileTree) (p : Path) : Except FileError (Location × Option FileNode) := do
  let directory ← t.parent p
  match p.segments.getLast? with
  | none => .ok (directory, some .directory)
  | some name =>
    let location ← t.entry directory name
    .ok (location, t.lookup location)

/-! ## The calls -/

/-- The tree with a new directory. -/
def makeDirectory (t : FileTree) (p : Path) : Except FileError FileTree := do
  match ← t.slot p with
  | (_, some _) => .error .alreadyExists
  | (location, none) => .ok (t.put location .directory)

/-- Whether a path names a directory. -/
def isDirectory (t : FileTree) (p : Path) : Bool :=
  match t.locate p with
  | .ok (_, .directory) => true
  | _ => false

/-- The tree with an empty file where the path says, in place of the file that was there. -/
def create (t : FileTree) (p : Path) : Except FileError FileTree := do
  let _ ← t.parent p
  if p.endsWithSlash then
    .error .isADirectory
  else
    match ← t.slot p with
    | (_, some .directory) => .error .isADirectory
    | (location, _) => .ok (t.put location (.file []))

/-- The content of a file. -/
def read (t : FileTree) (p : Path) : Except FileError (List UInt8) := do
  match ← t.locate p with
  | (_, .directory) => .error .isADirectory
  | (_, .file content) => .ok content

/-- The tree with other content in an existing file. -/
def write (t : FileTree) (p : Path) (content : List UInt8) : Except FileError FileTree := do
  match ← t.locate p with
  | (_, .directory) => .error .isADirectory
  | (location, .file _) => .ok (t.put location (.file content))

/-- A change of the tree as a file call: a refused one changes nothing. -/
def change (f : FileTree → Except FileError FileTree) : StateM FileTree (Except FileError Unit) :=
  fun t =>
    match f t with
    | .ok t' => (.ok (), t')
    | .error e => (.error e, t)

/-- The file calls on a tree. -/
def calls : FileCalls (StateM FileTree) where
  makeDirectory p := change fun t => t.makeDirectory p
  isDirectory p := fun t => (t.isDirectory p, t)
  create p := change fun t => t.create p
  read p := fun t => (t.read p, t)
  write p content := change fun t => t.write p content

/-! ## Reading back -/

/-- After a write a location holds what was put there, and every other what it held before. -/
theorem lookup_put (t : FileTree) (location other : Location) (node : FileNode)
    (h : location ≠ []) :
    (t.put location node).lookup other =
      if other = location then some node else t.lookup other := by
  unfold lookup put
  by_cases ho : other = location
  · subst ho
    simp [h]
  · by_cases he : other = []
    · simp [he, Ne.symm h]
    · simp only [he, ↓reduceIte, ho, List.lookup_cons, beq_eq_false_iff_ne.2 ho]
      induction t.nodes with
      | nil => rfl
      | cons n ns ih =>
        obtain ⟨l, v⟩ := n
        by_cases hl : l = location
        · subst hl
          rw [List.filter_cons_of_neg (by simp), ih, List.lookup_cons,
            beq_eq_false_iff_ne.2 ho]
        · rw [List.filter_cons_of_pos (by simpa using hl), List.lookup_cons, List.lookup_cons, ih]

end FileTree

end Chip8
