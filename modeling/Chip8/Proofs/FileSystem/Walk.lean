import Chip8.FileSystem.Tree
import Mathlib.Data.List.Basic

/-!
# Where paths lead

A path that leads somewhere leads there still after directories and files have been added, and after
files have changed their content. So a file that has been created under a path is found under that
path, and what is written to it is read back.

## Shape of the proof

A walk asks only which locations are directories and which exist. `Extends` says that a second tree
has kept both, and each stage of a walk is carried over by it, from `Extends.entry` to
`Extends.locate`. A call that creates a file walks to the directory above and puts the file there
(`Places`), so the walk to the file is that walk and one step more.
-/

namespace Chip8.FileTree

variable {t t' : FileTree} {p : Path} {l : Location}

/-- A sequence of calls is accepted exactly if each of them is. -/
theorem bind_eq_ok_iff {α β : Type} {x : Except FileError α} {f : α → Except FileError β} {b : β} :
    (x >>= f) = .ok b ↔ ∃ a, x = .ok a ∧ f a = .ok b := by
  cases x with
  | error e => exact ⟨nofun, fun ⟨_, h, _⟩ => nomatch h⟩
  | ok a =>
    constructor
    · exact fun h => ⟨a, rfl, h⟩
    · rintro ⟨_, heq, h⟩
      cases heq
      exact h

/-! ## Trees that keep what they have -/

/-- Every directory is still a directory, and whatever existed still exists. -/
structure Extends (t t' : FileTree) : Prop where
  workingDirectory_eq : t'.workingDirectory = t.workingDirectory
  directory : ∀ {l}, t.lookup l = some .directory → t'.lookup l = some .directory
  isSome : ∀ {l}, (t.lookup l).isSome → (t'.lookup l).isSome

/-- Trees can be extended again and again. -/
theorem Extends.trans {t'' : FileTree} (h : t.Extends t') (h' : t'.Extends t'') : t.Extends t'' :=
  ⟨h'.workingDirectory_eq.trans h.workingDirectory_eq, fun hl => h'.directory (h.directory hl),
    fun hl => h'.isSome (h.isSome hl)⟩

/-- Only the root is bound to be a directory. -/
theorem ne_nil_of_lookup_ne (h : t.lookup l ≠ some .directory) : l ≠ [] := by
  rintro rfl
  exact h rfl

/-- What is put at a location is found there. -/
@[simp] theorem lookup_put_self (h : l ≠ []) (node : FileNode) :
    (t.put l node).lookup l = some node := by
  rw [lookup_put t l l node h, if_pos rfl]

theorem lookup_put_of_ne {other : Location} {node : FileNode} (h : l ≠ []) (hne : other ≠ l) :
    (t.put l node).lookup other = t.lookup other := by
  rw [lookup_put t l other node h, if_neg hne]

/-- A file at `source`, after one has been put at `l`. -/
theorem lookup_put_file {source : Location} {content : List UInt8}
    (h : t.lookup l ≠ some .directory) (hsource : t.lookup source = some (.file content))
    (new : List UInt8) :
    (t.put l (.file new)).lookup source = some (.file (if source = l then new else content)) := by
  have hl := ne_nil_of_lookup_ne h
  split
  next heq => rw [heq, lookup_put_self hl]
  next hne => rw [lookup_put_of_ne hl hne, hsource]

/-- A file may be put where there is no directory. -/
theorem extends_put (h : t.lookup l ≠ some .directory) (content : List UInt8) :
    t.Extends (t.put l (.file content)) := by
  have hl := ne_nil_of_lookup_ne h
  refine ⟨rfl, fun {other} ho => ?_, fun {other} ho => ?_⟩
  · rw [lookup_put_of_ne hl (fun heq => h (heq ▸ ho))]
    exact ho
  · by_cases heq : other = l
    · rw [heq, lookup_put_self hl]
      rfl
    · rw [lookup_put_of_ne hl heq]
      exact ho

/-! ## Walks -/

/-- Entries are entries of directories. -/
theorem lookup_of_entry_eq_ok {directory : Location} {name : String}
    (h : t.entry directory name = .ok l) : t.lookup directory = some .directory := by
  unfold entry at h
  split at h
  · cases h
  · cases h
  · assumption

/-- A name stands for the same entry in a larger tree. -/
theorem Extends.entry {directory : Location} {name : String} (h : t.Extends t')
    (he : t.entry directory name = .ok l) : t'.entry directory name = .ok l := by
  have hd := lookup_of_entry_eq_ok he
  unfold FileTree.entry at he ⊢
  rw [hd] at he
  rw [h.directory hd]
  exact he

/-- To enter is to name an entry that exists. -/
theorem enter_eq_ok_iff {directory : Location} {name : String} :
    t.enter directory name = .ok l ↔ t.entry directory name = .ok l ∧ (t.lookup l).isSome := by
  unfold enter
  cases t.entry directory name with
  | error e => simp
  | ok next =>
    simp only [Except.ok.injEq]
    split
    next h =>
      rw [Except.ok.injEq]
      exact ⟨fun heq => ⟨heq, heq ▸ h⟩, fun heq => heq.1⟩
    next h => exact ⟨nofun, fun ⟨heq, hl⟩ => absurd (heq ▸ hl) h⟩

theorem Extends.enter {directory : Location} {name : String} (h : t.Extends t')
    (he : t.enter directory name = .ok l) : t'.enter directory name = .ok l := by
  rw [enter_eq_ok_iff] at he ⊢
  exact ⟨h.entry he.1, h.isSome he.2⟩

/-- A walk enters its first name and goes on from there. -/
theorem walk_cons_eq_ok_iff {start : Location} {name : String} {names : List String} :
    t.walk start (name :: names) = .ok l ↔
      ∃ next, t.enter start name = .ok next ∧ t.walk next names = .ok l := by
  rw [walk]
  cases t.enter start name with
  | error e => simp
  | ok next => simp

/-- A walk leads to the same place in a larger tree. -/
theorem Extends.walk {start : Location} {names : List String} (h : t.Extends t')
    (hw : t.walk start names = .ok l) : t'.walk start names = .ok l := by
  induction names generalizing start with
  | nil => exact hw
  | cons name names ih =>
    obtain ⟨next, hnext, hrest⟩ := walk_cons_eq_ok_iff.mp hw
    exact walk_cons_eq_ok_iff.mpr ⟨next, h.enter hnext, ih hrest⟩

/-- A walk can be interrupted and taken up again. -/
theorem walk_append {start middle : Location} {names more : List String}
    (h : t.walk start names = .ok middle) : t.walk start (names ++ more) = t.walk middle more := by
  induction names generalizing start with
  | nil =>
    cases h
    rfl
  | cons name names ih =>
    obtain ⟨next, hnext, hrest⟩ := walk_cons_eq_ok_iff.mp h
    rw [List.cons_append, walk, hnext]
    exact ih hrest

/-- Where a path starts depends on the working directory alone. -/
theorem Extends.origin_eq (h : t.Extends t') : t'.origin p = t.origin p := by
  rw [origin, origin, h.workingDirectory_eq]

/-! ## Files under a path -/

/-- A path names a file exactly if the walk along its segments ends at one and no slash follows. -/
theorem locate_eq_ok_file_iff {content : List UInt8} :
    t.locate p = .ok (l, .file content) ↔
      (∃ start, t.origin p = .ok start ∧ t.walk start p.segments = .ok l) ∧
        t.lookup l = some (.file content) ∧ p.endsWithSlash = false := by
  unfold locate
  simp only [bind_eq_ok_iff]
  constructor
  · rintro ⟨start, hstart, found, hfound, h⟩
    split at h
    next => cases h
    next c hlookup =>
      split at h
      next => cases h
      next hslash =>
        cases h
        exact ⟨⟨start, hstart, hfound⟩, hlookup, eq_false_of_ne_true hslash⟩
    next => cases h
  · rintro ⟨⟨start, hstart, hl⟩, hlookup, hslash⟩
    refine ⟨start, hstart, l, hl, ?_⟩
    simp [hlookup, hslash]

/-- A file is found where it was, with the content that it has now. -/
theorem Extends.locate {content content' : List UInt8} (h : t.Extends t')
    (hl : t.locate p = .ok (l, .file content)) (hlookup : t'.lookup l = some (.file content')) :
    t'.locate p = .ok (l, .file content') := by
  obtain ⟨⟨start, hstart, hwalk⟩, -, hslash⟩ := locate_eq_ok_file_iff.mp hl
  exact locate_eq_ok_file_iff.mpr ⟨⟨start, h.origin_eq.trans hstart, h.walk hwalk⟩, hlookup, hslash⟩

/-- What can be read is a file that can be located. -/
theorem read_eq_ok_iff {content : List UInt8} :
    t.read p = .ok content ↔ ∃ l, t.locate p = .ok (l, .file content) := by
  unfold read
  rw [bind_eq_ok_iff]
  constructor
  · rintro ⟨⟨l, node⟩, hl, h⟩
    cases node with
    | directory => cases h
    | file c =>
      cases h
      exact ⟨l, hl⟩
  · rintro ⟨l, hl⟩
    exact ⟨_, hl, rfl⟩

/-- A file that can be located can be given any content. -/
theorem write_of_locate {content : List UInt8} (h : t.locate p = .ok (l, .file content))
    (content' : List UInt8) : t.write p content' = .ok (t.put l (.file content')) := by
  rw [write, h]
  rfl

/-! ## New entries -/

/-- The parent of a path is the directory at which the walk without the last segment ends. -/
theorem parent_eq_ok_iff {directory : Location} :
    t.parent p = .ok directory ↔
      (∃ start, t.origin p = .ok start ∧ t.walk start p.segments.dropLast = .ok directory) ∧
        t.lookup directory = some .directory := by
  unfold parent
  simp only [bind_eq_ok_iff]
  constructor
  · rintro ⟨start, hstart, found, hfound, h⟩
    split at h
    · cases h
      exact ⟨⟨start, hstart, hfound⟩, by assumption⟩
    · cases h
    · cases h
  · rintro ⟨⟨start, hstart, hd⟩, hlookup⟩
    refine ⟨start, hstart, directory, hd, ?_⟩
    rw [hlookup]

/-- The slot of a path is what lies at the location it names. -/
theorem slot_eq_ok {node : Option FileNode} (h : t.slot p = .ok (l, node)) :
    node = t.lookup l ∧ (t.lookup l = some .directory ∨ ∃ directory name,
      t.parent p = .ok directory ∧ p.segments.getLast? = some name ∧
        t.entry directory name = .ok l) := by
  unfold slot at h
  obtain ⟨directory, hd, h⟩ := bind_eq_ok_iff.mp h
  have hlookup := (parent_eq_ok_iff.mp hd).2
  split at h
  · cases h
    exact ⟨hlookup.symm, .inl hlookup⟩
  next name hname =>
    obtain ⟨location, hentry, h⟩ := bind_eq_ok_iff.mp h
    cases h
    exact ⟨rfl, .inr ⟨directory, name, hd, hname, hentry⟩⟩

/-- A path names a place for a file: one in an existing directory that is no directory itself. -/
structure Places (t : FileTree) (p : Path) (l : Location) : Prop where
  entry : ∃ directory name, t.parent p = .ok directory ∧ p.segments.getLast? = some name ∧
    t.entry directory name = .ok l
  not_directory : t.lookup l ≠ some .directory
  not_slash : p.endsWithSlash = false

/-- A created file is empty and lies where the path places it. -/
theorem create_eq_ok (h : t.create p = .ok t') :
    ∃ l, t.Places p l ∧ t' = t.put l (.file []) := by
  unfold create at h
  obtain ⟨-, -, h⟩ := bind_eq_ok_iff.mp h
  split at h
  · cases h
  next hslash =>
    obtain ⟨⟨l, node⟩, hslot, h⟩ := bind_eq_ok_iff.mp h
    obtain ⟨rfl, hentry⟩ := slot_eq_ok hslot
    split at h
    · cases h
    next location _ hno heq =>
      cases h
      cases heq
      have hdirectory : t.lookup l ≠ some .directory := fun hd => hno (by rw [hd])
      exact ⟨l, ⟨hentry.resolve_left hdirectory, hdirectory, eq_false_of_ne_true hslash⟩, rfl⟩

/-- A file that is put in its place is found there. -/
theorem Places.locate_put (h : t.Places p l) (content : List UInt8) :
    (t.put l (.file content)).locate p = .ok (l, .file content) := by
  obtain ⟨directory, name, hparent, hname, hentry⟩ := h.entry
  obtain ⟨⟨start, hstart, hwalk⟩, -⟩ := parent_eq_ok_iff.mp hparent
  have hext := extends_put h.not_directory content
  have hfound : (t.put l (.file content)).lookup l = some (.file content) :=
    lookup_put_self (ne_nil_of_lookup_ne h.not_directory) _
  refine locate_eq_ok_file_iff.mpr ⟨⟨start, hext.origin_eq.trans hstart, ?_⟩, hfound, h.not_slash⟩
  rw [← List.dropLast_append_getLast? name hname, walk_append (hext.walk hwalk),
    walk_cons_eq_ok_iff]
  exact ⟨l, enter_eq_ok_iff.mpr ⟨hext.entry hentry, by rw [hfound]; rfl⟩, rfl⟩

end Chip8.FileTree
