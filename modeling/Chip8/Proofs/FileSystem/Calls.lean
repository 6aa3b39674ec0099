import Chip8.Proofs.FileSystem.Walk

/-!
# What calls do to a tree

A call that changes a tree either succeeds and changes it, or is refused and leaves it alone. Making
the directories above a file adds directories and does nothing else, also when it fails half way.

## Shape of the proof

`AddsDirectories` relates the trees before and after, and `OnlyAddsDirectories` says of a call that
it leads from any tree to such a one. Calls that follow each other keep to it (`bind`), so the
recursion over the parts of a path does.
-/

namespace Chip8.FileTree

variable {t t' : FileTree}

/-- The second tree is the first with directories where nothing was. -/
structure AddsDirectories (t t' : FileTree) : Prop where
  workingDirectory_eq : t'.workingDirectory = t.workingDirectory
  lookup_or : ∀ l, t'.lookup l = t.lookup l ∨
    (t.lookup l = none ∧ t'.lookup l = some .directory)

theorem AddsDirectories.refl (t : FileTree) : t.AddsDirectories t :=
  ⟨rfl, fun _ => .inl rfl⟩

/-- Directories added on top of added directories are added directories. -/
theorem AddsDirectories.trans {t'' : FileTree} (h : t.AddsDirectories t')
    (h' : t'.AddsDirectories t'') : t.AddsDirectories t'' := by
  refine ⟨h'.workingDirectory_eq.trans h.workingDirectory_eq, fun l => ?_⟩
  rcases h'.lookup_or l with hl' | ⟨hnone, hdirectory⟩
  · rcases h.lookup_or l with hl | ⟨hnone, hdirectory⟩
    · exact .inl (hl'.trans hl)
    · exact .inr ⟨hnone, hl'.trans hdirectory⟩
  · rcases h.lookup_or l with hl | ⟨-, hsome⟩
    · exact .inr ⟨hl.symm.trans hnone, hdirectory⟩
    · rw [hnone] at hsome
      cases hsome

/-- What existed still exists, and directories are directories still. -/
theorem AddsDirectories.extends (h : t.AddsDirectories t') : t.Extends t' where
  workingDirectory_eq := h.workingDirectory_eq
  directory {l} hl := by
    rcases h.lookup_or l with heq | ⟨hnone, -⟩
    · exact heq.trans hl
    · rw [hnone] at hl
      cases hl
  isSome {l} hl := by
    rcases h.lookup_or l with heq | ⟨-, hsome⟩
    · rw [heq]
      exact hl
    · rw [hsome]
      rfl

/-- The files are the same before and after. -/
theorem AddsDirectories.lookup_eq_file_iff (h : t.AddsDirectories t') {l : Location}
    {content : List UInt8} :
    t'.lookup l = some (.file content) ↔ t.lookup l = some (.file content) := by
  rcases h.lookup_or l with heq | ⟨hnone, hsome⟩
  · rw [heq]
  · simp [hnone, hsome]

/-- Every file of the first tree has its content still. -/
def KeepsFiles (t t' : FileTree) : Prop :=
  ∀ l content, t.lookup l = some (.file content) → t'.lookup l = some (.file content)

/-- Where a file was, it still is, with the content it had. -/
theorem AddsDirectories.keepsFiles (h : t.AddsDirectories t') : t.KeepsFiles t' :=
  fun _ _ hl => h.lookup_eq_file_iff.mpr hl

/-- Both trees have the same files, but for the one at `place`. -/
def SameFilesBut (t t' : FileTree) (place : Location) : Prop :=
  ∀ other ≠ place, ∀ content,
    t'.lookup other = some (.file content) ↔ t.lookup other = some (.file content)

/-- No directory is added where a file is. -/
theorem AddsDirectories.sameFilesBut (h : t.AddsDirectories t') (place : Location) :
    t.SameFilesBut t' place :=
  fun _ _ _ => h.lookup_eq_file_iff

/-- Whatever is put at the excepted place, the files elsewhere are the same. -/
theorem SameFilesBut.put {place : Location} (h : t.SameFilesBut t' place) (hne : place ≠ [])
    (node : FileNode) : t.SameFilesBut (t'.put place node) place := by
  intro other hother content
  rw [lookup_put_of_ne hne hother]
  exact h other hother content

/-- A directory is made only where nothing was. -/
theorem addsDirectories_makeDirectory {p : Path} (h : t.makeDirectory p = .ok t') :
    t.AddsDirectories t' := by
  unfold makeDirectory at h
  obtain ⟨⟨l, node⟩, hslot, h⟩ := bind_eq_ok_iff.mp h
  obtain ⟨rfl, -⟩ := slot_eq_ok hslot
  split at h
  · cases h
  next location heq =>
    cases h
    obtain ⟨rfl, hnone⟩ := Prod.mk.inj heq
    have hl : l ≠ [] := ne_nil_of_lookup_ne (by rw [hnone]; nofun)
    refine ⟨rfl, fun other => ?_⟩
    by_cases ho : other = l
    · rw [ho]
      exact .inr ⟨hnone, lookup_put_self hl _⟩
    · exact .inl (lookup_put_of_ne hl ho)

/-! ## One call -/

variable {p : Path}

theorem calls_makeDirectory : calls.makeDirectory p = change fun t => t.makeDirectory p :=
  rfl

theorem calls_create : calls.create p = change fun t => t.create p :=
  rfl

theorem calls_write {content : List UInt8} :
    calls.write p content = change fun t => t.write p content :=
  rfl

/-- A file that can be created is created. -/
theorem calls_create_of_ok (h : t.create p = .ok t') : calls.create p t = (.ok (), t') := by
  rw [calls_create, change, h]

/-- A refused creation changes nothing. -/
theorem calls_create_of_error {cause : FileError} (h : t.create p = .error cause) :
    calls.create p t = (.error cause, t) := by
  rw [calls_create, change, h]

theorem calls_write_of_ok {content : List UInt8} (h : t.write p content = .ok t') :
    calls.write p content t = (.ok (), t') := by
  rw [calls_write, change, h]

/-! ## Calls that make directories -/

/-- A call that adds directories to a tree and does nothing else to it. -/
def OnlyAddsDirectories {α : Type} (call : StateM FileTree α) : Prop :=
  ∀ t : FileTree, t.AddsDirectories (call t).2

/-- To make no call is to add nothing. -/
theorem onlyAddsDirectories_pure {α : Type} (a : α) :
    OnlyAddsDirectories (pure a : StateM FileTree α) :=
  fun t => .refl t

/-- Calls that only add directories do so one after the other, too. -/
theorem OnlyAddsDirectories.bind {α β : Type} {call : StateM FileTree α}
    {next : α → StateM FileTree β} (h : OnlyAddsDirectories call)
    (hnext : ∀ a, OnlyAddsDirectories (next a)) : OnlyAddsDirectories (call >>= next) :=
  fun t => (h t).trans (hnext _ _)

/-- To make a directory adds it, or is refused and adds nothing. -/
theorem onlyAddsDirectories_makeDirectory (p : Path) :
    OnlyAddsDirectories (calls.makeDirectory p) := by
  intro t
  rw [calls_makeDirectory, change]
  split
  next t' h => exact addsDirectories_makeDirectory h
  next => exact .refl t

theorem onlyAddsDirectories_isDirectory (p : Path) : OnlyAddsDirectories (calls.isDirectory p) :=
  fun t => .refl t

/-- To look whether a refused directory is there already adds nothing. -/
theorem onlyAddsDirectories_orPresent (p : Path) (result : Except FileError Unit) :
    OnlyAddsDirectories (calls.orPresent p result) := by
  cases result with
  | ok _ => exact onlyAddsDirectories_pure _
  | error e =>
    refine (onlyAddsDirectories_isDirectory p).bind fun present => ?_
    split
    · exact onlyAddsDirectories_pure _
    · exact onlyAddsDirectories_pure _

/-- A directory is made together with those above it, by calls of these kinds alone. -/
theorem onlyAddsDirectories_makeReversed (parts : List String) :
    OnlyAddsDirectories (calls.makeReversed parts) := by
  induction parts with
  | nil => exact onlyAddsDirectories_pure _
  | cons part above ih =>
    rw [FileCalls.makeReversed]
    split
    · exact ih
    · refine (onlyAddsDirectories_makeDirectory _).bind fun result => ?_
      split
      · refine ih.bind fun above => ?_
        split
        · exact onlyAddsDirectories_pure _
        · exact (onlyAddsDirectories_makeDirectory _).bind (onlyAddsDirectories_orPresent _)
      · exact onlyAddsDirectories_orPresent _ _

/-- So the way to a file is made without touching any file. -/
theorem onlyAddsDirectories_makeParents (file : Path) :
    OnlyAddsDirectories (calls.makeParents file) :=
  onlyAddsDirectories_makeReversed _

end Chip8.FileTree
