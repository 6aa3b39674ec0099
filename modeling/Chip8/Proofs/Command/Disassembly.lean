import Chip8.Command
import Chip8.Proofs.FileSystem.Calls

/-!
# What a listing leaves behind

Writing the listing of an image to a file, on a tree of files: what the output holds if it succeeds,
and which files have suffered if it fails. The output is emptied before the image is read. So an
image that cannot be read costs the output its content, and an output that names the image lists an
empty image. Other files keep what they have in every case.

## Shape of the proof

`Course` is the list of all endings, with what the calls made so far have done to the tree. That
each run has such a course is a walk through the steps of the command (`course_disassembleIn`). What
the endings mean for the files is said of trees alone (`emptiesOutput_put`, `listed_put`).
-/

namespace Chip8.Command

variable {t t' : FileTree} {image file : Path} {output : Option Path}

/-- The listing of an image of a tree: the output file or the failure, and the tree after it. -/
def disassembleIn (t : FileTree) (image : Path) (output : Option Path) :
    Except Failure Path × FileTree :=
  (disassemble FileTree.calls image output).run t

/-! ## Steps -/

section Steps

variable {α β : Type} {x : ExceptT Failure (StateM FileTree) α}
  {f : α → ExceptT Failure (StateM FileTree) β}

/-- What follows an accepted part goes on from its tree. -/
theorem run_bind_of_ok {a : α} (h : x.run t = (.ok a, t')) : (x >>= f).run t = (f a).run t' := by
  have hrun : (x >>= f).run t = (ExceptT.bindCont f (x.run t).1).run (x.run t).2 := rfl
  rw [hrun, h]
  rfl

/-- Nothing follows a part that has failed. -/
theorem run_bind_of_error {failure : Failure} (h : x.run t = (.error failure, t')) :
    (x >>= f).run t = (.error failure, t') := by
  have hrun : (x >>= f).run t = (ExceptT.bindCont f (x.run t).1).run (x.run t).2 := rfl
  rw [hrun, h]
  rfl

end Steps

/-- A file call of the command does to the tree what the call does, and fails for its cause. -/
theorem run_fileStep {α : Type} {call : StateM FileTree (Except FileError α)}
    {result : Except FileError α} (h : call t = (result, t')) :
    (fileStep call).run t = (result.mapError .file, t') := by
  have hrun : (fileStep call).run t = ((call t).1.mapError .file, (call t).2) := rfl
  rw [hrun, h]

/-- Preparing the output answers its path or fails, and makes at most directories. -/
theorem exists_run_prepareOutput (t : FileTree) (output : Option Path) :
    ∃ result made, (prepareOutput FileTree.calls output).run t = (result, made) ∧
      t.AddsDirectories made ∧
      (result = .ok (output.getD defaultOutput) ∨ ∃ failure, result = .error failure) := by
  cases output with
  | none => exact ⟨_, t, rfl, .refl t, .inl rfl⟩
  | some path =>
    rw [prepareOutput]
    split
    · exact ⟨.error (.notAFile path), t, rfl, .refl t, .inr ⟨_, rfl⟩⟩
    · have hadds := FileTree.onlyAddsDirectories_makeParents path t
      rcases hmake : FileTree.calls.makeParents path t with ⟨result, made⟩
      rw [hmake] at hadds
      cases result with
      | ok _ => exact ⟨_, made, run_bind_of_ok (run_fileStep hmake), hadds, .inl rfl⟩
      | error cause =>
        exact ⟨_, made, run_bind_of_error (run_fileStep hmake), hadds, .inr ⟨_, rfl⟩⟩

/-! ## Endings -/

/-- How listing an image in a tree can end. -/
inductive Course (t : FileTree) (image : Path) (output : Option Path) :
    Except Failure Path → FileTree → Prop
  /-- No output file was created. -/
  | unopened {failure : Failure} {made : FileTree} (adds : t.AddsDirectories made) :
      Course t image output (.error failure) made
  /-- The output file was created, and then there was nothing to write to it. -/
  | unread {cause : FileError} {made : FileTree} {place : Location} (adds : t.AddsDirectories made)
      (places : made.Places (output.getD defaultOutput) place)
      (read_eq : (made.put place (.file [])).read image = .error cause) :
      Course t image output (.error (.file cause)) (made.put place (.file []))
  | listed {bytes : List UInt8} {made : FileTree} {place : Location} (adds : t.AddsDirectories made)
      (places : made.Places (output.getD defaultOutput) place)
      (read_eq : (made.put place (.file [])).read image = .ok bytes) :
      Course t image output (.ok (output.getD defaultOutput))
        ((made.put place (.file [])).put place (.file (listingText image bytes).toUTF8.toList))

/-- Every listing takes one of these courses. -/
theorem course_disassembleIn {result : Except Failure Path}
    (h : disassembleIn t image output = (result, t')) : Course t image output result t' := by
  obtain ⟨prepared, made, hprepare, hadds, hprepared⟩ := exists_run_prepareOutput t output
  rw [disassembleIn, disassemble] at h
  rcases hprepared with rfl | ⟨failure, rfl⟩
  · rw [run_bind_of_ok hprepare] at h
    cases hcreate : made.create (output.getD defaultOutput) with
    | error cause =>
      rw [run_bind_of_error (run_fileStep (FileTree.calls_create_of_error hcreate))] at h
      obtain ⟨rfl, rfl⟩ := Prod.mk.inj h
      exact .unopened hadds
    | ok opened =>
      obtain ⟨place, hplaces, rfl⟩ := FileTree.create_eq_ok hcreate
      rw [run_bind_of_ok (run_fileStep (FileTree.calls_create_of_ok hcreate))] at h
      have hcall : ∀ {read}, (made.put place (.file [])).read image = read →
          FileTree.calls.read image (made.put place (.file [])) =
            (read, made.put place (.file [])) := congrArg (·, _)
      cases hread : (made.put place (.file [])).read image with
      | error cause =>
        rw [run_bind_of_error (run_fileStep (hcall hread))] at h
        obtain ⟨rfl, rfl⟩ := Prod.mk.inj h
        exact .unread hadds hplaces hread
      | ok bytes =>
        -- the output is found under its path again, so that the write cannot be refused
        have hwrite := FileTree.write_of_locate (hplaces.locate_put [])
          (listingText image bytes).toUTF8.toList
        rw [run_bind_of_ok (run_fileStep (hcall hread)),
          run_bind_of_ok (run_fileStep (FileTree.calls_write_of_ok hwrite))] at h
        obtain ⟨rfl, rfl⟩ := Prod.mk.inj h
        exact .listed hadds hplaces hread
  · rw [run_bind_of_error hprepare] at h
    obtain ⟨rfl, rfl⟩ := Prod.mk.inj h
    exact .unopened hadds

/-! ## The image and the output -/

section Files

variable {made : FileTree} {source place : Location} {bytes content : List UInt8}

/-- An image is found still when the output has been created, emptied if it is the output. -/
theorem locate_opened (hadds : t.AddsDirectories made)
    (hplace : made.lookup place ≠ some .directory)
    (hsource : t.locate image = .ok (source, .file content)) :
    (made.put place (.file [])).locate image =
      .ok (source, .file (if source = place then [] else content)) := by
  have hcontent := (FileTree.locate_eq_ok_file_iff.mp hsource).2.1
  have hlookup := FileTree.lookup_put_file hplace (hadds.keepsFiles source content hcontent) []
  exact (hadds.extends.trans (FileTree.extends_put hplace [])).locate hsource hlookup

/-- The output file lies at `place` and is empty, and no other file has changed. -/
structure EmptiesOutput (t t' : FileTree) (file : Path) (place : Location) : Prop where
  output_eq : t'.locate file = .ok (place, .file [])
  others : t.SameFilesBut t' place

/-- When the output has been created, it is empty and the other files are as they were. -/
theorem emptiesOutput_put (hadds : t.AddsDirectories made) (hplaces : made.Places file place) :
    EmptiesOutput t (made.put place (.file [])) file place where
  output_eq := hplaces.locate_put []
  others :=
    (hadds.sameFilesBut place).put (FileTree.ne_nil_of_lookup_ne hplaces.not_directory) _

/-- The second tree is the first one with the listing of an image, found at `source`, in an output
file at `place`. -/
structure Listed (t t' : FileTree) (image file : Path) (source place : Location)
    (bytes : List UInt8) : Prop where
  /-- The output holds a heading and the lines, each of them ended. -/
  output_eq : t'.locate file = .ok (place, .file
    (("== " ++ image.text ++ " ==\n" ++
      String.join ((Listing.lines bytes).map (· ++ "\n"))).toUTF8.toList))
  others : t.SameFilesBut t' place
  source_eq : ∃ content, t'.locate image = .ok (source, .file content)
  /-- The lines are those of what the image was, unless the output is the image itself. -/
  bytes_eq : source ≠ place → t.lookup source = some (.file bytes)
  bytes_eq_nil : source = place → bytes = []

/-- A heading with the name of the image, and the lines after it. -/
theorem listingText_eq (image : Path) (bytes : List UInt8) :
    listingText image bytes = "== " ++ image.text ++ " ==\n" ++
      String.join ((Listing.lines bytes).map (· ++ "\n")) := by
  have hend : ∀ s : String, s ++ " ==" ++ "\n" = s ++ " ==\n" := fun s => by
    rw [String.append_assoc]
    rfl
  rw [listingText, List.map_cons, String.join_cons, hend]

/-- When the listing has been written, the output holds it and the other files are as they were. -/
theorem listed_put (hadds : t.AddsDirectories made) (hplaces : made.Places file place)
    (hsource : (made.put place (.file [])).locate image = .ok (source, .file bytes)) :
    Listed t ((made.put place (.file [])).put place (.file (listingText image bytes).toUTF8.toList))
      image file source place bytes := by
  have hne := FileTree.ne_nil_of_lookup_ne hplaces.not_directory
  have hopened : (made.put place (.file [])).lookup place = some (.file []) :=
    FileTree.lookup_put_self hne _
  have hplace : (made.put place (.file [])).lookup place ≠ some .directory := by
    rw [hopened]
    nofun
  have hext := FileTree.extends_put hplace (listingText image bytes).toUTF8.toList
  have hbytes := (FileTree.locate_eq_ok_file_iff.mp hsource).2.1
  refine ⟨?_, ((hadds.sameFilesBut place).put hne _).put hne _, ?_, ?_, ?_⟩
  · rw [← listingText_eq]
    exact hext.locate (hplaces.locate_put []) (FileTree.lookup_put_self hne _)
  · exact ⟨_, hext.locate hsource (FileTree.lookup_put_file hplace hbytes _)⟩
  · intro happart
    rw [FileTree.lookup_put_of_ne hne happart] at hbytes
    exact hadds.lookup_eq_file_iff.mp hbytes
  · rintro rfl
    rw [hopened] at hbytes
    cases hbytes
    rfl

end Files

/-! ## What has become of the files -/

/-- An image and a file of notes, in the working directory. -/
def desk : FileTree where
  nodes := [(["desk"], .directory), (["desk", "game.ch8"], .file [0x00, 0xE0]),
    (["desk", "notes.txt"], .file [0x68, 0x69])]
  workingDirectory := ["desk"]

/-- A failed listing destroys nothing if the image could be read when it began. If it does destroy
something, then that is the content of the output file, which is empty, and the failure is that the
image cannot be read. -/
theorem disassemble_failure_spares_files {failure : Failure}
    (h : disassembleIn t image output = (.error failure, t')) :
    ((∃ content, t.read image = .ok content) → t.KeepsFiles t') ∧
    (t.KeepsFiles t' ∨ ∃ place cause, EmptiesOutput t t' (output.getD defaultOutput) place ∧
      failure = .file cause ∧ t'.read image = .error cause) := by
  have hcourse := course_disassembleIn h
  generalize hresult : (Except.error failure : Except Failure Path) = result at hcourse
  cases hcourse with
  | unopened adds => exact ⟨fun _ => adds.keepsFiles, .inl adds.keepsFiles⟩
  | unread adds places read_eq =>
    cases hresult
    refine ⟨?_, .inr ⟨_, _, emptiesOutput_put adds places, rfl, read_eq⟩⟩
    rintro ⟨content, hread⟩
    obtain ⟨source, hsource⟩ := FileTree.read_eq_ok_iff.mp hread
    have hopened := locate_opened adds places.not_directory hsource
    rw [FileTree.read_eq_ok_iff.mpr ⟨source, hopened⟩] at read_eq
    cases read_eq
  | listed => cases hresult

/-- The output cannot be created, because its directory would have to be where a file is. -/
theorem disassemble_failure_spares_files_blocked :
    let run := disassembleIn desk ⟨"game.ch8"⟩ (some ⟨"notes.txt/game.txt"⟩)
    run = (.error (.file .alreadyExists), run.2) ∧ desk.read ⟨"game.ch8"⟩ = .ok [0x00, 0xE0] ∧
      desk.KeepsFiles run.2 := by
  intro run
  have hrun : run = (.error (.file .alreadyExists), run.2) := Prod.ext (by decide +kernel) rfl
  have hread : desk.read ⟨"game.ch8"⟩ = .ok [0x00, 0xE0] := by decide +kernel
  exact ⟨hrun, hread, (disassemble_failure_spares_files hrun).1 ⟨_, hread⟩⟩

/-- A listing of an image that is not there costs the output its content. -/
theorem disassemble_missing_image_empties_output :
    let run := disassembleIn desk ⟨"missing.ch8"⟩ (some ⟨"notes.txt"⟩)
    run.1 = .error (.file .notFound) ∧ run.2.lookup ["desk", "notes.txt"] = some (.file []) ∧
      ¬ desk.KeepsFiles run.2 := by
  intro run
  have hempty : run.2.lookup ["desk", "notes.txt"] = some (.file []) := by decide +kernel
  refine ⟨by decide +kernel, hempty, fun hkeeps => ?_⟩
  have hkept := hkeeps ["desk", "notes.txt"] [0x68, 0x69] rfl
  rw [hempty] at hkept
  cases hkept

/-- A listing that succeeds is in the output file, and no other file has changed. It lists what the
image held when it began, also if directories had to be made for the output. Only where the output
is the image itself it lists no bytes at all. -/
theorem disassemble_success_lists_image
    (h : disassembleIn t image output = (.ok file, t')) :
    file = output.getD defaultOutput ∧
    ∃ source place bytes, Listed t t' image file source place bytes ∧
      (source ≠ place → ∀ content, t.read image = .ok content → bytes = content) := by
  have hcourse := course_disassembleIn h
  generalize hresult : (Except.ok file : Except Failure Path) = result at hcourse
  cases hcourse with
  | unopened => cases hresult
  | unread => cases hresult
  | listed adds places read_eq =>
    cases hresult
    obtain ⟨source, hsource⟩ := FileTree.read_eq_ok_iff.mp read_eq
    refine ⟨rfl, source, _, _, listed_put adds places hsource, ?_⟩
    intro happart content hread
    obtain ⟨first, hfirst⟩ := FileTree.read_eq_ok_iff.mp hread
    have hopened := locate_opened adds places.not_directory hfirst
    rw [hsource] at hopened
    cases hopened
    rw [if_neg happart]

/-- The listing goes to a directory that is not there yet. -/
theorem disassemble_success_lists_image_newDirectory :
    let run := disassembleIn desk ⟨"game.ch8"⟩ (some ⟨"lists/game.txt"⟩)
    run = (.ok ⟨"lists/game.txt"⟩, run.2) ∧
      run.2.read ⟨"lists/game.txt"⟩ =
        .ok "== game.ch8 ==\n200  00E0  CLS\n".toUTF8.toList ∧
      ∃ source place bytes,
        Listed desk run.2 ⟨"game.ch8"⟩ ⟨"lists/game.txt"⟩ source place bytes := by
  intro run
  have hrun : run = (.ok ⟨"lists/game.txt"⟩, run.2) := Prod.ext (by decide +kernel) rfl
  obtain ⟨-, source, place, bytes, hlisted, -⟩ := disassemble_success_lists_image hrun
  exact ⟨hrun, by decide +kernel, source, place, bytes, hlisted⟩

/-- An image that is listed onto itself is lost, and not listed. -/
theorem disassemble_onto_image_lists_nothing :
    let run := disassembleIn desk ⟨"game.ch8"⟩ (some ⟨"./game.ch8"⟩)
    desk.read ⟨"game.ch8"⟩ = .ok [0x00, 0xE0] ∧ run.1 = .ok ⟨"./game.ch8"⟩ ∧
      run.2.read ⟨"game.ch8"⟩ = .ok "== game.ch8 ==\n".toUTF8.toList ∧
      listingText ⟨"game.ch8"⟩ [0x00, 0xE0] = "== game.ch8 ==\n200  00E0  CLS\n" := by
  decide +kernel

end Chip8.Command
