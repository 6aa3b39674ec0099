import Chip8.Proofs.Framebuffer.History
import Chip8.Proofs.Machine.InPlace
import Chip8.Proofs.Machine.Outcome

/-!
# When the picture is handed out

A host that takes over every picture it is given always holds the current one, although it is given
a picture only when one is due.

## Shape of the invariant

The mark of the framebuffer is the only link between what changes the picture and what hands it out.
An action that repaints raises the mark, and any other but `takeFrame` leaves cells and mark alone
(`dirty_perform`, `screen_perform`). So a lowered mark means that the copy of the host is current
(`Current`), and a raised one that something was painted since it was lowered (`dirty_after`). A
draw repaints exactly if its sprite has a set pixel; the cells need not differ afterwards. A refused
action repaints nothing, also where the machine is changed in place.
-/

namespace Chip8

namespace Framebuffer

/-- No toggle lowers the mark. -/
theorem dirty_toggleAll_of_dirty {f : Framebuffer} (is : List Nat) (h : f.dirty = true) :
    (f.toggleAll is).2.dirty = true := by
  induction is generalizing f with
  | nil => exact h
  | cons i is ih => exact ih (f := (f.toggle i).2) rfl

/-- Inverting any cell at all raises the mark. -/
theorem dirty_toggleAll (f : Framebuffer) {is : List Nat} (h : is ≠ []) :
    (f.toggleAll is).2.dirty = true := by
  cases is with
  | nil => exact absurd rfl h
  | cons i is => exact dirty_toggleAll_of_dirty (f := (f.toggle i).2) is rfl

end Framebuffer

/-- A sprite names no cell exactly if all its pixels are unset. -/
theorem Sprite.indices_eq_nil_iff {x y : Nat} {sprite : List UInt8} :
    indices x y sprite = [] ↔ ∀ row ∈ sprite, ∀ column < 8, isSet row column = false := by
  induction sprite generalizing y with
  | nil => simp [indices]
  | cons row rows ih =>
    have hrow : columns row = [] ↔ ∀ column < 8, isSet row column = false := by
      simp [columns, List.filter_eq_nil_iff]
    rw [indices, List.append_eq_nil_iff, List.map_eq_nil_iff, hrow, ih, List.forall_mem_cons]

namespace Machine

variable {m m' : Machine} {i : Instruction} {a : Action}

/-! ## What repaints -/

/-- An instruction that touches the picture when it is executed. -/
def Paints (m : Machine) : Instruction → Prop
  | .clear => True
  | .draw _ _ n => ∃ row < n.toNat, ∃ column < 8, m.spritePixel row column = true
  | _ => False

/-- An action that makes a repaint due. -/
def Repaints (m : Machine) : Action → Prop
  | .reset | .clearScreen => True
  | .step => ∃ i, m.step.1 = .ok i ∧ m.Paints i
  | .execute i => (∃ m', m.execute i = .ok m') ∧ m.Paints i
  | _ => False

/-- A history in which some action makes a repaint due. -/
def RepaintsIn (m : Machine) (actions : List Action) : Prop :=
  OccursIn Repaints m actions

theorem not_repaintsIn_nil (m : Machine) : ¬ m.RepaintsIn [] :=
  not_occursIn_nil Repaints m

theorem repaintsIn_cons {as : List Action} :
    m.RepaintsIn (a :: as) ↔ m.Repaints a ∨ (m.perform a).2.RepaintsIn as :=
  occursIn_cons

/-! ## One instruction -/

/-- The cells that a draw inverts are those of the set pixels, so there are none exactly if the
draw does not paint. -/
theorem indices_eq_nil_iff_not_paints {x y n : UInt8} :
    Sprite.indices (m.v x).toNat (m.v y).toNat (m.memory.read m.index.toNat n.toNat) = [] ↔
      ¬ m.Paints (.draw x y n) := by
  rw [Sprite.indices_eq_nil_iff, Paints]
  simp only [Memory.read, List.mem_map, List.mem_range, forall_exists_index, and_imp,
    forall_apply_eq_imp_iff₂, not_exists, not_and, Bool.not_eq_true]
  rfl

/-- An instruction that paints raises the mark. -/
theorem dirty_of_paints (h : m.execute i = .ok m') (hp : m.Paints i) :
    m'.screen.dirty = true := by
  cases i with
  | clear =>
    cases h
    rfl
  | draw x y n =>
    obtain ⟨-, rfl⟩ := draw_eq_ok_iff.mp h
    exact Framebuffer.dirty_toggleAll _ fun hnil => indices_eq_nil_iff_not_paints.mp hnil hp
  | _ => exact absurd hp id

/-- One that does not leaves cells and mark alone. -/
theorem screen_of_not_paints (h : m.execute i = .ok m') (hp : ¬ m.Paints i) :
    m'.screen = m.screen := by
  cases outcome_of_execute h with
  | cleared => exact absurd trivial hp
  | drawn =>
    -- a draw without set pixels goes through an empty list
    simp only [drawn, indices_eq_nil_iff_not_paints.mpr hp]
    rfl
  | called | returned | digits | stored | plain => rfl

/-! ## One action -/

/-- Whether an instruction paints does not depend on the word on record. -/
theorem paints_record {word : UInt16} : (m.record word).Paints i ↔ m.Paints i := by
  cases i <;> exact Iff.rfl

/-- What repaints raises the mark. -/
theorem dirty_perform (hp : m.Repaints a) : (m.perform a).2.screen.dirty = true := by
  cases a with
  | reset | clearScreen => rfl
  | step =>
    obtain ⟨i, hi, hp⟩ := hp
    obtain ⟨word, -, -, he⟩ := step_eq_ok_iff.mp (Prod.ext hi rfl : m.step = (.ok i, m.step.2))
    rw [perform_step_snd]
    exact dirty_of_paints he (paints_record.mpr hp)
  | execute i =>
    obtain ⟨⟨m', he⟩, hp⟩ := hp
    rw [perform, he]
    exact dirty_of_paints he hp
  | _ => exact absurd hp id

/-- What does not repaint leaves cells and mark alone, unless it takes the picture. -/
theorem screen_perform (ha : a ≠ .takeFrame) (hp : ¬ m.Repaints a) :
    (m.perform a).2.screen = m.screen := by
  cases a with
  | takeFrame => exact absurd rfl ha
  | reset | clearScreen => exact absurd trivial hp
  | skip | tick => rfl
  | load image =>
    obtain ⟨memory, hm⟩ := perform_load m image
    rw [hm]
  | press | release => rw [perform_of_keyEvent? rfl]
  | step =>
    rw [perform_step_snd]
    rcases hs : m.step with ⟨answer, m'⟩
    cases answer with
    | error fault =>
      obtain ⟨-, rfl⟩ := step_eq_error_iff.mp hs
      rfl
    | ok i =>
      obtain ⟨word, -, -, he⟩ := step_eq_ok_iff.mp hs
      have hi : ¬ m.Paints i := fun h => hp ⟨i, congrArg Prod.fst hs, h⟩
      have hscreen := screen_of_not_paints he (mt paints_record.mp hi)
      exact hscreen
  | execute i =>
    rw [perform]
    cases he : m.execute i with
    | error fault => rfl
    | ok m' => exact screen_of_not_paints he fun h => hp ⟨⟨m', he⟩, h⟩

/-- A refused action makes no repaint due. -/
theorem not_repaints_of_refused {fault : Fault} (h : (m.perform a).1 = .refused fault) :
    ¬ m.Repaints a := by
  cases a with
  | reset | clearScreen => cases h
  | step =>
    rintro ⟨i, hi, -⟩
    rw [perform, (Prod.ext hi rfl : m.step = (.ok i, m.step.2))] at h
    cases h
  | execute i =>
    rintro ⟨⟨m', he⟩, -⟩
    rw [perform, he] at h
    cases h
  | _ => exact id

/-! ## The mark along a history -/

/-- As long as nobody takes the picture, the mark is raised exactly if it was or something has
repainted. -/
theorem dirty_after {actions : List Action} (ha : .takeFrame ∉ actions) :
    (m.after actions).screen.dirty = true ↔ m.screen.dirty = true ∨ m.RepaintsIn actions := by
  induction actions generalizing m with
  | nil => simp [not_repaintsIn_nil]
  | cons a as ih =>
    simp only [List.mem_cons, not_or] at ha
    obtain ⟨hne, has⟩ := ha
    rw [after_cons, ih has, repaintsIn_cons, ← or_assoc]
    by_cases hp : m.Repaints a
    · simp [dirty_perform hp, hp]
    · rw [screen_perform (Ne.symm hne) hp]
      simp [hp]

/-- From the last time that the picture was taken on, the mark tells of repaints. -/
theorem dirty_after_takeFrame {before since : List Action} (hs : .takeFrame ∉ since) :
    (m.after (before ++ .takeFrame :: since)).screen.dirty = true ↔
      (m.after (before ++ [.takeFrame])).RepaintsIn since := by
  have hlow : (m.after (before ++ [.takeFrame])).screen.dirty = false := by
    rw [after_append]
    rfl
  rw [List.append_cons, after_append, dirty_after hs, hlow]
  simp

/-- The picture is handed out exactly if the mark is up. -/
theorem isSome_takeFrame (m : Machine) : m.takeFrame.1.isSome = m.screen.dirty := by
  by_cases hd : m.screen.dirty = true <;> simp [takeFrame, Framebuffer.takeDirty, hd]

/-! ## The copy of a host -/

/-- A copy of the picture, replaced if a reply holds a picture. -/
def Reply.takeOver (copy : Option (Vector Bool 2048)) : Reply → Option (Vector Bool 2048)
  | .frame (some picture) => some picture
  | _ => copy

/-- The copy of a host that has taken over every picture among the replies. -/
def hostCopy (replies : List Reply) : Option (Vector Bool 2048) :=
  replies.foldl Reply.takeOver none

/-- Unless a repaint is due, the copy is the picture. -/
def Current (m : Machine) (copy : Option (Vector Bool 2048)) : Prop :=
  m.screen.dirty = false → copy = some m.screen.cells

/-- Only `takeFrame` answers a picture. -/
theorem takeOver_perform (ha : a ≠ .takeFrame) (copy : Option (Vector Bool 2048)) :
    Reply.takeOver copy (m.perform a).1 = copy := by
  by_cases htick : a = .tick
  · subst htick
    rfl
  · rcases perform_fst_cases (m := m) htick ha with h | ⟨fault, h⟩ | ⟨i, h⟩ <;> rw [h] <;> rfl

/-- A host that takes over what it is given stays current. -/
theorem Current.perform {copy : Option (Vector Bool 2048)} (h : m.Current copy) :
    (m.perform a).2.Current (Reply.takeOver copy (m.perform a).1) := by
  by_cases ha : a = .takeFrame
  · -- either the picture is handed out now, or the mark was down and the copy is current
    subst ha
    intro _
    by_cases hd : m.screen.dirty = true
    · simp [Machine.perform, takeFrame, Framebuffer.takeDirty, hd, Reply.takeOver]
    · simp only [Bool.not_eq_true] at hd
      simp [Machine.perform, takeFrame, Framebuffer.takeDirty, hd, Reply.takeOver, h hd]
  · rw [takeOver_perform ha]
    intro hd
    by_cases hp : m.Repaints a
    · rw [dirty_perform hp] at hd
      cases hd
    · rw [screen_perform ha hp] at hd ⊢
      exact h hd

/-- So it is current after every history. -/
theorem Current.performAll {copy : Option (Vector Bool 2048)} (h : m.Current copy)
    (actions : List Action) :
    (m.after actions).Current ((m.performAll actions).1.foldl Reply.takeOver copy) := by
  induction actions generalizing m copy with
  | nil => exact h
  | cons a as ih => exact ih h.perform

/-- Whenever the picture is asked for and not handed out, the host holds it already. It is handed
out exactly when it is asked for the first time or something has repainted since the last time. What
is refused repaints nothing, and made in place it leaves the cells and the mark alone. -/
theorem takeFrame_after_fresh (random : RandomSource) (keypad : Keypad) (actions : List Action) :
    let start := fresh random keypad
    let m := start.after actions
    (m.takeFrame.1 = none →
      hostCopy (start.performAll actions).1 = some m.takeFrame.2.screen.cells) ∧
    (m.takeFrame.1.isSome = true ↔ .takeFrame ∉ actions ∨
      ∃ before since, actions = before ++ .takeFrame :: since ∧ .takeFrame ∉ since ∧
        (start.after (before ++ [.takeFrame])).RepaintsIn since) ∧
    ∀ (a : Action) (fault : Fault), a.InRange → (m.perform a).1 = .refused fault →
      ¬ m.Repaints a ∧ (m.perform a).2.screen = m.screen ∧
      ((Procedure.perform a).run m).result = .error fault ∧
      ((Procedure.perform a).run m).machine.screen = m.screen := by
  intro start m
  refine ⟨?_, ?_, ?_⟩
  · intro hnone
    have hd : m.screen.dirty = false := by
      rw [← isSome_takeFrame, hnone]
      rfl
    -- the first picture is due from the start, so at first nothing is asked of the copy
    have hstart : start.Current none := fun h => by cases h
    exact hstart.performAll actions hd
  · rw [isSome_takeFrame]
    constructor
    · intro hd
      by_cases hmem : .takeFrame ∈ actions
      · obtain ⟨before, since, hsplit, hs⟩ := exists_last_occurrence hmem
        refine Or.inr ⟨before, since, hsplit, hs, ?_⟩
        rw [← dirty_after_takeFrame hs, ← hsplit]
        exact hd
      · exact Or.inl hmem
    · rintro (hnot | ⟨before, since, rfl, hs, hp⟩)
      · exact (dirty_after hnot).mpr (Or.inl rfl)
      · exact (dirty_after_takeFrame hs).mpr hp
  · intro a fault ha hrefused
    obtain ⟨word, hword⟩ := perform_of_refused hrefused
    obtain ⟨hresult, word', hword'⟩ := Procedure.perform_of_refused ha hrefused
    refine ⟨not_repaints_of_refused hrefused, ?_, hresult, ?_⟩
    · rw [hword]
      rfl
    · rw [hword']
      rfl

/-- A glyph is drawn and taken over; a sprite without rows then asks for no repaint, and the host
still holds the glyph. A draw past the end of memory is refused and leaves the picture alone. -/
theorem takeFrame_after_fresh_emptySprite :
    let actions := [Action.takeFrame, .execute (.draw 0 0 5), .takeFrame, .execute (.draw 0 0 0)]
    ((fresh (.ofSeed 0) .released).after actions).takeFrame.1 = none ∧
      ∃ picture, hostCopy ((fresh (.ofSeed 0) .released).performAll actions).1 = some picture ∧
        picture[0] = true ∧
      let m := (fresh (.ofSeed 0) .released).after [.execute (.setIndex 0xFFF)]
      ((Procedure.perform (.execute (.draw 0 0 5))).run m).result = .error (.outOfMemory 0x1003) ∧
      ((Procedure.perform (.execute (.draw 0 0 5))).run m).machine.screen = m.screen := by
  intro actions
  have hnone : ((fresh (.ofSeed 0) .released).after actions).takeFrame.1 = none :=
    Option.isNone_iff_eq_none.mp (by decide +kernel)
  have hcopy := (takeFrame_after_fresh (.ofSeed 0) .released actions).1 hnone
  have hrefused : (((fresh (.ofSeed 0) .released).after [.execute (.setIndex 0xFFF)]).perform
      (.execute (.draw 0 0 5))).1 = .refused (.outOfMemory 0x1003) := by
    decide +kernel
  obtain ⟨-, -, hplace⟩ := (takeFrame_after_fresh (.ofSeed 0) .released
    [.execute (.setIndex 0xFFF)]).2.2 _ _ (by simp [Action.InRange, Instruction.InRange]) hrefused
  exact ⟨hnone, _, hcopy, by decide +kernel, hplace⟩

end Machine

end Chip8
