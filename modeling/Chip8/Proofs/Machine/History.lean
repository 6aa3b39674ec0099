import Chip8.Machine.Action
import Chip8.Proofs.Keypad.Events

/-!
# Histories of a machine

`after` is the machine that a list of actions leads to. Claims about all histories are proved action
by action: what every action of a list preserves, the list preserves (`after_preserves`).

`OccursIn P m actions` says that somewhere in a history an action has a property `P` of the machine
that it finds. A history is taken apart at the first action (`occursIn_cons`) or at the last
occurrence (`OccursIn.exists_last`). `Throughout P m actions` says that every action has it.
-/

namespace Chip8.Machine

variable {m : Machine}

/-- The machine after a list of actions. -/
def after (m : Machine) (actions : List Action) : Machine :=
  (m.performAll actions).2

@[simp] theorem after_nil (m : Machine) : m.after [] = m := rfl

@[simp] theorem after_cons (m : Machine) (a : Action) (as : List Action) :
    m.after (a :: as) = (m.perform a).2.after as := rfl

/-- A history leads from where an earlier part of it has led. -/
theorem after_append (m : Machine) (first second : List Action) :
    m.after (first ++ second) = (m.after first).after second := by
  induction first generalizing m with
  | nil => rfl
  | cons a as ih => exact ih (m.perform a).2

/-- The last action finds the machine that the others have led to. -/
theorem after_concat (m : Machine) (before : List Action) (a : Action) :
    m.after (before ++ [a]) = ((m.after before).perform a).2 :=
  after_append m before [a]

/-- The replies of two parts of a history, one after the other. -/
theorem performAll_append_fst (m : Machine) (first second : List Action) :
    (m.performAll (first ++ second)).1 =
      (m.performAll first).1 ++ ((m.after first).performAll second).1 := by
  induction first generalizing m with
  | nil => rfl
  | cons a as ih => exact congrArg (List.cons _) (ih (m.perform a).2)

/-- What every action of a list preserves holds after the list. -/
theorem after_preserves {P : Machine → Prop} {actions : List Action}
    (step : ∀ a ∈ actions, ∀ m, P m → P (m.perform a).2) (h : P m) : P (m.after actions) := by
  induction actions generalizing m with
  | nil => exact h
  | cons a as ih =>
    exact ih (fun b hb => step b (List.mem_cons_of_mem a hb)) (step a List.mem_cons_self m h)

/-! ## Occurrences -/

/-- Some action of a history has a property of the machine that it finds. -/
def OccursIn (P : Machine → Action → Prop) (m : Machine) (actions : List Action) : Prop :=
  ∃ before a rest, actions = before ++ a :: rest ∧ P (m.after before) a

section

variable {P : Machine → Action → Prop} {a : Action} {as : List Action}

theorem not_occursIn_nil (P : Machine → Action → Prop) (m : Machine) : ¬ OccursIn P m [] := by
  rintro ⟨before, a, rest, h, -⟩
  simp at h

/-- Something occurs at the first action or later. -/
theorem occursIn_cons : OccursIn P m (a :: as) ↔ P m a ∨ OccursIn P (m.perform a).2 as := by
  constructor
  · rintro ⟨_ | ⟨b, before⟩, c, rest, h, hc⟩
    · obtain ⟨rfl, -⟩ := List.cons.inj h
      exact Or.inl hc
    · obtain ⟨rfl, has⟩ := List.cons.inj h
      exact Or.inr ⟨before, c, rest, has, hc⟩
  · rintro (h | ⟨before, c, rest, rfl, hc⟩)
    · exact ⟨[], a, as, rfl, h⟩
    · exact ⟨a :: before, c, rest, rfl, hc⟩

/-- What occurs at all occurs a last time. -/
theorem OccursIn.exists_last (h : OccursIn P m as) :
    ∃ before a rest, as = before ++ a :: rest ∧ P (m.after before) a ∧
      ¬ OccursIn P (m.after (before ++ [a])) rest := by
  induction as generalizing m with
  | nil => exact absurd h (not_occursIn_nil P m)
  | cons a as ih =>
    by_cases hrest : OccursIn P (m.perform a).2 as
    · obtain ⟨before, b, rest, rfl, hb, hlast⟩ := ih hrest
      exact ⟨a :: before, b, rest, rfl, hb, hlast⟩
    · exact ⟨[], a, as, rfl, (occursIn_cons.mp h).resolve_right hrest, hrest⟩

/-- Every action of a history has a property of the machine that it finds. -/
def Throughout (P : Machine → Action → Prop) (m : Machine) (actions : List Action) : Prop :=
  ∀ before a rest, actions = before ++ a :: rest → P (m.after before) a

theorem throughout_nil (P : Machine → Action → Prop) (m : Machine) : Throughout P m [] := by
  rintro before a rest h
  simp at h

/-- A property of every action is one of the first action and of all later ones. -/
theorem throughout_cons :
    Throughout P m (a :: as) ↔ P m a ∧ Throughout P (m.perform a).2 as := by
  constructor
  · intro h
    refine ⟨h [] a as rfl, fun before b rest has => ?_⟩
    exact h (a :: before) b rest (congrArg (List.cons a) has)
  · rintro ⟨hfirst, hrest⟩ (_ | ⟨b, before⟩) c rest h
    · obtain ⟨rfl, -⟩ := List.cons.inj h
      exact hfirst
    · obtain ⟨rfl, has⟩ := List.cons.inj h
      exact hrest before c rest has

/-- A history is cut in two, and the second part finds the machine that the first one leads to. -/
theorem throughout_append {bs : List Action} :
    Throughout P m (as ++ bs) ↔ Throughout P m as ∧ Throughout P (m.after as) bs := by
  induction as generalizing m with
  | nil => exact (and_iff_right (throughout_nil P m)).symm
  | cons a as ih =>
    rw [List.cons_append, throughout_cons, throughout_cons, ih, and_assoc, after_cons]

end

/-! ## What the host changes -/

/-- The key event that an action is, if it is one. -/
def Action.keyEvent? : Action → Option KeyEvent
  | .press key => some (.press key)
  | .release key => some (.release key)
  | _ => none

/-- A key event does to the machine what it does to the keypad by itself. -/
theorem perform_of_keyEvent? {a : Action} {e : KeyEvent} (h : a.keyEvent? = some e) :
    (m.perform a).2 = { m with keypad := m.keypad.orUnchanged (e.apply m.keypad) } := by
  cases a <;> cases h
  case press key =>
    simp only [perform, press, KeyEvent.apply]
    cases m.keypad.press key <;> rfl
  case release key =>
    simp only [perform, release, KeyEvent.apply]
    cases m.keypad.release key <;> rfl

/-- A load concerns nothing but memory, whether it is refused or not. -/
theorem perform_load (m : Machine) (image : List UInt8) :
    ∃ memory, (m.perform (.load image)).2 = { m with memory := memory } := by
  simp only [perform, load]
  cases m.memory.load image with
  | error fault => exact ⟨m.memory, rfl⟩
  | ok memory => exact ⟨memory, rfl⟩

/-- As an action, a step leads to the machine that it leads to by itself. -/
theorem perform_step_snd (m : Machine) : (m.perform .step).2 = m.step.2 := by
  simp only [perform]
  split
  next h => rw [h]
  next h => rw [h]

/-! ## Replies -/

/-- Ticks and requests for the picture apart, a reply says how an action went and no more. -/
theorem perform_fst_cases {a : Action} (htick : a ≠ .tick) (hframe : a ≠ .takeFrame) :
    (m.perform a).1 = .done ∨ (∃ fault, (m.perform a).1 = .refused fault) ∨
      ∃ i, (m.perform a).1 = .executed i := by
  have settled : ∀ outcome, (m.settle outcome).1 = .done ∨
      (∃ fault, (m.settle outcome).1 = .refused fault) ∨
        ∃ i, (m.settle outcome).1 = .executed i := by
    rintro (fault | m')
    · exact Or.inr (Or.inl ⟨fault, rfl⟩)
    · exact Or.inl rfl
  cases a with
  | tick => exact absurd rfl htick
  | takeFrame => exact absurd rfl hframe
  | reset | skip | clearScreen => exact Or.inl rfl
  | load | execute | press | release => exact settled _
  | step =>
    rw [perform]
    split
    · exact Or.inr (Or.inr ⟨_, rfl⟩)
    · exact Or.inr (Or.inl ⟨_, rfl⟩)

end Chip8.Machine
