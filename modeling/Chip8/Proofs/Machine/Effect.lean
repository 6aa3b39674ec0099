import Chip8.Proofs.Machine.History
import Chip8.Proofs.Machine.Step

/-!
# What an action does

An action executes an instruction, is refused, or is one of the operations of the host, each of
which changes a single part of the machine. `Effect` lists these ways, and `effect_perform` says
that there are no others. What holds along every history is proved by cases on the effect, so that
`perform` and `step` are not opened again.
-/

namespace Chip8.Machine

variable {m m' : Machine} {a : Action} {i : Instruction}

/-! ## Executed instructions -/

/-- The instruction that an action executes, if it comes to that: the one that a step arrives at, or
one that is executed by itself. -/
def executed? (m : Machine) : Action → Option Instruction
  | .step => m.step.1.toOption
  | .execute i => (m.execute i).toOption.map fun _ => i
  | _ => none

/-- The instructions that a history executes, in order. -/
def executedIn (m : Machine) : List Action → List Instruction
  | [] => []
  | a :: as => (m.executed? a).toList ++ (m.perform a).2.executedIn as

/-- A step that is made executes the instruction that it answers. -/
theorem executed?_step_of_ok (h : m.step = (.ok i, m')) : m.executed? .step = some i := by
  rw [executed?, h]
  rfl

/-- An instruction that is not refused is executed. -/
theorem executed?_execute_of_ok (h : m.execute i = .ok m') : m.executed? (.execute i) = some i := by
  rw [executed?, h]
  rfl

/-- There are only these two ways for an instruction to be executed. -/
theorem executed?_eq_some (h : m.executed? a = some i) :
    (a = .step ∧ m.step = (.ok i, m.step.2)) ∨ (a = .execute i ∧ ∃ m', m.execute i = .ok m') := by
  cases a with
  | step =>
    rcases hs : m.step with ⟨answer, m'⟩
    rw [executed?, hs] at h
    cases answer with
    | error fault => cases h
    | ok j =>
      cases h
      exact Or.inl ⟨rfl, rfl⟩
  | execute j =>
    cases he : m.execute j with
    | error fault =>
      rw [executed?, he] at h
      cases h
    | ok m' =>
      rw [executed?_execute_of_ok he] at h
      cases h
      exact Or.inr ⟨rfl, m', he⟩
  | _ => cases h

/-- The machine after an executed instruction is what the instruction makes of it. A step has put
its word on record before. -/
theorem execute_of_executed? (h : m.executed? a = some i) :
    ∃ word, (m.record word).execute i = .ok (m.perform a).2 := by
  rcases executed?_eq_some h with ⟨rfl, hs⟩ | ⟨rfl, m', he⟩
  · obtain ⟨word, -, -, he⟩ := step_eq_ok_iff.mp hs
    exact ⟨word, perform_step_snd m ▸ he⟩
  · refine ⟨m.opcode, ?_⟩
    rw [perform, he]
    exact he

/-- An action that executes an instruction by itself names one whose operands a word can hold. -/
def Action.InRange : Action → Prop
  | .execute i => i.InRange
  | _ => True

/-- What is executed has operands in their range. -/
theorem inRange_of_executed? (ha : a.InRange) (h : m.executed? a = some i) : i.InRange := by
  rcases executed?_eq_some h with ⟨rfl, hs⟩ | ⟨rfl, -⟩
  · obtain ⟨word, -, hd, -⟩ := step_eq_ok_iff.mp hs
    exact Instruction.inRange_of_decode? hd
  · exact ha

/-! ## Effects -/

/-- The key events. -/
def Action.MovesKey : Action → Prop
  | .press _ | .release _ => True
  | _ => False

/-- What an action makes of a machine. -/
inductive Effect (m : Machine) : Action → Machine → Prop where
  /-- An instruction is executed. -/
  | executed {a : Action} {i : Instruction} {m' : Machine} (word : UInt16)
      (executed_eq : m.executed? a = some i) (execute_eq : (m.record word).execute i = .ok m') :
      Effect m a m'
  /-- The action is refused. A step may have put a word on record all the same. -/
  | refused {a : Action} {fault : Fault} (word : UInt16)
      (reply_eq : (m.perform a).1 = .refused fault) : Effect m a (m.record word)
  | loaded {image : List UInt8} (length_le : image.length ≤ 3584) :
      Effect m (.load image) { m with memory := m.memory.write 0x200 image }
  | reset : Effect m .reset m.reset
  | skipped : Effect m .skip m.skip
  | ticked : Effect m .tick m.tick.2
  | cleared : Effect m .clearScreen m.clearScreen
  | taken : Effect m .takeFrame m.takeFrame.2
  | keyed {a : Action} {keypad : Keypad} (moves : a.MovesKey) :
      Effect m a { m with keypad := keypad }

/-- An image that fits is stored at the start of the program area. -/
theorem load_of_le {image : List UInt8} (h : image.length ≤ 3584) :
    m.load image = .ok { m with memory := m.memory.write 0x200 image } := by
  have hm : m.memory.load image = .ok (m.memory.write 0x200 image) := if_neg (Nat.not_lt.mpr h)
  rw [load, hm]
  rfl

/-- One that does not fit is refused by the address of its last byte. -/
theorem load_of_lt {image : List UInt8} (h : 3584 < image.length) :
    m.load image = .error (.outOfMemory (0x200 + image.length - 1)) := by
  have hm : m.memory.load image = .error (.outOfMemory (0x200 + image.length - 1)) := if_pos h
  rw [load, hm]
  rfl

/-- Every action has one of these effects. -/
theorem effect_perform (m : Machine) (a : Action) : Effect m a (m.perform a).2 := by
  cases a with
  | load image =>
    by_cases h : image.length ≤ 3584
    · rw [perform, load_of_le h]
      exact .loaded h
    · have hm : m.perform (.load image) =
          (.refused (.outOfMemory (0x200 + image.length - 1)), m) := by
        rw [perform, load_of_lt (Nat.not_le.mp h)]
        rfl
      rw [hm]
      exact .refused m.opcode (congrArg Prod.fst hm)
  | reset => exact .reset
  | step =>
    rcases hs : m.step with ⟨answer, m'⟩
    have hm : (m.perform .step).2 = m' := by rw [perform_step_snd, hs]
    rw [hm]
    cases answer with
    | ok i =>
      obtain ⟨word, -, -, he⟩ := step_eq_ok_iff.mp hs
      exact .executed word (executed?_step_of_ok hs) he
    | error fault =>
      obtain ⟨-, rfl⟩ := step_eq_error_iff.mp hs
      have hr : (m.perform .step).1 = .refused fault := by rw [perform, hs]
      exact .refused _ hr
  | execute i =>
    cases he : m.execute i with
    | ok m' =>
      have hm : (m.perform (.execute i)).2 = m' := by
        rw [perform, he]
        rfl
      rw [hm]
      exact .executed m.opcode (executed?_execute_of_ok he) he
    | error fault =>
      have hm : m.perform (.execute i) = (.refused fault, m) := by
        rw [perform, he]
        rfl
      rw [hm]
      exact .refused m.opcode (congrArg Prod.fst hm)
  | skip => exact .skipped
  | tick => exact .ticked
  | clearScreen => exact .cleared
  | takeFrame => exact .taken
  | press | release =>
    rw [perform_of_keyEvent? rfl]
    exact .keyed trivial

/-- A refused action leaves everything but the word on record as it was. -/
theorem perform_of_refused {fault : Fault} (h : (m.perform a).1 = .refused fault) :
    ∃ word, (m.perform a).2 = m.record word := by
  have settled : ∀ outcome, (m.settle outcome).1 = .refused fault →
      ∃ word, (m.settle outcome).2 = m.record word := by
    rintro (_ | _) houtcome
    · exact ⟨m.opcode, rfl⟩
    · cases houtcome
  cases a with
  | load | execute | press | release => exact settled _ h
  | step =>
    rcases hs : m.step with ⟨answer, m'⟩
    rw [perform, hs] at h
    cases answer with
    | ok i => cases h
    | error =>
      obtain ⟨-, rfl⟩ := step_eq_error_iff.mp hs
      exact ⟨m.lastWord, by rw [perform_step_snd, hs]⟩
  | _ => cases h

end Chip8.Machine
