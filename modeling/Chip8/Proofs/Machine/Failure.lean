import Chip8.Proofs.Machine.History
import Chip8.Proofs.Machine.InPlace

/-!
# Failed steps

A failed step changes nothing but the word on record, and it goes on failing.

## Shape of the proof

That nothing is changed is no matter of course where the machine is changed in place: each procedure
has to check before its first write, which is what `Procedure.step_agrees` compares. That the
failure lasts follows from what it depends on: `stepFault?` reads neither the timers nor the keypad,
and ticks and key events change nothing else (`SameProgram`).
-/

namespace Chip8.Machine

variable {m m' : Machine} {fault : Fault}

/-- An event that reaches a machine from outside while its program stands still. -/
def Action.IsAmbient : Action → Prop
  | .tick | .press _ | .release _ => True
  | _ => False

/-- Two machines that differ at most in their timers and keypads. -/
def SameProgram (m m' : Machine) : Prop :=
  ∃ delay sound keypad, m' = { m with delay := delay, sound := sound, keypad := keypad }

/-- Events from outside leave the program alone. -/
theorem SameProgram.perform {a : Action} (ha : a.IsAmbient) (h : SameProgram m m') :
    SameProgram m (m'.perform a).2 := by
  obtain ⟨delay, sound, keypad, rfl⟩ := h
  cases a with
  | tick => exact ⟨_, _, _, rfl⟩
  | press | release => exact ⟨delay, sound, _, perform_of_keyEvent? rfl⟩
  | _ => exact absurd ha id

/-- Ticks and key events, however many, leave a machine with the same program. -/
theorem sameProgram_after {actions : List Action} (ha : ∀ a ∈ actions, a.IsAmbient) :
    SameProgram m (m.after actions) :=
  after_preserves (P := SameProgram m) (fun a h _ => SameProgram.perform (ha a h))
    ⟨m.delay, m.sound, m.keypad, rfl⟩

/-- The same program fails for the same reason. -/
theorem SameProgram.stepFault?_eq (h : SameProgram m m') : m'.stepFault? = m.stepFault? := by
  obtain ⟨delay, sound, keypad, rfl⟩ := h
  have hr : ∀ i, { m with delay := delay, sound := sound, keypad := keypad }.refusal? i =
      m.refusal? i := fun i => by cases i <;> rfl
  simp only [stepFault?, hr]
  rfl

/-- What is on record stays on record as long as the program stands still. -/
theorem SameProgram.record_lastWord (h : SameProgram (m.record m.lastWord) m') :
    m'.record m'.lastWord = m' := by
  obtain ⟨delay, sound, keypad, rfl⟩ := h
  -- the fetch sees the same word, and where it sees none it falls back on what is on record
  have hw : { m.record m.lastWord with
      delay := delay, sound := sound, keypad := keypad }.lastWord = m.lastWord := by
    have hfetch : { m.record m.lastWord with
        delay := delay, sound := sound, keypad := keypad }.fetch = m.fetch := rfl
    cases hf : m.fetch with
    | ok word => exact (lastWord_of_ok (hfetch.trans hf)).trans (lastWord_of_ok hf).symm
    | error fault => exact lastWord_of_error (hfetch.trans hf)
  rw [hw]
  rfl

/-- A failed step leaves the machine as it was but for the word on record, also when it is made in
place. After any further ticks and key events the next step fails for the same reason and changes
nothing. -/
theorem step_error_frame_stable (h : m.step = (.error fault, m')) :
    m' = { m with opcode := match m.fetch with
      | .ok word => word
      | .error _ => m.opcode } ∧
    (Procedure.step.run m).result = .error fault ∧ (Procedure.step.run m).machine = m' ∧
    ∀ actions : List Action, (∀ a ∈ actions, a.IsAmbient) →
      (m'.performAll actions).2.step = (.error fault, (m'.performAll actions).2) := by
  obtain ⟨hr, hm⟩ := Procedure.step_agrees m
  rw [h] at hr hm
  obtain ⟨hf, rfl⟩ := step_eq_error_iff.mp h
  refine ⟨rfl, hr, hm, ?_⟩
  intro actions ha
  have hs : SameProgram (m.record m.lastWord) ((m.record m.lastWord).after actions) :=
    sameProgram_after ha
  have hrec : (m.record m.lastWord).stepFault? = m.stepFault? := by
    simp only [stepFault?, refusal?_record]
    rfl
  refine step_eq_error_iff.mpr ⟨?_, hs.record_lastWord.symm⟩
  rw [← hf, ← hrec]
  exact hs.stepFault?_eq

/-- A machine whose program begins with a return. -/
def emptyStack : Machine :=
  { ofSeed 0 with memory := Memory.zero.write 0x200 [0x00, 0xEE] }

/-- A return without a call is refused again and again, whatever happens to the keys. -/
theorem step_error_frame_stable_emptyStack :
    emptyStack.step = (.error (.stackUnderflow 0x200), emptyStack.step.2) ∧
      (∀ a ∈ [Action.tick, .press 3, .release 3, .tick], a.IsAmbient) ∧
      emptyStack.fetch = .ok 0x00EE ∧ emptyStack.step.2 = { emptyStack with opcode := 0x00EE } ∧
      (emptyStack.step.2.performAll [.tick, .press 3, .release 3, .tick]).2.step =
        (.error (.stackUnderflow 0x200),
          (emptyStack.step.2.performAll [.tick, .press 3, .release 3, .tick]).2) := by
  have hs : emptyStack.step = (.error (.stackUnderflow 0x200), emptyStack.step.2) := by
    have hr : emptyStack.step.1 = .error (.stackUnderflow 0x200) := by decide +kernel
    rw [← hr]
  have ha : ∀ a ∈ [Action.tick, .press 3, .release 3, .tick], a.IsAmbient := by
    simp [Action.IsAmbient]
  have hf : emptyStack.fetch = .ok 0x00EE := by decide +kernel
  obtain ⟨hm, -, -, hstable⟩ := step_error_frame_stable hs
  rw [hf] at hm
  exact ⟨hs, ha, hf, hm, hstable _ ha⟩

end Chip8.Machine
