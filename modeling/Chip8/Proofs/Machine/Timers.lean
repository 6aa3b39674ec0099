import Chip8.Proofs.Machine.Periphery

/-!
# Where the timers matter

The timers are written by two instructions and read by one. As long as that one is not executed, the
rest of the machine goes on as if they were not there.

## Shape of the proof

`untimed` puts both timers to zero. Two machines are equal without their timers if they are linked
by equal keys and an equal random source (`linked_iff_untimed`). Every instruction but a read of the
delay timer respects this link, and so does every step that makes no such read
(`step_congr_untimed`). Whether a step makes one does not depend on the timers either.
-/

namespace Chip8

/-- The peripheries differ at most in their timers. -/
def Periphery.AgreeButTimers (p p' : Periphery) : Prop :=
  p'.keypad = p.keypad ∧ p'.random = p.random

namespace Machine

variable {m m' : Machine} {i : Instruction}

/-- The machine with both timers at zero. -/
def untimed (m : Machine) : Machine :=
  { m with delay := 0, sound := 0 }

/-- Without its timers a machine is all of its other parts. -/
theorem untimed_eq_iff :
    m.untimed = m'.untimed ↔ m' = { m with delay := m'.delay, sound := m'.sound } := by
  constructor
  · intro h
    have hm : m' = { m'.untimed with delay := m'.delay, sound := m'.sound } := rfl
    rw [← h] at hm
    exact hm
  · intro h
    rw [h]
    rfl

theorem untimed_skip (h : m.untimed = m'.untimed) : m.skip.untimed = m'.skip.untimed :=
  congrArg skip h

/-- To agree on all but the timers is to be the same without them. -/
theorem linked_iff_untimed :
    Linked Periphery.AgreeButTimers m m' ↔ m.untimed = m'.untimed := by
  rw [untimed_eq_iff]
  constructor
  · rintro ⟨heq, hkeypad, hrandom⟩
    rw [heq, withPeriphery, hkeypad, hrandom]
    rfl
  · intro h
    rw [h]
    exact ⟨rfl, rfl, rfl⟩

/-- No instruction but a read of the delay timer depends on the timers. -/
theorem respects_of_ne_getDelay (hi : ∀ x, i ≠ .getDelay x) :
    Respects Periphery.AgreeButTimers i := by
  by_cases hp : i.IsPeripheral
  · intro m m' h
    rw [untimed_eq_iff.mp (linked_iff_untimed.mp h)]
    cases i
    case getDelay x => exact absurd rfl (hi x)
    case waitKey x =>
      rw [execute, execute]
      cases m.keypad.firstPressed? <;> exact .done ⟨rfl, rfl, rfl⟩
    case random | skipKey | skipNotKey | setDelay | setSound => exact .done ⟨rfl, rfl, rfl⟩
    all_goals exact absurd hp id
  · exact respects_of_not_isPeripheral hp

/-- The next step executes a read of the delay timer. -/
def ReadsDelay (m : Machine) : Prop :=
  ∃ x, m.step.1 = .ok (.getDelay x)

/-- Whether the delay timer is about to be read does not depend on the timers. -/
theorem readsDelay_congr (h : m.untimed = m'.untimed) : m.ReadsDelay ↔ m'.ReadsDelay := by
  have hfetch : m'.fetch = m.fetch := by
    rw [untimed_eq_iff.mp h]
    rfl
  have hread : ∀ x, (Instruction.getDelay x).IsPeripheral := fun _ => trivial
  simp only [ReadsDelay, step_fst_eq_ok_iff (hread _), hfetch]

/-- Machines that are equal without their timers step alike, unless they read the delay timer. -/
theorem step_congr_untimed (h : m.untimed = m'.untimed) (hi : ¬ m.ReadsDelay) :
    m'.step.1 = m.step.1 ∧ m'.step.2.untimed = m.step.2.untimed := by
  have hne : ∀ i, m.step.1 = .ok i → ∀ x, i ≠ .getDelay x := by
    rintro i hs x rfl
    exact hi ⟨x, hs⟩
  obtain ⟨hanswer, hlinked⟩ := (linked_iff_untimed.mpr h).step fun i hs _ =>
    respects_of_ne_getDelay (hne i hs)
  exact ⟨hanswer, (linked_iff_untimed.mp hlinked).symm⟩

end Machine

end Chip8
