import Chip8.Proofs.Driver.Attempts
import Chip8.Proofs.Machine.Limits

/-!
# How far a driven machine gets

Whatever a driver and its host do, in whatever order, the machine stays within the bounds of
`Machine.Bounded`, and so within the limits of its arrays and numbers.
-/

namespace Chip8.Driver

variable {d e : Driver}

/-- An attempt keeps within the bounds, also where it steps over a word. -/
theorem Attempted.bounded (h : Attempted d e) (hd : d.machine.Bounded) : e.machine.Bounded := by
  cases h with
  | made step =>
    have hstep := hd.step
    rw [step] at hstep
    exact hstep
  | passed step _ =>
    have hskip := hd.skip step
    rw [Machine.step_of_facesUnknown (Machine.step_eq_unknownOpcode_iff.mp step).1] at hskip
    exact hskip
  | stopped _ => exact hd.congr rfl rfl

/-- An attempt, however it goes, keeps within the bounds. -/
theorem bounded_attempt (h : d.machine.Bounded) : d.attempt.machine.Bounded :=
  (attempted_attempt d).bounded h

theorem bounded_attempts (n : Nat) (h : d.machine.Bounded) : (attempts n d).machine.Bounded := by
  induction n generalizing d with
  | zero => exact h
  | succ n ih =>
    rw [attempts]
    split
    next => exact h
    next => exact ih (bounded_attempt h)

/-- The tick of a frame concerns neither the program counter nor the stack. -/
theorem bounded_frame (h : d.machine.Bounded) : d.frame.2.machine.Bounded :=
  (bounded_attempts d.options.stepsPerTick h).congr rfl rfl

/-- A frame, or an action of the host between two frames. -/
def Action.IsOrdinary : Action → Prop
  | .frame => True
  | .host action => action.IsHosting

/-- No ordinary action leads out of the bounds. -/
theorem bounded_perform {a : Action} (ha : a.IsOrdinary) (h : d.machine.Bounded) :
    (d.perform a).2.machine.Bounded := by
  cases a with
  | frame => exact bounded_frame h
  | host action => exact Machine.Bounded.perform ha h

/-- A whole history keeps within the bounds. -/
theorem bounded_performAll {actions : List Action} (ha : ∀ a ∈ actions, a.IsOrdinary)
    (h : d.machine.Bounded) : (d.performAll actions).2.machine.Bounded := by
  induction actions generalizing d with
  | nil => exact h
  | cons a as ih =>
    exact ih (fun b hb => ha b (List.mem_cons_of_mem a hb))
      (bounded_perform (ha a List.mem_cons_self) h)

/-! ## Limits -/

/-- The return stack is at most sixteen deep, no return address in use is past `0xFFE`, and the
program counter is not past `0x10FE`. The next attempt at a step and the next action of the host,
made in place, keep within the limits of all arrays and numbers and do what they are to do. -/
structure WithinLimits (d : Driver) : Prop where
  depth_le : d.machine.stack.depth ≤ 16
  slot_le : ∀ j < d.machine.stack.depth, ∃ address : UInt16,
    d.machine.stack.slots[j]? = some address ∧ address.toNat ≤ 0xFFE
  pc_le : d.machine.pc.toNat ≤ 0x10FE
  attempt_fits : ∀ access ∈ ((Procedure.attempt d.options.onUnknown).run d.machine).accesses,
    access.Fits
  attempt_agrees : ∃ halts,
    ((Procedure.attempt d.options.onUnknown).run d.machine).result = .ok halts ∧
    d.attempt = { d with
      machine := ((Procedure.attempt d.options.onUnknown).run d.machine).machine
      halted := d.halted || halts }
  perform_fits : ∀ action : Machine.Action, action.IsHosting →
    ∀ access ∈ ((Procedure.perform action).run d.machine).accesses, access.Fits
  perform_agrees : ∀ action : Machine.Action, action.IsHosting →
    ((Procedure.perform action).run d.machine).Agrees (d.machine.perform action)

/-- The bounds are all that the limits ask for. -/
theorem withinLimits_of_bounded (h : d.machine.Bounded) : d.WithinLimits where
  depth_le := d.machine.stack.depth_le
  slot_le j hj := by
    have hlt : j < 16 := Nat.lt_of_lt_of_le hj d.machine.stack.depth_le
    have hslot : d.machine.stack.slots[j]? = some d.machine.stack.slots[j] :=
      Vector.getElem?_eq_getElem hlt
    exact ⟨_, hslot, h.slot_le j hj _ hslot⟩
  pc_le := h.pc_le
  attempt_fits := (Procedure.attempt_safe d.options.onUnknown h).fits
  attempt_agrees := Procedure.attempt_agrees d
  perform_fits _ ha := (Procedure.perform_safe ha d.machine).fits
  perform_agrees _ ha := Procedure.perform_agrees ha.inRange d.machine

/-- At any point of any history, also in the middle of a frame, the driver is within its limits. -/
theorem attempts_withinLimits (random : RandomSource) (keypad : Keypad) (options : RunOptions)
    (actions : List Action) (ha : ∀ a ∈ actions, a.IsOrdinary) (k : Nat) :
    (attempts k ((start (.fresh random keypad) options).performAll actions).2).WithinLimits := by
  have hfresh : (start (.fresh random keypad) options).machine.Bounded :=
    Machine.bounded_of_empty rfl rfl
  exact withinLimits_of_bounded (bounded_attempts k (bounded_performAll ha hfresh))

/-- A program that jumps as far as possible, after one frame and a key event. -/
def farJump : Driver :=
  ((start (.fresh (.ofSeed 0) .released) .standard).performAll
    [.host (.load [0x60, 0xFF, 0xBF, 0xFF]), .frame, .host (.press 3)]).2

/-- The farthest jump leads right to the bound. -/
theorem attempts_withinLimits_farJump :
    (attempts 1 farJump).machine.pc = 0x10FE ∧ (attempts 1 farJump).WithinLimits := by
  have ha : ∀ a ∈ [Action.host (.load [0x60, 0xFF, 0xBF, 0xFF]), .frame, .host (.press 3)],
      a.IsOrdinary := by
    simp [Action.IsOrdinary, Machine.Action.IsHosting]
  refine ⟨by decide +kernel, ?_⟩
  exact attempts_withinLimits (.ofSeed 0) .released .standard _ ha 1

end Chip8.Driver
