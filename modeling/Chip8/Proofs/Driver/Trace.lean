import Chip8.Proofs.Driver.Attempts
import Chip8.Proofs.Machine.Tone

/-!
# The trace of a driver

A driver does nothing to its machine that its host could not do: an attempt is a step, which may be
followed by a skip, and a frame is the attempts that are made and a tick. What holds of every
history of a machine holds under a driver for this reason, the law of tones among it.

## Shape of the proof

`trace` writes a history of a driver down as one of its machine. It leads to the same machine
(`machine_after`), with the same tones (`tones_trace`), attempt by attempt, frame by frame, and
action by action. A halted driver makes no attempts, so that its frames are ticks.
-/

namespace Chip8.Driver

variable {d : Driver}

/-- What an attempt does to the machine. -/
def attemptTrace (d : Driver) : List Machine.Action :=
  match d.machine.step.1 with
  | .ok _ => [.step]
  | .error fault => if tolerates d.options.onUnknown fault then [.step, .skip] else [.step]

/-- What at most `n` attempts do to the machine. -/
def attemptsTrace : Nat → Driver → List Machine.Action
  | 0, _ => []
  | n + 1, d => if d.halted then [] else d.attemptTrace ++ attemptsTrace n d.attempt

/-- What one action of a history does to the machine. -/
def actionTrace (d : Driver) : Action → List Machine.Action
  | .frame => attemptsTrace d.options.stepsPerTick d ++ [.tick]
  | .host action => [action]

/-- What a history does to the machine. -/
def trace (d : Driver) : List Action → List Machine.Action
  | [] => []
  | a :: as => d.actionTrace a ++ (d.perform a).2.trace as

/-! ## The machine -/

/-- An attempt leads to the machine to which its trace leads. -/
theorem machine_attempt (d : Driver) : d.attempt.machine = d.machine.after d.attemptTrace := by
  rcases hs : d.machine.step with ⟨answer, m⟩
  have hstep : (d.machine.perform .step).2 = m := by rw [Machine.perform_step_snd, hs]
  rw [attempt, attemptTrace, hs]
  cases answer with
  | ok i => exact hstep.symm
  | error fault =>
    by_cases ht : tolerates d.options.onUnknown fault = true
    · simp only [if_pos ht]
      rw [Machine.after_cons, hstep]
      rfl
    · simp only [if_neg ht]
      exact hstep.symm

/-- So do the attempts of a frame, as far as they are made. -/
theorem machine_attempts (n : Nat) (d : Driver) :
    (attempts n d).machine = d.machine.after (attemptsTrace n d) := by
  induction n generalizing d with
  | zero => rfl
  | succ n ih =>
    rw [attempts, attemptsTrace]
    split
    · rfl
    · rw [ih, machine_attempt, Machine.after_append]

/-- A frame ends with its tick, and the host acts on the machine itself. -/
theorem machine_perform (d : Driver) (a : Action) :
    (d.perform a).2.machine = d.machine.after (d.actionTrace a) := by
  cases a with
  | frame =>
    rw [actionTrace, Machine.after_append, ← machine_attempts]
    rfl
  | host action => rfl

/-- Under a driver the machine goes through the trace of the history. -/
theorem machine_after (d : Driver) (actions : List Action) :
    (d.after actions).machine = d.machine.after (d.trace actions) := by
  induction actions generalizing d with
  | nil => rfl
  | cons a as ih => rw [after_cons, ih, trace, Machine.after_append, machine_perform]

/-! ## The tones -/

/-- An attempt does not tick. -/
theorem tick_notMem_attemptTrace (d : Driver) : .tick ∉ d.attemptTrace := by
  rw [attemptTrace]
  split
  · simp
  · split <;> simp

theorem tick_notMem_attemptsTrace (n : Nat) (d : Driver) : .tick ∉ attemptsTrace n d := by
  induction n generalizing d with
  | zero => exact List.not_mem_nil
  | succ n ih =>
    rw [attemptsTrace]
    split
    · exact List.not_mem_nil
    · rw [List.mem_append, not_or]
      exact ⟨tick_notMem_attemptTrace d, ih d.attempt⟩

/-- One tick in a frame, and none but the ticks of the host outside of frames. -/
theorem count_tick_actionTrace (d : Driver) (a : Action) :
    (d.actionTrace a).count .tick = [a].count .frame + [a].count (.host .tick) := by
  cases a with
  | frame =>
    have hnone : (attemptsTrace d.options.stepsPerTick d).count .tick = 0 :=
      List.count_eq_zero.mpr (tick_notMem_attemptsTrace _ _)
    rw [actionTrace, List.count_append, hnone]
    rfl
  | host action => simp [actionTrace, List.count_singleton]

/-- The timers have been counted down once in each frame, and each time the host has done so. -/
theorem count_tick_trace (d : Driver) (actions : List Action) :
    (d.trace actions).count .tick = actions.count .frame + actions.count (.host .tick) := by
  induction actions generalizing d with
  | nil => rfl
  | cons a as ih =>
    have hcons : ∀ b, (a :: as).count b = [a].count b + as.count b := fun b => by
      rw [← List.count_append, List.singleton_append]
    rw [trace, List.count_append, ih, count_tick_actionTrace, hcons, hcons]
    omega

/-- The tone of a frame is the tone of its tick, and no attempt before it answers one. -/
theorem tones_actionTrace (d : Driver) (a : Action) :
    Machine.tones [(d.perform a).1] =
      Machine.tones (d.machine.performAll (d.actionTrace a)).1 := by
  cases a with
  | frame =>
    have hnone := Machine.tones_performAll_of_tick_notMem (m := d.machine)
      (tick_notMem_attemptsTrace d.options.stepsPerTick d)
    rw [actionTrace, Machine.performAll_append_fst, Machine.tones_append, hnone,
      ← machine_attempts]
    rfl
  | host action => rfl

/-- The tones of a history are those of its trace, in the same order. -/
theorem tones_trace (d : Driver) (actions : List Action) :
    Machine.tones (d.performAll actions).1 =
      Machine.tones (d.machine.performAll (d.trace actions)).1 := by
  induction actions generalizing d with
  | nil => rfl
  | cons a as ih =>
    have hsplit : (d.performAll (a :: as)).1 =
        [(d.perform a).1] ++ ((d.perform a).2.performAll as).1 :=
      rfl
    rw [hsplit, Machine.tones_append, tones_actionTrace, ih, trace, Machine.performAll_append_fst,
      Machine.tones_append, machine_perform]

/-- Every history of a machine obeys the law of tones. So does every history of a driver, halted or
not, because its trace leads to the same machine with the same tones, and has one tick for each
frame and for each tick of the host. -/
theorem toneLaw_trace :
    (∀ (m : Machine) (history : List Machine.Action), m.ToneLaw history) ∧
    ∀ (d : Driver) (actions : List Action),
      (d.after actions).machine = d.machine.after (d.trace actions) ∧
      Machine.tones (d.performAll actions).1 =
        Machine.tones (d.machine.performAll (d.trace actions)).1 ∧
      (d.trace actions).count .tick = actions.count .frame + actions.count (.host .tick) :=
  ⟨Machine.toneLaw, fun d actions =>
    ⟨machine_after d actions, tones_trace d actions, count_tick_trace d actions⟩⟩

/-- A driver that is to make three attempts a frame and to halt at an unknown word. -/
def beeper : Driver :=
  start (.fresh (.ofSeed 0) .released)
    { RunOptions.standard with stepsPerTick := 3, onUnknown := .halt }

/-- A program puts 2 into the sound timer and then comes to an unknown word. The tone is heard in
the second of three frames, in which the driver has halted already, and the sound was put into the
timer before. -/
theorem toneLaw_trace_beeper :
    let actions := [Action.host (.load [0x60, 0x02, 0xF0, 0x18, 0x01, 0x23]), .frame, .frame,
      .frame]
    let before := [Machine.Action.load [0x60, 0x02, 0xF0, 0x18, 0x01, 0x23], .step]
    let since := [Machine.Action.step, .tick, .tick, .tick]
    beeper.trace actions = before ++ .step :: since ∧ (beeper.after actions).halted = true ∧
      (beeper.machine.after before).executed? .step = some (.setSound 0) ∧
      Machine.LeavesAlone .sound (beeper.machine.after (before ++ [.step])) since ∧
      Machine.tones (beeper.performAll actions).1 = [false, true, false] ∧
      Machine.OccursIn (Machine.Arms .sound) beeper.machine (before ++ [.step, .step, .tick]) := by
  intro actions before since
  -- one evaluation, in which the parts share their runs
  have heval : (beeper.trace actions = before ++ .step :: since ∧
      (beeper.after actions).halted = true ∧
      (beeper.machine.after before).executed? .step = some (.setSound 0)) ∧
      (beeper.machine.after (before ++ [.step])).executedIn since = [] ∧
      Machine.tones (beeper.machine.performAll before).1 = [] ∧
      (beeper.machine.after before).v 0 = 2 ∧
      ((beeper.machine.after (before ++ [.step, .step, .tick])).perform .tick).1 = .tone true := by
    decide +kernel
  obtain ⟨⟨htrace, hhalted, hsound⟩, hnone, hbefore, hlength, htone⟩ := heval
  have halone : Machine.LeavesAlone .sound (beeper.machine.after (before ++ [.step])) since := by
    refine ⟨by decide, ?_⟩
    rw [hnone]
    exact fun x => List.not_mem_nil
  obtain ⟨hlaw, hdriver⟩ := toneLaw_trace
  obtain ⟨-, htones, -⟩ := hdriver beeper actions
  obtain ⟨harmed, hsounds, -⟩ := hlaw beeper.machine (beeper.trace actions)
  have hlist := hsounds before .step since [] 0 htrace hsound halone
  have hquiet : beeper.machine.Silent [] := .fresh rfl
  have hsecond := harmed [] (before ++ [.step, .step, .tick]) [.tick] htrace hquiet
  rw [List.nil_append] at hsecond
  refine ⟨htrace, hhalted, hsound, halone, ?_, hsecond htone⟩
  rw [htones, hlist, hbefore, hlength]
  rfl

end Chip8.Driver
