import Chip8.Machine.Action
import Chip8.RunOptions

/-!
# The driver

Runs a machine frame by frame. A frame is a number of steps and then one tick of the timers.

## Shape of a frame

`attempt` is one try at a step: it goes on, steps over a word that is no instruction, or halts.
`attempts` repeats it until the count is used up or the driver has halted, and `frame` adds the
tick, which also a halted driver makes. Between frames the host may act on the machine; `performAll`
plays such a history.
-/

namespace Chip8

/-- A machine on its way through a program. -/
structure Driver where
  machine : Machine
  options : RunOptions
  /-- Whether the program was stopped by a fault. -/
  halted : Bool
deriving DecidableEq

namespace Driver

/-- A driver about to start. -/
def start (machine : Machine) (options : RunOptions) : Driver :=
  ⟨machine, options, false⟩

/-- Whether a fault is stepped over and not stopped at. -/
def tolerates (policy : UnknownPolicy) : Fault → Bool
  | .unknownOpcode _ _ => policy == .skip
  | _ => false

/-- One step, and what its fault leads to. -/
def attempt (d : Driver) : Driver :=
  match d.machine.step with
  | (.ok _, m) => { d with machine := m }
  | (.error fault, m) =>
    if tolerates d.options.onUnknown fault then
      { d with machine := m.skip }
    else
      { d with machine := m, halted := true }

/-- At most `n` steps, none of them once the driver has halted. -/
def attempts : Nat → Driver → Driver
  | 0, d => d
  | n + 1, d => if d.halted then d else attempts n d.attempt

/-- The timers counted down, and whether a tone sounds. -/
def tick (d : Driver) : Bool × Driver :=
  let (tone, machine) := d.machine.tick
  (tone, { d with machine := machine })

/-- The steps of one tick and the tick: whether a tone sounds, and the driver after it. -/
def frame (d : Driver) : Bool × Driver :=
  (attempts d.options.stepsPerTick d).tick

/-- A number of frames one after the other: their tones and the driver after the last. -/
def frames : Nat → Driver → List Bool × Driver
  | 0, d => ([], d)
  | n + 1, d =>
    let (tone, d) := d.frame
    let (tones, d) := frames n d
    (tone :: tones, d)

/-- One operation of a host on a driver. -/
inductive Action where
  | frame
  /-- An operation on the machine of the driver. -/
  | host (action : Machine.Action)
deriving DecidableEq

/-- The reply of an action and the driver after it. -/
def perform (d : Driver) : Action → Machine.Reply × Driver
  | .frame => let (tone, d) := d.frame; (.tone tone, d)
  | .host action =>
    let (reply, machine) := d.machine.perform action
    (reply, { d with machine := machine })

/-- The replies of a list of actions, one after the other, and the driver after the last. -/
def performAll (d : Driver) : List Action → List Machine.Reply × Driver
  | [] => ([], d)
  | a :: as =>
    let (reply, d) := d.perform a
    let (replies, d) := d.performAll as
    (reply :: replies, d)

end Driver

end Chip8
