import Chip8.Machine.Execute

/-!
# Actions

Everything that a host can do to a machine, as data. A history of a machine is a list of actions,
and `Machine.performAll` plays it.

## Shape of a history

`perform` answers the reply of one action and the machine after it. A refused action leaves the
machine as it was; only `step` may still have changed the remembered opcode.
-/

namespace Chip8

/-- One operation of a host on a machine. -/
inductive Machine.Action where
  | load (image : List UInt8)
  | reset
  | step
  | execute (instruction : Instruction)
  | skip
  | tick
  | clearScreen
  | takeFrame
  | press (key : UInt8)
  | release (key : UInt8)
deriving DecidableEq

/-- What an action answers. -/
inductive Machine.Reply where
  /-- Done, with nothing to report. -/
  | done
  | refused (fault : Fault)
  /-- The instruction that a step has executed. -/
  | executed (instruction : Instruction)
  /-- Whether a tick let the sound timer run out. -/
  | tone (sounds : Bool)
  /-- The picture, if it may have changed. -/
  | frame (picture : Option (Vector Bool 2048))
deriving DecidableEq

namespace Machine

/-- The reply of an operation that can be refused, and the machine after it. -/
def settle (m : Machine) : Except Fault Machine → Reply × Machine
  | .ok m' => (.done, m')
  | .error fault => (.refused fault, m)

/-- The reply of an action and the machine after it. -/
def perform (m : Machine) : Action → Reply × Machine
  | .load image => m.settle (m.load image)
  | .reset => (.done, m.reset)
  | .step =>
    match m.step with
    | (.ok instruction, m) => (.executed instruction, m)
    | (.error fault, m) => (.refused fault, m)
  | .execute instruction => m.settle (m.execute instruction)
  | .skip => (.done, m.skip)
  | .tick => let (tone, m) := m.tick; (.tone tone, m)
  | .clearScreen => (.done, m.clearScreen)
  | .takeFrame => let (picture, m) := m.takeFrame; (.frame picture, m)
  | .press key => m.settle (m.press key)
  | .release key => m.settle (m.release key)

/-- The replies of a list of actions, one after the other, and the machine after the last. -/
def performAll (m : Machine) : List Action → List Reply × Machine
  | [] => ([], m)
  | a :: as =>
    let (reply, m) := m.perform a
    let (replies, m) := m.performAll as
    (reply :: replies, m)

end Machine

end Chip8
