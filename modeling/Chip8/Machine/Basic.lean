import Chip8.Framebuffer
import Chip8.Keypad
import Chip8.Memory
import Chip8.RandomSource
import Chip8.Registers
import Chip8.ReturnStack

/-!
# The machine

The state of the virtual machine and the operations of its host: switching on, resetting, loading a
program, counting the timers down, taking the picture and moving keys.

## Shape of the state

A machine is a plain record of its parts. The host operations are functions from machine to machine;
one that can be refused answers `Except Fault`, so a refused operation leaves no machine behind but
the one it was applied to.
-/

namespace Chip8

/-- The state of the machine. -/
@[ext]
structure Machine where
  /-- The address of the next instruction. -/
  pc : UInt16
  /-- The index register, which points at sprites and data. -/
  index : UInt16
  stack : ReturnStack
  /-- The word that was fetched last. -/
  opcode : UInt16
  memory : Memory
  registers : Registers
  /-- The delay timer. -/
  delay : UInt8
  /-- The sound timer. -/
  sound : UInt8
  screen : Framebuffer
  keypad : Keypad
  random : RandomSource
deriving DecidableEq

namespace Machine

/-! ## Switching on -/

/-- A machine that has just been switched on, around a random source and a keypad. -/
def fresh (random : RandomSource) (keypad : Keypad) : Machine where
  pc := 0x200
  index := 0
  stack := .empty
  opcode := 0
  memory := .initial
  registers := .zero
  delay := 0
  sound := 0
  screen := .blank
  keypad := keypad
  random := random

/-- A machine that has just been switched on, with no key down and the random bytes of a seed. -/
def ofSeed (seed : UInt64) : Machine :=
  fresh (.ofSeed seed) .released

/-- Everything as at the start but the random source and the keypad, which go on as they are. -/
def reset (m : Machine) : Machine :=
  { m with
    pc := 0x200
    index := 0
    stack := .empty
    opcode := 0
    memory := .initial
    registers := .zero
    delay := 0
    sound := 0
    screen := m.screen.clear }

/-! ## Programs -/

/-- The machine with a program image in memory, unless the image does not fit. -/
def load (m : Machine) (image : List UInt8) : Except Fault Machine :=
  (m.memory.load image).map fun memory => { m with memory := memory }

/-- The word that the program counter points at, unless it lies outside of memory. -/
def fetch (m : Machine) : Except Fault UInt16 :=
  m.memory.word m.pc.toNat

/-- The machine past the current word, without executing it. -/
def skip (m : Machine) : Machine :=
  { m with pc := m.pc + 2 }

/-! ## Timers -/

/-- One less, and zero stays zero. -/
def countDown (timer : UInt8) : UInt8 :=
  if timer = 0 then 0 else timer - 1

/-- Both timers counted down by one, and whether the sound timer has just run out. -/
def tick (m : Machine) : Bool × Machine :=
  (m.sound == 1, { m with delay := countDown m.delay, sound := countDown m.sound })

/-! ## Screen and keys -/

/-- A blank screen, on behalf of the host. -/
def clearScreen (m : Machine) : Machine :=
  { m with screen := m.screen.clear }

/-- The picture, if it may have changed since the last call. -/
def takeFrame (m : Machine) : Option (Vector Bool 2048) × Machine :=
  let (dirty, screen) := m.screen.takeDirty
  (if dirty then some screen.cells else none, { m with screen := screen })

/-- The machine with one key pressed. -/
def press (m : Machine) (key : UInt8) : Except Fault Machine :=
  (m.keypad.press key).map fun keypad => { m with keypad := keypad }

/-- The machine with one key released. -/
def release (m : Machine) (key : UInt8) : Except Fault Machine :=
  (m.keypad.release key).map fun keypad => { m with keypad := keypad }

/-- A timer goes down by one and stops at zero. -/
theorem toNat_countDown (timer : UInt8) : (countDown timer).toNat = timer.toNat - 1 := by
  unfold countDown
  split
  next h => simp [h]
  next h =>
    have h' : timer.toNat ≠ 0 := fun e => h (UInt8.toNat.inj e)
    have hle : 1 ≤ timer := by
      rw [UInt8.le_iff_toNat_le, UInt8.toNat_one]
      omega
    rw [UInt8.toNat_sub_of_le _ _ hle]
    rfl

end Machine

end Chip8
