import Chip8.Instruction.Decode
import Chip8.Machine.Basic
import Chip8.Sprite

/-!
# Execution

What each instruction does to the machine, and the fetch-decode-execute step.

## Shape of an instruction

`execute` answers the machine after the instruction or the fault for which it was refused. Every
check comes before the first change: the span of bytes that an instruction needs is tested as a
whole, and the stack answers before the program counter moves. `step` returns a machine in either
case, because the word it fetched is remembered also when that word is then refused.
-/

namespace Chip8.Machine

/-! ## Moving on -/

/-- The value of a register. -/
def v (m : Machine) (x : UInt8) : UInt8 :=
  m.registers.get x

/-- The machine at the next word, or at the word after it if a condition holds. -/
def skipIf (m : Machine) (condition : Bool) : Machine :=
  { m with pc := m.pc + if condition then 4 else 2 }

/-- The machine at the next word, with other registers. -/
def withRegisters (m : Machine) (registers : Registers) : Machine :=
  { m with registers := registers, pc := m.pc + 2 }

/-- The machine at the next word, with a value in Vx. -/
def setV (m : Machine) (x value : UInt8) : Machine :=
  m.withRegisters (m.registers.set x value)

/-- The machine at the next word, with a value in Vx and a truth value in VF. -/
def setVF (m : Machine) (x value : UInt8) (up : Bool) : Machine :=
  m.withRegisters (m.registers.setWithFlag x value up)

/-! ## Subroutines -/

/-- Enters the subroutine at an address; the address of the call itself is kept. -/
def call (m : Machine) (address : UInt16) : Except Fault Machine :=
  match m.stack.push? m.pc with
  | some stack => .ok { m with stack := stack, pc := address }
  | none => .error (.stackOverflow m.pc)

/-- Goes on at the word after the last call. -/
def ret (m : Machine) : Except Fault Machine :=
  match m.stack.pop? with
  | some (address, stack) => .ok { m with stack := stack, pc := address + 2 }
  | none => .error (.stackUnderflow m.pc)

/-! ## Sprites and data at the index register -/

/-- The rows of the sprite at the index register. A sprite without rows needs no memory, so the
index register may then point anywhere. -/
def sprite (m : Machine) (rows : UInt8) : Except Fault (List UInt8) :=
  if rows = 0 then
    .ok []
  else
    (Memory.span m.index.toNat rows.toNat).map fun start => m.memory.read start rows.toNat

/-- Inverts the pixels of the sprite at the index register; VF says whether a lit pixel was hit. -/
def draw (m : Machine) (x y rows : UInt8) : Except Fault Machine :=
  (m.sprite rows).map fun sprite =>
    let indices := Sprite.indices (m.v x).toNat (m.v y).toNat sprite
    let (hit, screen) := m.screen.toggleAll indices
    { m.withRegisters (m.registers.set Registers.flag hit.toUInt8) with screen := screen }

/-- The hundreds, tens and units of a byte. -/
def decimalDigits (value : UInt8) : List UInt8 :=
  [value / 100, value / 10 % 10, value % 10]

/-- The machine at the next word, with `xs` stored at the index register. -/
def storeAtIndex (m : Machine) (xs : List UInt8) : Except Fault Machine :=
  (Memory.span m.index.toNat xs.length).map fun start =>
    { m with memory := m.memory.write start xs, pc := m.pc + 2 }

/-- The machine at the next word, with the first registers filled from the index register. -/
def restoreFromIndex (m : Machine) (count : Nat) : Except Fault Machine :=
  (Memory.span m.index.toNat count).map fun start =>
    m.withRegisters (m.registers.fill (m.memory.read start count))

/-- Adds a byte to the index register; VF says that the sum is past the last address. -/
def addIndex (m : Machine) (value : UInt8) : Machine :=
  let sum := m.index.toNat + value.toNat
  let past := decide (sum > 0xFFF)
  { m.withRegisters (m.registers.set Registers.flag past.toUInt8) with index := UInt16.ofNat sum }

/-! ## The instruction set -/

/-- The machine after an instruction, or the fault for which the instruction is refused. -/
def execute (m : Machine) : Instruction → Except Fault Machine
  | .clear => .ok { m with screen := m.screen.clear, pc := m.pc + 2 }
  | .ret => m.ret
  | .jump address => .ok { m with pc := address }
  | .call address => m.call address
  | .skipEqByte x nn => .ok (m.skipIf (m.v x == nn))
  | .skipNeByte x nn => .ok (m.skipIf (m.v x != nn))
  | .skipEq x y => .ok (m.skipIf (m.v x == m.v y))
  | .loadByte x nn => .ok (m.setV x nn)
  | .addByte x nn => .ok (m.setV x (m.v x + nn))
  | .move x y => .ok (m.setV x (m.v y))
  | .or x y => .ok (m.setV x (m.v x ||| m.v y))
  | .and x y => .ok (m.setV x (m.v x &&& m.v y))
  | .xor x y => .ok (m.setV x (m.v x ^^^ m.v y))
  | .add x y => .ok (m.setVF x (m.v x + m.v y) ((m.v x).toNat + (m.v y).toNat ≥ 256))
  | .sub x y => .ok (m.setVF x (m.v x - m.v y) (m.v x > m.v y))
  | .shiftRight x => .ok (m.setVF x (m.v x / 2) ((m.v x).toNat.testBit 0))
  | .subFrom x y => .ok (m.setVF x (m.v y - m.v x) (m.v y > m.v x))
  | .shiftLeft x => .ok (m.setVF x (m.v x * 2) ((m.v x).toNat.testBit 7))
  | .skipNe x y => .ok (m.skipIf (m.v x != m.v y))
  | .setIndex address => .ok { m with index := address, pc := m.pc + 2 }
  | .jumpOffset address => .ok { m with pc := address + (m.v 0).toUInt16 }
  | .random x nn =>
    let (byte, random) := m.random.next
    .ok { m.setV x (byte &&& nn) with random := random }
  | .draw x y n => m.draw x y n
  | .skipKey x => .ok (m.skipIf (m.keypad.isDown (m.v x)))
  | .skipNotKey x => .ok (m.skipIf !(m.keypad.isDown (m.v x)))
  | .getDelay x => .ok (m.setV x m.delay)
  | .waitKey x =>
    match m.keypad.firstPressed? with
    | some key => .ok (m.setV x key)
    | none => .ok m
  | .setDelay x => .ok { m with delay := m.v x, pc := m.pc + 2 }
  | .setSound x => .ok { m with sound := m.v x, pc := m.pc + 2 }
  | .addIndex x => .ok (m.addIndex (m.v x))
  | .glyph x => .ok { m with index := (m.v x).toUInt16 * 5, pc := m.pc + 2 }
  | .bcd x => m.storeAtIndex (decimalDigits (m.v x))
  | .store x => m.storeAtIndex (m.registers.first (x.toNat + 1))
  | .restore x => m.restoreFromIndex (x.toNat + 1)

/-! ## Steps -/

/-- One fetch-decode-execute cycle: the executed instruction or a fault, and the machine after it.
The fetched word is remembered in either case; on a fault nothing else has changed. -/
def step (m : Machine) : Except Fault Instruction × Machine :=
  match m.fetch with
  | .error fault => (.error fault, m)
  | .ok word =>
    let m := { m with opcode := word }
    match Instruction.decode? word with
    | none => (.error (.unknownOpcode word m.pc), m)
    | some instruction =>
      match m.execute instruction with
      | .error fault => (.error fault, m)
      | .ok m' => (.ok instruction, m')

/-- At most `n` more steps after `done` of them, ending early at the first fault: the steps done,
that fault, and the machine. -/
def runFrom (done : Nat) : Nat → Machine → Nat × Option Fault × Machine
  | 0, m => (done, none, m)
  | n + 1, m =>
    match m.step with
    | (.error fault, m) => (done, some fault, m)
    | (.ok _, m) => runFrom (done + 1) n m

/-- At most `n` steps, ending early at the first fault. -/
def run (m : Machine) (n : Nat) : Nat × Option Fault × Machine :=
  runFrom 0 n m

end Chip8.Machine
