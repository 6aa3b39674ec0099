import Chip8.Driver.Basic

/-!
# The machine changed in place

`execute` answers a new machine or a fault, so it cannot tell in which order an instruction checks
and changes things, nor what it would do past the end of an array. Here the instructions are
procedures on one machine: single reads, checks and writes, each seeing what the ones before it
left behind. A fault ends a procedure and undoes nothing.

## Shape of a procedure

An outcome holds the result, the machine as it was left, and the record of every use of something
limited: cells of an array, and exact values that a number type has to hold (`Access`). Whether the
uses are within their limits (`Access.Fits`) is not checked by the procedure; it is a theorem about
the records.
-/

namespace Chip8

/-- An array that is indexed. -/
inductive Bank where
  | memory
  | registers
  | stack
  | screen

/-- The number of cells of an array. -/
def Bank.size : Bank → Nat
  | memory => 4096
  | registers => 16
  | stack => 16
  | screen => 2048

/-- One use of something limited. -/
inductive Access where
  /-- A number of cells of an array from an index on. -/
  | cells (bank : Bank) (start count : Nat)
  /-- The exact value of a sum, difference or product that has to be held without a sign in a
  number of bits. -/
  | number (bits : Nat) (value : Int)

/-- The cells exist, and the value can be held. -/
def Access.Fits : Access → Prop
  | cells bank start count => start + count ≤ bank.size
  | number bits value => 0 ≤ value ∧ value < Nat.pow 2 bits

/-- What a procedure leaves behind. -/
structure Outcome (α : Type) where
  result : Except Fault α
  machine : Machine
  accesses : List Access

/-- The outcome with earlier uses put on record before its own. -/
def Outcome.after {α : Type} (before : List Access) (o : Outcome α) : Outcome α :=
  { o with accesses := before ++ o.accesses }

/-- A sequence of reads, checks and writes. -/
structure Procedure (α : Type) where
  run : Machine → Outcome α

namespace Procedure

instance : Monad Procedure where
  pure a := ⟨fun m => ⟨.ok a, m, []⟩⟩
  bind p f := ⟨fun m =>
    match p.run m with
    | ⟨.ok a, m, before⟩ => ((f a).run m).after before
    | ⟨.error fault, m, before⟩ => ⟨.error fault, m, before⟩⟩

/-- The machine as it is now. -/
def look : Procedure Machine :=
  ⟨fun m => ⟨.ok m, m, []⟩⟩

/-- Changes the machine. -/
def change (f : Machine → Machine) : Procedure Unit :=
  ⟨fun m => ⟨.ok (), f m, []⟩⟩

/-- Puts a use on record. -/
def use (access : Access) : Procedure Unit :=
  ⟨fun m => ⟨.ok (), m, [access]⟩⟩

/-- Ends with a fault. -/
def refuse {α : Type} (fault : Fault) : Procedure α :=
  ⟨fun m => ⟨.error fault, m, []⟩⟩

/-- Goes on with a handler after a fault, on the machine as the fault left it. -/
def recover {α : Type} (p : Procedure α) (handler : Fault → Procedure α) : Procedure α :=
  ⟨fun m =>
    match p.run m with
    | ⟨.ok a, m, before⟩ => ⟨.ok a, m, before⟩
    | ⟨.error fault, m, before⟩ => ((handler fault).run m).after before⟩

/-! ## Single reads and writes -/

/-- Moves the program counter on. -/
def advance (bytes : UInt16) : Procedure Unit := do
  let m ← look
  use (.number 16 (m.pc.toNat + bytes.toNat))
  change fun m => { m with pc := m.pc + bytes }

/-- To the next word. -/
def next : Procedure Unit :=
  advance 2

/-- To the next word, or to the word after it if a condition holds. -/
def skipIf (condition : Bool) : Procedure Unit :=
  advance (if condition then 4 else 2)

/-- To an address. -/
def jump (address : UInt16) : Procedure Unit :=
  change fun m => { m with pc := address }

/-- Reads a register. -/
def v (x : UInt8) : Procedure UInt8 := do
  use (.cells .registers x.toNat 1)
  return (← look).v x

/-- Writes a register. -/
def write (x value : UInt8) : Procedure Unit := do
  use (.cells .registers x.toNat 1)
  change fun m => { m with registers := m.registers.set x value }

/-- Writes a register and goes to the next word. -/
def set (x value : UInt8) : Procedure Unit := do
  write x value
  next

/-- Writes the flag, then a register, and goes to the next word. -/
def setWithFlag (x value : UInt8) (up : Bool) : Procedure Unit := do
  write Registers.flag up.toUInt8
  set x value

/-- Reads a row of bytes. -/
def read (start count : Nat) : Procedure (List UInt8) := do
  use (.cells .memory start count)
  return (← look).memory.read start count

/-- The index register, once a number of bytes from there on is known to lie in memory. -/
def span (count : Nat) : Procedure Nat := do
  let start := (← look).index.toNat
  use (.number 64 (start + count))
  if start + count > 4096 then
    use (.number 64 (start + count - 1))
    refuse (.outOfMemory (start + count - 1))
  else
    return start

/-- Writes a row of bytes. -/
def writeBytes (start : Nat) (bytes : List UInt8) : Procedure Unit := do
  use (.cells .memory start bytes.length)
  change fun m => { m with memory := m.memory.write start bytes }

/-- Sets the number of slots of the return stack in use; more than there are cannot be in use. -/
def setDepth (depth : Nat) : Procedure Unit :=
  change fun m =>
    if h : depth ≤ 16 then
      { m with stack := { slots := m.stack.slots, depth := depth, depth_le := h } }
    else
      m

/-- Writes a slot of the return stack. -/
def writeSlot (k : Nat) (address : UInt16) : Procedure Unit := do
  use (.cells .stack k 1)
  change fun m =>
    if h : k < 16 then
      { m with stack := { m.stack with slots := m.stack.slots.set k address } }
    else
      m

/-- Reads a slot of the return stack. -/
def readSlot (k : Nat) : Procedure UInt16 := do
  use (.cells .stack k 1)
  return (← look).stack.slots[k]?.getD 0

/-- Inverts a cell of the picture and tells whether it was lit. -/
def toggle (index : Nat) : Procedure Bool := do
  use (.cells .screen (index % 2048) 1)
  let (was, screen) := (← look).screen.toggle index
  change fun m => { m with screen := screen }
  return was

/-! ## Longer procedures -/

/-- Enters a subroutine. -/
def call (address : UInt16) : Procedure Unit := do
  let m ← look
  if m.stack.depth = 16 then
    refuse (.stackOverflow m.pc)
  else
    writeSlot m.stack.depth m.pc
    use (.number 64 (m.stack.depth + 1))
    setDepth (m.stack.depth + 1)
    jump address

/-- Goes on after the last call. -/
def ret : Procedure Unit := do
  let m ← look
  if m.stack.depth = 0 then
    refuse (.stackUnderflow m.pc)
  else
    use (.number 64 ((m.stack.depth : Int) - 1))
    setDepth (m.stack.depth - 1)
    let address ← readSlot (m.stack.depth - 1)
    use (.number 16 (address.toNat + 2))
    jump (address + 2)

/-- Draws one row of a sprite from some columns on; `hit` is whether a lit pixel was hit so far. -/
def drawColumns (x y row : Nat) (sprite : UInt8) : List Nat → Bool → Procedure Bool
  | [], hit => pure hit
  | column :: columns, hit =>
    if Sprite.isSet sprite column then do
      let index := x + column + (y + row) * Framebuffer.width
      use (.number 64 index)
      let was ← toggle (index % 2048)
      drawColumns x y row sprite columns (hit || was)
    else
      drawColumns x y row sprite columns hit

/-- Draws the rows of a sprite from the row with a given number on. -/
def drawRows (x y : Nat) : Nat → List UInt8 → Bool → Procedure Bool
  | _, [], hit => pure hit
  | row, sprite :: sprites, hit => do
    let hit ← drawColumns x y row sprite (List.range 8) hit
    drawRows x y (row + 1) sprites hit

/-- Draws the rows of a sprite that starts at an address. -/
def drawFrom (x y rows : UInt8) (start : Nat) : Procedure Unit := do
  let vx ← v x
  let vy ← v y
  let sprite ← read start rows.toNat
  let hit ← drawRows vx.toNat vy.toNat 0 sprite false
  write Registers.flag hit.toUInt8
  next

/-- Draws a sprite. Without rows it needs no memory. -/
def draw (x y rows : UInt8) : Procedure Unit := do
  let start ← if rows = 0 then pure 0 else span rows.toNat
  drawFrom x y rows start

/-- The instructions as procedures. -/
def execute : Instruction → Procedure Unit
  | .clear => do
    change Machine.clearScreen
    next
  | .ret => ret
  | .jump address => jump address
  | .call address => call address
  | .skipEqByte x nn => do skipIf ((← v x) == nn)
  | .skipNeByte x nn => do skipIf ((← v x) != nn)
  | .skipEq x y => do skipIf ((← v x) == (← v y))
  | .loadByte x nn => set x nn
  | .addByte x nn => do set x ((← v x) + nn)
  | .move x y => do set x (← v y)
  | .or x y => do set x ((← v x) ||| (← v y))
  | .and x y => do set x ((← v x) &&& (← v y))
  | .xor x y => do set x ((← v x) ^^^ (← v y))
  | .add x y => do
    let vx ← v x
    let vy ← v y
    setWithFlag x (vx + vy) (vx.toNat + vy.toNat ≥ 256)
  | .sub x y => do
    let vx ← v x
    let vy ← v y
    setWithFlag x (vx - vy) (vx > vy)
  | .shiftRight x => do
    let vx ← v x
    setWithFlag x (vx / 2) (vx.toNat.testBit 0)
  | .subFrom x y => do
    let vx ← v x
    let vy ← v y
    setWithFlag x (vy - vx) (vy > vx)
  | .shiftLeft x => do
    let vx ← v x
    setWithFlag x (vx * 2) (vx.toNat.testBit 7)
  | .skipNe x y => do skipIf ((← v x) != (← v y))
  | .setIndex address => do
    change fun m => { m with index := address }
    next
  | .jumpOffset address => do
    let v0 ← v 0
    use (.number 16 (address.toNat + v0.toNat))
    jump (address + v0.toUInt16)
  | .random x nn => do
    let (byte, random) := (← look).random.next
    change fun m => { m with random := random }
    set x (byte &&& nn)
  | .draw x y n => draw x y n
  | .skipKey x => do
    let vx ← v x
    skipIf ((← look).keypad.isDown vx)
  | .skipNotKey x => do
    let vx ← v x
    skipIf !((← look).keypad.isDown vx)
  | .getDelay x => do set x (← look).delay
  | .waitKey x => do
    match (← look).keypad.firstPressed? with
    | some key => set x key
    | none => pure ()
  | .setDelay x => do
    let vx ← v x
    change fun m => { m with delay := vx }
    next
  | .setSound x => do
    let vx ← v x
    change fun m => { m with sound := vx }
    next
  | .addIndex x => do
    let start := (← look).index
    let vx ← v x
    let sum := start.toNat + vx.toNat
    use (.number 32 sum)
    write Registers.flag (decide (sum > 0xFFF)).toUInt8
    change fun m => { m with index := UInt16.ofNat sum }
    next
  | .glyph x => do
    let vx ← v x
    use (.number 16 (vx.toNat * 5))
    change fun m => { m with index := vx.toUInt16 * 5 }
    next
  | .bcd x => do
    let start ← span 3
    writeBytes start (Machine.decimalDigits (← v x))
    next
  | .store x => do
    let count := x.toNat + 1
    let start ← span count
    use (.cells .registers 0 count)
    writeBytes start ((← look).registers.first count)
    next
  | .restore x => do
    let count := x.toNat + 1
    let start ← span count
    let bytes ← read start count
    use (.cells .registers 0 count)
    change fun m => { m with registers := m.registers.fill bytes }
    next

/-- The word at the program counter. -/
def fetch : Procedure UInt16 := do
  let pc := (← look).pc.toNat
  use (.number 64 (pc + 1))
  if pc + 1 ≥ 4096 then
    refuse (.outOfMemory (pc + 1))
  else
    use (.cells .memory pc 2)
    let m ← look
    return Opcode.ofBytes (m.memory.get pc) (m.memory.get (pc + 1))

/-- One fetch-decode-execute cycle. -/
def step : Procedure Instruction := do
  let word ← fetch
  change fun m => { m with opcode := word }
  match Instruction.decode? word with
  | none => refuse (.unknownOpcode word (← look).pc)
  | some i =>
    execute i
    return i

/-- One step of a driver with a policy for unknown words, and whether it halts. -/
def attempt (policy : UnknownPolicy) : Procedure Bool :=
  recover (do let _ ← step; return false) fun fault =>
    if Driver.tolerates policy fault then do
      next
      return false
    else
      return true

/-! ## Actions of a host -/

/-- Stores a program image, if it fits. -/
def load (image : List UInt8) : Procedure Unit :=
  if image.length > Memory.size - Memory.programStart then
    refuse (.outOfMemory (Memory.programStart + image.length - 1))
  else
    writeBytes Memory.programStart image

/-- Clears everything but the random source and the keypad, and stores the font. -/
def reset : Procedure Unit := do
  change fun m => { m.reset with memory := .zero }
  writeBytes Font.start Font.bytes

/-- Moves a key, if there is one of that number. -/
def moveKey (key : UInt8) (isPressed : Bool) : Procedure Unit := do
  match (← look).keypad.move key isPressed with
  | .ok keypad => change fun m => { m with keypad := keypad }
  | .error fault => refuse fault

/-- An action of a host. -/
def perform : Machine.Action → Procedure Unit
  | .load image => load image
  | .reset => reset
  | .step => do let _ ← step
  | .execute i => execute i
  | .skip => next
  | .tick => change fun m => m.tick.2
  | .clearScreen => change Machine.clearScreen
  | .takeFrame => change fun m => m.takeFrame.2
  | .press key => moveKey key true
  | .release key => moveKey key false

end Procedure

end Chip8
