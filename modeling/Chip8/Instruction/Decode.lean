import Chip8.Opcode
import Chip8.Instruction.Basic

/-!
# Decoding

The instruction table, read from a word to an instruction. The first digit selects a family; some
families need the last digit or the last byte to be one of a few values, and a word that matches no
row of the table decodes to nothing.
-/

namespace Chip8.Instruction

/-- The register-to-register family, told apart by the last digit. -/
def decodeArithmetic? (x y n : UInt8) : Option Instruction :=
  match n.toNat with
  | 0x0 => some (move x y)
  | 0x1 => some (or x y)
  | 0x2 => some (and x y)
  | 0x3 => some (xor x y)
  | 0x4 => some (add x y)
  | 0x5 => some (sub x y)
  | 0x6 => some (shiftRight x)
  | 0x7 => some (subFrom x y)
  | 0xE => some (shiftLeft x)
  | _ => none

/-- The family of timers, index register and memory, told apart by the last byte. -/
def decodeTransfer? (x nn : UInt8) : Option Instruction :=
  match nn.toNat with
  | 0x07 => some (getDelay x)
  | 0x0A => some (waitKey x)
  | 0x15 => some (setDelay x)
  | 0x18 => some (setSound x)
  | 0x1E => some (addIndex x)
  | 0x29 => some (glyph x)
  | 0x33 => some (bcd x)
  | 0x55 => some (store x)
  | 0x65 => some (restore x)
  | _ => none

/-- The instruction that a word stands for, if it is in the table. -/
def decode? (w : UInt16) : Option Instruction :=
  let x := Opcode.x w
  let y := Opcode.y w
  let n := Opcode.n w
  let nn := Opcode.nn w
  let address := Opcode.address w
  match Opcode.family w with
  | 0x0 => if w = 0x00E0 then some clear else if w = 0x00EE then some ret else none
  | 0x1 => some (jump address)
  | 0x2 => some (call address)
  | 0x3 => some (skipEqByte x nn)
  | 0x4 => some (skipNeByte x nn)
  | 0x5 => if n = 0 then some (skipEq x y) else none
  | 0x6 => some (loadByte x nn)
  | 0x7 => some (addByte x nn)
  | 0x8 => decodeArithmetic? x y n
  | 0x9 => if n = 0 then some (skipNe x y) else none
  | 0xA => some (setIndex address)
  | 0xB => some (jumpOffset address)
  | 0xC => some (random x nn)
  | 0xD => some (draw x y n)
  | 0xE => if nn = 0x9E then some (skipKey x) else if nn = 0xA1 then some (skipNotKey x) else none
  | 0xF => decodeTransfer? x nn
  | _ => none

end Chip8.Instruction
