import Chip8.Opcode
import Chip8.Instruction.Basic

/-!
# Encoding

The instruction table, read from an instruction to its word. Fields that are wider than their place
keep only the digits that fit. A shift has one register; the digit of the second is written as zero.
-/

namespace Chip8.Instruction

/-- The word of a row with one register and a byte operand. -/
def registerByte (family : Nat) (x nn : UInt8) : UInt16 :=
  Opcode.word family (x.toNat % 16 * 256 + nn.toNat)

/-- The word of a row with two registers and a last digit. -/
def registerPair (family : Nat) (x y : UInt8) (n : Nat) : UInt16 :=
  Opcode.word family (x.toNat % 16 * 256 + y.toNat % 16 * 16 + n % 16)

/-- The word that stands for an instruction. -/
def encode : Instruction → UInt16
  | clear => 0x00E0
  | ret => 0x00EE
  | jump address => Opcode.word 0x1 address.toNat
  | call address => Opcode.word 0x2 address.toNat
  | skipEqByte x nn => registerByte 0x3 x nn
  | skipNeByte x nn => registerByte 0x4 x nn
  | skipEq x y => registerPair 0x5 x y 0x0
  | loadByte x nn => registerByte 0x6 x nn
  | addByte x nn => registerByte 0x7 x nn
  | move x y => registerPair 0x8 x y 0x0
  | or x y => registerPair 0x8 x y 0x1
  | and x y => registerPair 0x8 x y 0x2
  | xor x y => registerPair 0x8 x y 0x3
  | add x y => registerPair 0x8 x y 0x4
  | sub x y => registerPair 0x8 x y 0x5
  | shiftRight x => registerPair 0x8 x 0 0x6
  | subFrom x y => registerPair 0x8 x y 0x7
  | shiftLeft x => registerPair 0x8 x 0 0xE
  | skipNe x y => registerPair 0x9 x y 0x0
  | setIndex address => Opcode.word 0xA address.toNat
  | jumpOffset address => Opcode.word 0xB address.toNat
  | random x nn => registerByte 0xC x nn
  | draw x y n => registerPair 0xD x y n.toNat
  | skipKey x => registerByte 0xE x 0x9E
  | skipNotKey x => registerByte 0xE x 0xA1
  | getDelay x => registerByte 0xF x 0x07
  | waitKey x => registerByte 0xF x 0x0A
  | setDelay x => registerByte 0xF x 0x15
  | setSound x => registerByte 0xF x 0x18
  | addIndex x => registerByte 0xF x 0x1E
  | glyph x => registerByte 0xF x 0x29
  | bcd x => registerByte 0xF x 0x33
  | store x => registerByte 0xF x 0x55
  | restore x => registerByte 0xF x 0x65

end Chip8.Instruction
