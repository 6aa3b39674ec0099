import Chip8.Numeral
import Chip8.Instruction.Basic

/-!
# Mnemonics

The assembly text of an instruction. A register is `V` and its number in hexadecimal, a byte operand
is marked hexadecimal with at least two digits, an address with at least three, and the height of a
sprite is decimal.
-/

namespace Chip8.Instruction

/-- The text of a register operand. -/
def registerText (x : UInt8) : String :=
  "V" ++ Numeral.hex 1 x.toNat

/-- The text of a byte operand. -/
def byteText (nn : UInt8) : String :=
  Numeral.marked 2 nn.toNat

/-- The text of an address operand. -/
def addressText (address : UInt16) : String :=
  Numeral.marked 3 address.toNat

/-- An operation on one register and a byte operand. -/
def registerByteText (name : String) (x nn : UInt8) : String :=
  name ++ " " ++ registerText x ++ ", " ++ byteText nn

/-- An operation on two registers. -/
def registerPairText (name : String) (x y : UInt8) : String :=
  name ++ " " ++ registerText x ++ ", " ++ registerText y

/-- The assembly text of an instruction. -/
def mnemonic : Instruction → String
  | clear => "CLS"
  | ret => "RET"
  | jump address => "JP " ++ addressText address
  | call address => "CALL " ++ addressText address
  | skipEqByte x nn => registerByteText "SE" x nn
  | skipNeByte x nn => registerByteText "SNE" x nn
  | skipEq x y => registerPairText "SE" x y
  | loadByte x nn => registerByteText "LD" x nn
  | addByte x nn => registerByteText "ADD" x nn
  | move x y => registerPairText "LD" x y
  | or x y => registerPairText "OR" x y
  | and x y => registerPairText "AND" x y
  | xor x y => registerPairText "XOR" x y
  | add x y => registerPairText "ADD" x y
  | sub x y => registerPairText "SUB" x y
  | shiftRight x => "SHR " ++ registerText x
  | subFrom x y => registerPairText "SUBN" x y
  | shiftLeft x => "SHL " ++ registerText x
  | skipNe x y => registerPairText "SNE" x y
  | setIndex address => "LD I, " ++ addressText address
  | jumpOffset address => "JP V0, " ++ addressText address
  | random x nn => registerByteText "RND" x nn
  | draw x y n => registerPairText "DRW" x y ++ ", " ++ Numeral.decimal n.toNat
  | skipKey x => "SKP " ++ registerText x
  | skipNotKey x => "SKNP " ++ registerText x
  | getDelay x => "LD " ++ registerText x ++ ", DT"
  | waitKey x => "LD " ++ registerText x ++ ", K"
  | setDelay x => "LD DT, " ++ registerText x
  | setSound x => "LD ST, " ++ registerText x
  | addIndex x => "ADD I, " ++ registerText x
  | glyph x => "LD F, " ++ registerText x
  | bcd x => "LD B, " ++ registerText x
  | store x => "LD [I], " ++ registerText x
  | restore x => "LD " ++ registerText x ++ ", [I]"

end Chip8.Instruction
