/-!
# Instructions

The instruction set as data. `x` and `y` number registers, `nn` is a byte operand, `n` a sprite
height and `address` a 12-bit address. The fields hold any value of their width; what a program word
decodes to is narrower, and the machine reads only the low four bits of a register number.
-/

namespace Chip8

/-- One instruction with its operands. -/
inductive Instruction where
  /-- Turn every pixel off. -/
  | clear
  /-- Come back from a subroutine. -/
  | ret
  | jump (address : UInt16)
  /-- Enter a subroutine. -/
  | call (address : UInt16)
  /-- Skip the next word if Vx equals the operand. -/
  | skipEqByte (x nn : UInt8)
  /-- Skip the next word if Vx differs from the operand. -/
  | skipNeByte (x nn : UInt8)
  /-- Skip the next word if Vx equals Vy. -/
  | skipEq (x y : UInt8)
  | loadByte (x nn : UInt8)
  /-- Add the operand to Vx and leave the flag alone. -/
  | addByte (x nn : UInt8)
  /-- Copy Vy to Vx. -/
  | move (x y : UInt8)
  | or (x y : UInt8)
  | and (x y : UInt8)
  | xor (x y : UInt8)
  /-- Add Vy to Vx; the flag is the carry. -/
  | add (x y : UInt8)
  /-- Take Vy from Vx; the flag says that Vx was greater. -/
  | sub (x y : UInt8)
  /-- Halve Vx; the flag is the bit that drops out. -/
  | shiftRight (x : UInt8)
  /-- Take Vx from Vy and store in Vx; the flag says that Vy was greater. -/
  | subFrom (x y : UInt8)
  /-- Double Vx; the flag is the bit that drops out. -/
  | shiftLeft (x : UInt8)
  /-- Skip the next word if Vx differs from Vy. -/
  | skipNe (x y : UInt8)
  | setIndex (address : UInt16)
  /-- Jump to the address plus V0. -/
  | jumpOffset (address : UInt16)
  /-- Store a random byte, masked by the operand, in Vx. -/
  | random (x nn : UInt8)
  /-- Draw `n` rows of the sprite at the index register, at column Vx and row Vy. -/
  | draw (x y n : UInt8)
  /-- Skip the next word if the key numbered by Vx is down. -/
  | skipKey (x : UInt8)
  /-- Skip the next word unless the key numbered by Vx is down. -/
  | skipNotKey (x : UInt8)
  | getDelay (x : UInt8)
  /-- Stay here until a key is down, then store its number in Vx. -/
  | waitKey (x : UInt8)
  | setDelay (x : UInt8)
  | setSound (x : UInt8)
  /-- Add Vx to the index register; the flag says that the sum is past the last address. -/
  | addIndex (x : UInt8)
  /-- Point the index register at the font glyph of the digit in Vx. -/
  | glyph (x : UInt8)
  /-- Write the three decimal digits of Vx at the index register. -/
  | bcd (x : UInt8)
  /-- Write V0 to Vx at the index register. -/
  | store (x : UInt8)
  /-- Read V0 to Vx from the index register. -/
  | restore (x : UInt8)
deriving DecidableEq, Repr

end Chip8
