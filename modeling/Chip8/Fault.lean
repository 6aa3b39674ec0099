import Chip8.Numeral

/-!
# Faults

What can go wrong while the machine runs or a key is forwarded to the keypad.

## Shape of a fault

A fault names its cause and carries the numbers that a host needs to react: where it happened, and
which word or key was at fault. The wording is kept in one place, `Fault.message`.
-/

namespace Chip8

/-- A cause for which an instruction, a load or a key event is refused. -/
inductive Fault where
  /-- Some byte at or after the end of memory was needed. -/
  | outOfMemory (address : Nat)
  /-- The word at `address` is no instruction. -/
  | unknownOpcode (opcode address : UInt16)
  /-- A call was made with every slot of the return stack in use. -/
  | stackOverflow (address : UInt16)
  /-- A return was made with no slot of the return stack in use. -/
  | stackUnderflow (address : UInt16)
  /-- The keypad has no such key. -/
  | invalidKey (key : UInt8)
deriving DecidableEq, Repr

namespace Fault

/-- The text shown for a fault. -/
def message : Fault → String
  | outOfMemory address => "address " ++ Numeral.marked 3 address ++ " is outside of memory"
  | unknownOpcode opcode address =>
    "unknown opcode " ++ Numeral.hex 4 opcode.toNat ++ " at " ++ Numeral.marked 3 address.toNat
  | stackOverflow address =>
    "call at " ++ Numeral.marked 3 address.toNat ++ " exceeds the stack depth"
  | stackUnderflow address =>
    "return at " ++ Numeral.marked 3 address.toNat ++ " with an empty stack"
  | invalidKey key => "key " ++ Numeral.marked 1 key.toNat ++ " is not on the keypad"

end Fault

end Chip8
