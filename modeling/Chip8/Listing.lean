import Chip8.Instruction.Decode
import Chip8.Instruction.Mnemonic
import Chip8.Memory

/-!
# Listings

The assembly listing of a program image: one line for each word, and one for a last odd byte. A line
shows the address, the bytes and the mnemonic; bytes that are no instruction are shown as data.
-/

namespace Chip8.Listing

/-- What a word stands for: an instruction, or data. -/
def wordText (w : UInt16) : String :=
  match Instruction.decode? w with
  | some instruction => instruction.mnemonic
  | none => "DW " ++ Numeral.marked 4 w.toNat

/-- The line of a word. -/
def wordLine (address : Nat) (w : UInt16) : String :=
  Numeral.hex 3 address ++ "  " ++ Numeral.hex 4 w.toNat ++ "  " ++ wordText w

/-- The line of a byte that has no second one. -/
def byteLine (address : Nat) (b : UInt8) : String :=
  Numeral.hex 3 address ++ "  " ++ Numeral.hex 2 b.toNat ++ "    DB " ++ Numeral.marked 2 b.toNat

/-- The lines of bytes that lie in memory from an address on. -/
def linesFrom (address : Nat) : List UInt8 → List String
  | hi :: lo :: rest => wordLine address (Opcode.ofBytes hi lo) :: linesFrom (address + 2) rest
  | [b] => [byteLine address b]
  | [] => []

/-- The listing of a program image, which starts where programs are loaded. -/
def lines (image : List UInt8) : List String :=
  linesFrom Memory.programStart image

end Chip8.Listing
