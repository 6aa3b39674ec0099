import Chip8.Instruction.Decode

/-!
# The operands of a decoded instruction

An instruction holds operands of any width of their type, but a word has only one digit for a
register or a sprite height and three for an address. `InRange` is this narrower range, and
`inRange_of_decode?` says that decoding stays in it.
-/

namespace Chip8.Instruction

/-- Register numbers and sprite heights have one digit, addresses have three. -/
def InRange : Instruction → Prop
  | clear | ret => True
  | jump address | call address | setIndex address | jumpOffset address => address.toNat < 4096
  | skipEqByte x _ | skipNeByte x _ | loadByte x _ | addByte x _ | random x _ => x.toNat < 16
  | skipEq x y | skipNe x y | move x y | or x y | and x y | xor x y | add x y | sub x y
  | subFrom x y => x.toNat < 16 ∧ y.toNat < 16
  | shiftRight x | shiftLeft x | skipKey x | skipNotKey x | getDelay x | waitKey x | setDelay x
  | setSound x | addIndex x | glyph x | bcd x | store x | restore x => x.toNat < 16
  | draw x y n => x.toNat < 16 ∧ y.toNat < 16 ∧ n.toNat < 16

/-- The operands of arithmetic are registers. -/
private theorem inRange_of_decodeArithmetic? {x y n : UInt8} {i : Instruction}
    (hx : x.toNat < 16) (hy : y.toNat < 16) (h : decodeArithmetic? x y n = some i) :
    i.InRange := by
  unfold decodeArithmetic? at h
  split at h <;> cases h
  all_goals first | exact ⟨hx, hy⟩ | exact hx

private theorem inRange_of_decodeTransfer? {x nn : UInt8} {i : Instruction} (hx : x.toNat < 16)
    (h : decodeTransfer? x nn = some i) : i.InRange := by
  unfold decodeTransfer? at h
  split at h <;> cases h <;> exact hx

/-- The operands of a decoded instruction lie in the range of their fields. -/
theorem inRange_of_decode? {w : UInt16} {i : Instruction} (h : decode? w = some i) :
    i.InRange := by
  have hx : (Opcode.x w).toNat < 16 := by rw [Opcode.toNat_x]; omega
  have hy : (Opcode.y w).toNat < 16 := by rw [Opcode.toNat_y]; omega
  have hn : (Opcode.n w).toNat < 16 := by rw [Opcode.toNat_n]; omega
  have ha : (Opcode.address w).toNat < 4096 := by rw [Opcode.toNat_address]; omega
  simp only [decode?] at h
  split at h
  case h_9 => exact inRange_of_decodeArithmetic? hx hy h
  case h_16 => exact inRange_of_decodeTransfer? hx h
  -- what is left is one row a family, behind at most two tests of its last digits
  all_goals
    repeat' split at h
    all_goals cases h
    all_goals first | exact ha | exact hx | exact ⟨hx, hy⟩ | exact ⟨hx, hy, hn⟩ | trivial

end Chip8.Instruction
