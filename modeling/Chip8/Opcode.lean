/-!
# Opcodes

A 16-bit program word and its fields. A word is four hexadecimal digits `FXYN`: the family, two
register numbers and a small count. The last two digits together are a byte operand, the last three
an address.

## Shape of the fields

Fields are taken by division and remainder, and `word` puts them together again. `toNat_eq` is the
place-value equation that ties a word to its four digits.
-/

namespace Chip8.Opcode

/-- The word stored as a high and a low byte. -/
def ofBytes (hi lo : UInt8) : UInt16 :=
  UInt16.ofNat (hi.toNat * 256 + lo.toNat)

/-- The first digit, which selects the family of the instruction. -/
def family (w : UInt16) : Nat :=
  w.toNat / 4096

/-- The second digit, the register that most instructions work on. -/
def x (w : UInt16) : UInt8 :=
  UInt8.ofNat (w.toNat / 256 % 16)

/-- The third digit, the second register. -/
def y (w : UInt16) : UInt8 :=
  UInt8.ofNat (w.toNat / 16 % 16)

/-- The fourth digit. -/
def n (w : UInt16) : UInt8 :=
  UInt8.ofNat (w.toNat % 16)

/-- The low byte. -/
def nn (w : UInt16) : UInt8 :=
  UInt8.ofNat (w.toNat % 256)

/-- The low three digits, an address. -/
def address (w : UInt16) : UInt16 :=
  UInt16.ofNat (w.toNat % 4096)

/-- The word with the given family and the given low three digits. -/
def word (family low : Nat) : UInt16 :=
  UInt16.ofNat (family * 4096 + low % 4096)

/-- The first byte is the high one. -/
theorem toNat_ofBytes (hi lo : UInt8) : (ofBytes hi lo).toNat = hi.toNat * 256 + lo.toNat := by
  have h₁ := hi.toNat_lt
  have h₂ := lo.toNat_lt
  simp only [ofBytes, UInt16.toNat_ofNat']
  omega

/-- The family is a single hexadecimal digit. -/
theorem family_lt (w : UInt16) : family w < 16 := by
  have h := w.toNat_lt
  simp only [family]
  omega

/-- The second hexadecimal digit. -/
@[simp] theorem toNat_x (w : UInt16) : (x w).toNat = w.toNat / 256 % 16 := by
  simp only [x, UInt8.toNat_ofNat']
  omega

/-- The third hexadecimal digit. -/
@[simp] theorem toNat_y (w : UInt16) : (y w).toNat = w.toNat / 16 % 16 := by
  simp only [y, UInt8.toNat_ofNat']
  omega

/-- The last hexadecimal digit. -/
@[simp] theorem toNat_n (w : UInt16) : (n w).toNat = w.toNat % 16 := by
  simp only [n, UInt8.toNat_ofNat']
  omega

/-- The low byte. -/
@[simp] theorem toNat_nn (w : UInt16) : (nn w).toNat = w.toNat % 256 := by
  simp only [nn, UInt8.toNat_ofNat']
  omega

/-- The last three hexadecimal digits. -/
@[simp] theorem toNat_address (w : UInt16) : (address w).toNat = w.toNat % 4096 := by
  simp only [address, UInt16.toNat_ofNat']
  omega

/-- A word is the sum of its four digits at their places. -/
theorem toNat_eq (w : UInt16) :
    w.toNat = family w * 4096 + (x w).toNat * 256 + (y w).toNat * 16 + (n w).toNat := by
  simp only [toNat_x, toNat_y, toNat_n, family]
  omega

end Chip8.Opcode
