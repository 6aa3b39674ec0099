/-!
# The built-in font

Sixteen glyphs, one for each hexadecimal digit, five rows of eight pixels each. A row is a byte
whose highest bit is the leftmost pixel.
-/

namespace Chip8.Font

/-- The rows of one glyph. -/
abbrev glyphSize : Nat := 5

/-- The rows of the glyphs of `0` to `F`, one glyph a line. -/
def bytes : List UInt8 :=
  [0xF0, 0x90, 0x90, 0x90, 0xF0,
   0x20, 0x60, 0x20, 0x20, 0x70,
   0xF0, 0x10, 0xF0, 0x80, 0xF0,
   0xF0, 0x10, 0xF0, 0x10, 0xF0,
   0x90, 0x90, 0xF0, 0x10, 0x10,
   0xF0, 0x80, 0xF0, 0x10, 0xF0,
   0xF0, 0x80, 0xF0, 0x90, 0xF0,
   0xF0, 0x10, 0x20, 0x40, 0x40,
   0xF0, 0x90, 0xF0, 0x90, 0xF0,
   0xF0, 0x90, 0xF0, 0x10, 0xF0,
   0xF0, 0x90, 0xF0, 0x90, 0x90,
   0xE0, 0x90, 0xE0, 0x90, 0xE0,
   0xF0, 0x80, 0x80, 0x80, 0xF0,
   0xE0, 0x90, 0x90, 0x90, 0xE0,
   0xF0, 0x80, 0xF0, 0x80, 0xF0,
   0xF0, 0x80, 0xF0, 0x80, 0x80]

/-- The address at which the font is installed. -/
abbrev start : Nat := 0

theorem length_bytes : bytes.length = 16 * glyphSize := rfl

end Chip8.Font
