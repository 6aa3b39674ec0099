import Chip8.Framebuffer

/-!
# Sprites

A sprite is a list of rows, each a byte of eight pixels with the leftmost in the highest bit.
Drawing turns the set pixels into framebuffer indices. A column past the right edge goes on in the
next row, because the index is flat.
-/

namespace Chip8.Sprite

/-- Whether the pixel in a column of a row is set; column 0 is the leftmost. -/
def isSet (row : UInt8) (column : Nat) : Bool :=
  row.toNat.testBit (7 - column)

/-- The columns of a row whose pixels are set, from the left. -/
def columns (row : UInt8) : List Nat :=
  (List.range 8).filter (isSet row)

/-- The framebuffer indices of the set pixels of a sprite whose first pixel is at column `x` and row
`y`, row by row from the left. -/
def indices (x y : Nat) : List UInt8 → List Nat
  | [] => []
  | row :: rows =>
    (columns row).map (fun column => x + column + y * Framebuffer.width) ++ indices x (y + 1) rows

end Chip8.Sprite
