/-!
# Painting

The picture as bytes of colour, four for each pixel: red, green, blue and opacity. A buffer may be
shorter or longer than the picture; a group of four is painted only if it is whole and has a cell.
-/

namespace Chip8.Picture

/-- The bytes of a lit pixel, white, or of a dark one, black; both opaque. -/
def colour (on : Bool) : List UInt8 :=
  if on then [0xFF, 0xFF, 0xFF, 0xFF] else [0x00, 0x00, 0x00, 0xFF]

/-- The buffer with a list of cells painted over its leading groups of four bytes. -/
def paintCells : List UInt8 → List Bool → List UInt8
  | _ :: _ :: _ :: _ :: rest, on :: cells => colour on ++ paintCells rest cells
  | buffer, _ => buffer

/-- The buffer with a picture painted over it. -/
def paint (buffer : List UInt8) (cells : Vector Bool 2048) : List UInt8 :=
  paintCells buffer cells.toList

end Chip8.Picture
