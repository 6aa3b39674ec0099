import Chip8.Keypad

/-!
# The keyboard

Keys of the host's keyboard and the two layouts that place the keypad on it. `qwerty` puts the four
rows of the pad on the left block of a keyboard, `hex` puts every key on its own digit.

## Shape of forwarding

A layout is a list of entries, one for each key of the pad. `forwardEntries` goes through entries in
the order in which they are given and touches only the pad key of each, so that order is free.
-/

namespace Chip8

/-! ## Keys and layouts -/

/-- A key of the host's keyboard. -/
inductive KeyCode where
  /-- A key of the digit row. -/
  | digit (value : Fin 10)
  /-- A letter key, by its capital. -/
  | letter (capital : Char)
  /-- Any other key, by its name. -/
  | named (name : String)
deriving DecidableEq, Repr

namespace KeyCode

/-- The name of a key. -/
def name : KeyCode → String
  | digit value => "Key" ++ Numeral.decimal value.val
  | letter capital => String.singleton capital
  | named name => name

/-- The key of each digit. -/
def digits : List KeyCode :=
  (List.finRange 10).map digit

/-- The key of each letter. -/
def letters : List KeyCode :=
  "ABCDEFGHIJKLMNOPQRSTUVWXYZ".toList.map letter

/-- The key with a name. -/
def ofName (s : String) : KeyCode :=
  ((digits ++ letters).find? fun key => key.name == s).getD (named s)

end KeyCode

/-- How the keypad lies on the keyboard. -/
inductive Layout where
  | qwerty
  | hex
deriving DecidableEq, Repr

namespace Layout

/-- The name of a layout as it is given on the command line. -/
def name : Layout → String
  | qwerty => "qwerty"
  | hex => "hex"

/-- The layout of a name. -/
def ofName? (s : String) : Option Layout :=
  [qwerty, hex].find? fun layout => layout.name == s

/-- The name of a layout as it is shown. -/
def text : Layout → String
  | qwerty => "Qwerty"
  | hex => "Hex"

/-- The pad keys of the left block of a keyboard, row by row. -/
def qwertyEntries : List (KeyCode × UInt8) :=
  [(.digit 1, 0x1), (.digit 2, 0x2), (.digit 3, 0x3), (.digit 4, 0xC),
   (.letter 'Q', 0x4), (.letter 'W', 0x5), (.letter 'E', 0x6), (.letter 'R', 0xD),
   (.letter 'A', 0x7), (.letter 'S', 0x8), (.letter 'D', 0x9), (.letter 'F', 0xE),
   (.letter 'Z', 0xA), (.letter 'X', 0x0), (.letter 'C', 0xB), (.letter 'V', 0xF)]

/-- Every pad key on the key that bears its digit. -/
def hexEntries : List (KeyCode × UInt8) :=
  [(.digit 0, 0x0), (.digit 1, 0x1), (.digit 2, 0x2), (.digit 3, 0x3),
   (.digit 4, 0x4), (.digit 5, 0x5), (.digit 6, 0x6), (.digit 7, 0x7),
   (.digit 8, 0x8), (.digit 9, 0x9), (.letter 'A', 0xA), (.letter 'B', 0xB),
   (.letter 'C', 0xC), (.letter 'D', 0xD), (.letter 'E', 0xE), (.letter 'F', 0xF)]

/-- The keyboard key and the pad key of each entry. -/
def entries : Layout → List (KeyCode × UInt8)
  | qwerty => qwertyEntries
  | hex => hexEntries

/-- The pad key that a keyboard key stands for. -/
def key? (layout : Layout) (code : KeyCode) : Option UInt8 :=
  (layout.entries.find? fun entry => entry.1 == code).map Prod.snd

/-- The keyboard key that stands for a pad key. -/
def code? (layout : Layout) (key : UInt8) : Option KeyCode :=
  (layout.entries.find? fun entry => entry.2 == key).map Prod.fst

end Layout

/-! ## Forwarding -/

namespace Keypad

/-- The keypad after an event that it may refuse; a refused event changes nothing. -/
def orUnchanged (pad : Keypad) : Except Fault Keypad → Keypad
  | .ok pad' => pad'
  | .error _ => pad

/-- Moves the pad key of one entry: down if its keyboard key was pressed, else up if that was
released. -/
def forwardEntry (pressed released : KeyCode → Bool) (pad : Keypad) (entry : KeyCode × UInt8) :
    Keypad :=
  if pressed entry.1 then pad.orUnchanged (pad.press entry.2)
  else if released entry.1 then pad.orUnchanged (pad.release entry.2)
  else pad

/-- Moves the pad keys of a list of entries, one after the other. -/
def forwardEntries (pad : Keypad) (pressed released : KeyCode → Bool)
    (entries : List (KeyCode × UInt8)) : Keypad :=
  entries.foldl (forwardEntry pressed released) pad

/-- Moves the pad keys of a layout by what was pressed and released on the keyboard. -/
def forward (pad : Keypad) (layout : Layout) (pressed released : KeyCode → Bool) : Keypad :=
  pad.forwardEntries pressed released layout.entries

end Keypad

end Chip8
