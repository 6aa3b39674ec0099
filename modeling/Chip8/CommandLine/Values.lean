import Chip8.CommandLine.Basic

/-!
# Values of options

The values that a scope has been given so far, and how a text is read into a slot.
-/

namespace Chip8.CommandLine

/-- The values given so far. -/
structure Values where
  path : Option String
  debug : Option LogLevel
  stepsPerTick : Option Nat
  tickRate : Option Nat
  scale : Option Binary64
  onUnknown : Option UnknownPolicy
  layout : Option Layout
  outputFile : Option String
deriving DecidableEq

namespace Values

/-- Nothing given. -/
def none : Values where
  path := .none
  debug := .none
  stepsPerTick := .none
  tickRate := .none
  scale := .none
  onUnknown := .none
  layout := .none
  outputFile := .none

/-- The greatest count that an option takes. -/
abbrev maxCount : Nat := 4294967295

/-- Reads a count: digits with an optional plus, from 1 to the greatest count. -/
def readCount (text : String) : Except Refusal Nat :=
  let digits := match text.toList with
    | '+' :: cs => cs
    | cs => cs
  match Numeral.readDecimal? digits with
  | some n => if 1 ≤ n ∧ n ≤ maxCount then .ok n else .error .invalidNumber
  | .none => .error .invalidNumber

/-- Reads the factor of the picture. -/
def readScale (text : String) : Except Refusal Binary64 :=
  match Binary64.read? text with
  | some x => .ok x
  | .none => .error .invalidNumber

/-- Reads a path, which may not be empty. -/
def readPath (text : String) : Except Refusal String :=
  if text = "" then .error .invalidValue else .ok text

/-- Reads one of a few names. -/
def readName {α : Type} (value? : Option α) : Except Refusal α :=
  match value? with
  | some a => .ok a
  | .none => .error .invalidValue

/-- Fills a slot that must be empty. That it is comes before what the text says. -/
def fill {α : Type} (old : Option α) (new : Except Refusal α) : Except Refusal (Option α) :=
  match old with
  | some _ => .error .repeated
  | .none => new.map some

/-- The values with the text of one slot taken in. -/
def accept (v : Values) (slot : Slot) (text : String) : Except Refusal Values :=
  match slot with
  | .path => (fill v.path (readPath text)).map fun x => { v with path := x }
  | .debug => (fill v.debug (readName (LogLevel.ofName? text))).map fun x => { v with debug := x }
  | .stepsPerTick =>
    (fill v.stepsPerTick (readCount text)).map fun x => { v with stepsPerTick := x }
  | .tickRate => (fill v.tickRate (readCount text)).map fun x => { v with tickRate := x }
  | .scale => (fill v.scale (readScale text)).map fun x => { v with scale := x }
  | .onUnknown =>
    (fill v.onUnknown (readName (UnknownPolicy.ofName? text))).map fun x =>
      { v with onUnknown := x }
  | .layout => (fill v.layout (readName (Layout.ofName? text))).map fun x => { v with layout := x }
  | .outputFile => (fill v.outputFile (readPath text)).map fun x => { v with outputFile := x }

/-- The run options of the values, the standard ones where none is given. -/
def runOptions (v : Values) : RunOptions where
  stepsPerTick := v.stepsPerTick.getD RunOptions.standard.stepsPerTick
  tickRate := v.tickRate.getD RunOptions.standard.tickRate
  scale := v.scale.getD RunOptions.standard.scale
  onUnknown := v.onUnknown.getD RunOptions.standard.onUnknown
  layout := v.layout.getD RunOptions.standard.layout

end Values

end Chip8.CommandLine
