import Chip8.Binary64.Text
import Chip8.Keyboard

/-!
# Run options

How a program is run: how many instructions go with each tick of the timers, how many ticks go with
a second, how large the picture is shown, what happens at a word that is no instruction, and where
the keypad lies.
-/

namespace Chip8

/-- What the driver does at a word that is no instruction. -/
inductive UnknownPolicy where
  /-- Step over it. -/
  | skip
  /-- Stop there. -/
  | halt
deriving DecidableEq, Repr

namespace UnknownPolicy

/-- The name of a policy as it is given on the command line. -/
def name : UnknownPolicy → String
  | skip => "skip"
  | halt => "halt"

/-- The policy of a name. -/
def ofName? (s : String) : Option UnknownPolicy :=
  [skip, halt].find? fun policy => policy.name == s

/-- The name of a policy as it is shown. -/
def text : UnknownPolicy → String
  | skip => "Skip"
  | halt => "Halt"

end UnknownPolicy

/-- How a program is run. -/
structure RunOptions where
  stepsPerTick : Nat
  /-- Ticks a second. -/
  tickRate : Nat
  /-- Screen pixels for the side of a pixel of the picture. -/
  scale : Binary64
  onUnknown : UnknownPolicy
  layout : Layout
deriving DecidableEq

namespace RunOptions

/-- One step a tick, sixty ticks a second, ten-fold, unknown words skipped. -/
def standard : RunOptions where
  stepsPerTick := 1
  tickRate := 60
  scale := .ofNat 10
  onUnknown := .skip
  layout := .qwerty

/-- All options as they are shown when a program is started. -/
def text (o : RunOptions) : String :=
  "RunConfig \x7b steps_per_tick: " ++ Numeral.decimal o.stepsPerTick ++
    ", tick_rate: " ++ Numeral.decimal o.tickRate ++
    ", scale: " ++ o.scale.text ++
    ", on_unknown: " ++ o.onUnknown.text ++
    ", layout: " ++ o.layout.text ++ " \x7d"

end RunOptions

end Chip8
