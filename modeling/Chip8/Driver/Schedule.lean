import Chip8.Driver.Basic

/-!
# The schedule of frames

Frames are due at whole multiples of an interval. The host wakes up at times of its own, asks how
many frames are due, and waits until the next is. Times are nanoseconds after a common origin.

## Shape of the count

`catchUp` counts the due frames of a schedule and moves the schedule past them. It serves only a few
of them at a time: a longer backlog is dropped, and the schedule starts anew one interval from now.
-/

namespace Chip8

namespace Schedule

/-- The number of frames that one wake-up plays at most. -/
abbrev maxCatchUp : Nat := 4

/-- Counts the frames due at `now`, at most `limit` of them, and gives the time of the next. -/
def catchUp (interval now : Nat) : Nat → Nat → Nat × Nat
  | 0, next => if next ≤ now then (0, now + interval) else (0, next)
  | limit + 1, next =>
    if next ≤ now then
      let (due, next) := catchUp interval now limit (next + interval)
      (due + 1, next)
    else
      (0, next)

/-- The frames due at `now` when the next was planned for `next`, and the time of the one after. -/
def framesDue (interval next now : Nat) : Nat × Nat :=
  catchUp interval now maxCatchUp next

/-- The nanoseconds of a time in seconds, rounded to the nearest, a half to even. -/
def nanoseconds : Binary64 → Nat
  | .finite _ s e => Binary64.roundHalfEven (Binary64.scaleUp 2 (s * 1000000000) e)
      (Binary64.scaleUp 2 1 (-e))
  | _ => 0

/-- The time between two ticks: a second divided by the rate as a binary number, then rounded to
whole nanoseconds. -/
def interval (tickRate : Nat) : Nat :=
  nanoseconds (Binary64.ofRatio false 1 tickRate)

end Schedule

namespace Driver

/-- The time between two frames, in nanoseconds. -/
def interval (d : Driver) : Nat :=
  Schedule.interval d.options.tickRate

/-- The frames due at `now`, and the time of the next one after them. -/
def framesDue (d : Driver) (next now : Nat) : Nat × Nat :=
  Schedule.framesDue d.interval next now

end Driver

end Chip8
