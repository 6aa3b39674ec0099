import Chip8.Binary64.Basic
import Chip8.Numeral

/-!
# The shortest decimal of a binary number

The decimal with the fewest digits that reads back as a given positive number, and of those the one
nearest to it.

## Shape of the search

A number `s * 2 ^ e` is read back from every decimal in the interval up to half way to its two
neighbours; the ends belong to it when `s` is even, because a half is rounded to even. On the grid
of decimals with a given number of digits only the two points around the number can be nearest, so
the search tries one digit, two digits and so on up to seventeen, which always suffice.
-/

namespace Chip8.Binary64

/-- The decimal `digits * 10 ^ exponent`. -/
structure Decimal where
  digits : Nat
  exponent : Int
deriving DecidableEq, Repr

/-- The greatest `t` with `10 ^ t ≤ num / den`, for positive naturals. -/
def decimalExponent (num den : Nat) : Int :=
  if den ≤ num then
    ((Numeral.digits 10 (num / den)).length : Int) - 1
  else
    -((Numeral.digits 10 ((den - 1) / num)).length : Int)

/-- A decimal grid laid over the quarters of a binary number's unit: decimals `d * 10 ^ exponent`
and multiples `k * 2 ^ quarter` as naturals on one scale. -/
structure Grid where
  exponent : Int
  quarter : Int

namespace Grid

/-- A point of the grid on the common scale. -/
def point (g : Grid) (d : Nat) : Nat :=
  scaleUp 2 (scaleUp 10 d g.exponent) (-g.quarter)

/-- A multiple of a quarter unit on the common scale. -/
def quarters (g : Grid) (k : Nat) : Nat :=
  scaleUp 2 (scaleUp 10 k (-g.exponent)) g.quarter

end Grid

/-- The quarter units from `s` down to the lower end of its interval: half a unit, and half of that
where the numbers below lie twice as close. -/
def gapBelow (s : Nat) (e : Int) : Nat :=
  if s = Nat.pow 2 52 ∧ e > minExponent then 1 else 2

/-- Whether a point of the grid reads back as `s * 2 ^ e`. -/
def readsBack (s : Nat) (e : Int) (g : Grid) (d : Nat) : Bool :=
  let p := g.point d
  let low := g.quarters (4 * s - gapBelow s e)
  let high := g.quarters (4 * s + 2)
  if s % 2 = 0 then low ≤ p && p ≤ high else low < p && p < high

/-- The point with a given number of digits that reads back and is nearest, the greater one of two
at equal distance. -/
def onGrid? (s : Nat) (e : Int) (g : Grid) : Option Nat :=
  let centre := g.quarters (4 * s)
  let below := centre / g.point 1
  let above := below + 1
  match readsBack s e g below, readsBack s e g above with
  | true, true => some (if g.point above - centre ≤ centre - g.point below then above else below)
  | true, false => some below
  | false, true => some above
  | false, false => none

/-- The first hit among the grids with `count`, `count + 1`, … digits, `tries` of them. -/
def search (s : Nat) (e top : Int) : Nat → Nat → Option Decimal
  | 0, _ => none
  | tries + 1, count =>
    let exponent := top - count + 1
    match onGrid? s e ⟨exponent, e - 2⟩ with
    | some d => some ⟨d, exponent⟩
    | none => search s e top tries (count + 1)

/-- The shortest decimal that reads back as the positive number `s * 2 ^ e`. -/
def shortest (s : Nat) (e : Int) : Decimal :=
  let top := decimalExponent (scaleUp 2 s e) (scaleUp 2 1 (-e))
  (search s e top 17 1).getD ⟨0, 0⟩

end Chip8.Binary64
