/-!
# Binary floating-point numbers

The 64-bit binary format as exact data: a finite number is a significand below 2^53 times a power of
two. A quotient of naturals is rounded to the nearest number, a half to the even significand.

## Shape of the rounding

`roundHalfEven` rounds a quotient to a natural number. `ofRatio` finds the power of two at which the
quotient has 53 binary digits (or the least power of the format), rounds there, and carries into the
next power when rounding gains a digit. Each number has exactly one representation that `ofRatio`
gives, so equality of values is equality of data.
-/

namespace Chip8

/-- A 64-bit binary floating-point number. -/
inductive Binary64 where
  /-- Not a number. -/
  | nan
  | infinite (negative : Bool)
  /-- The number `significand * 2 ^ exponent` with a sign. -/
  | finite (negative : Bool) (significand : Nat) (exponent : Int)
deriving DecidableEq, Repr

namespace Binary64

/-- The exponent of the least positive number. -/
def minExponent : Int := -1074

/-- The exponent of the greatest finite number. -/
def maxExponent : Int := 971

/-- The quotient rounded to the nearest natural number, a half to the even neighbour. -/
def roundHalfEven (num den : Nat) : Nat :=
  let q := num / den
  let r := num % den
  if 2 * r > den ∨ (2 * r = den ∧ q % 2 = 1) then q + 1 else q

/-- The natural `n * base ^ e` for `e` not negative, and `n` otherwise. As a quotient of naturals,
`n * base ^ e` is `scaleUp base n e` over `scaleUp base 1 (-e)`. -/
def scaleUp (base n : Nat) (e : Int) : Nat :=
  n * base.pow e.toNat

/-- The greatest `e` with `2 ^ e ≤ num / den`, for positive naturals. -/
def binaryExponent (num den : Nat) : Int :=
  let e : Int := (num.log2 : Int) - (den.log2 : Int)
  if scaleUp 2 den e ≤ scaleUp 2 num (-e) then e else e - 1

/-- The number nearest to a quotient of naturals, with a sign. -/
def ofRatio (negative : Bool) (num den : Nat) : Binary64 :=
  if num = 0 then
    finite negative 0 minExponent
  else
    let e := max minExponent (binaryExponent num den - 52)
    let s := roundHalfEven (scaleUp 2 num (-e)) (scaleUp 2 den e)
    let (s, e) := if s = Nat.pow 2 53 then (Nat.pow 2 52, e + 1) else (s, e)
    if e > maxExponent then infinite negative else finite negative s e

/-- The number that equals a natural number below 2^53. -/
def ofNat (n : Nat) : Binary64 :=
  ofRatio false n 1

/-- The rounded quotient is off by at most a half. -/
theorem roundHalfEven_near (num den : Nat) (hden : 0 < den) :
    2 * num ≤ (2 * roundHalfEven num den + 1) * den ∧
      2 * roundHalfEven num den * den ≤ 2 * num + den := by
  have hdiv := Nat.div_add_mod num den
  have hmod := Nat.mod_lt num hden
  generalize hq : num / den = q at hdiv
  generalize hr : num % den = r at hdiv hmod
  have hround : roundHalfEven num den =
      if 2 * r > den ∨ (2 * r = den ∧ q % 2 = 1) then q + 1 else q := by
    simp only [roundHalfEven, hq, hr]
  rw [hround]
  -- all in terms of the one product `q * den`, so that what is left is linear
  have hcomm : den * q = q * den := Nat.mul_comm _ _
  split
  next h =>
    have h₁ : (2 * (q + 1) + 1) * den = 2 * (q * den) + 3 * den := by
      rw [Nat.add_mul, Nat.mul_assoc, Nat.add_mul]
      omega
    have h₂ : 2 * (q + 1) * den = 2 * (q * den) + 2 * den := by
      rw [Nat.mul_assoc, Nat.add_mul]
      omega
    omega
  next h =>
    have h₁ : (2 * q + 1) * den = 2 * (q * den) + den := by
      rw [Nat.add_mul, Nat.mul_assoc]
      omega
    have h₂ : 2 * q * den = 2 * (q * den) := Nat.mul_assoc _ _ _
    omega

end Binary64

end Chip8
