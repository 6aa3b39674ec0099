import Chip8.Binary64.Shortest

/-!
# Text of a binary number

A number is written with the fewest digits that read back, always with a fraction, and positionally
when it is zero or between 10^-4 and 10^16. Outside of that range it is written with one digit
before the point and a power of ten.

A number is read from an optional sign and digits with an optional fraction and an optional power of
ten, or from one of the words `inf`, `infinity` and `nan` in any case.
-/

namespace Chip8.Binary64

/-! ## Writing -/

/-- The digits of a natural number without its trailing zeros. -/
def significantDigits (n : Nat) : List Char :=
  (((Numeral.padded 10 1 n).reverse).dropWhile (· == '0')).reverse

/-- Digits written without an exponent, the first of them worth a given power of ten; zeros fill the
places up to the point. -/
def positional (cs : List Char) (power : Int) : List Char :=
  match power with
  | .ofNat k =>
    let whole := cs.take (k + 1)
    let fraction := cs.drop (k + 1)
    whole ++ List.replicate (k + 1 - whole.length) '0' ++ ['.'] ++
      (if fraction.isEmpty then ['0'] else fraction)
  | .negSucc k => ['0', '.'] ++ List.replicate k '0' ++ cs

/-- A signed decimal without a plus. -/
def signed (n : Int) : List Char :=
  (if n < 0 then ['-'] else []) ++ Numeral.padded 10 1 n.natAbs

/-- One digit before the point, and a power of ten. -/
def scientific (cs : List Char) (power : Int) : List Char :=
  let tail := cs.drop 1
  cs.take 1 ++ (if tail.isEmpty then [] else '.' :: tail) ++ 'e' :: signed power

/-- The text of a positive finite number. -/
def magnitudeText (s : Nat) (e : Int) : List Char :=
  let d := shortest s e
  let power := d.exponent + ((Numeral.padded 10 1 d.digits).length : Int) - 1
  let cs := significantDigits d.digits
  if -4 ≤ power ∧ power < 16 then positional cs power else scientific cs power

/-- The text of a number. -/
def text : Binary64 → String
  | nan => "NaN"
  | infinite negative => (if negative then "-" else "") ++ "inf"
  | finite negative s e =>
    (if negative then "-" else "") ++ if s = 0 then "0.0" else String.ofList (magnitudeText s e)

/-! ## Reading -/

/-- Takes a sign off a text: whether it is a minus, and the rest. -/
def takeSign : List Char → Bool × List Char
  | '-' :: cs => (true, cs)
  | '+' :: cs => (false, cs)
  | cs => (false, cs)

/-- The power of ten that a text ends with: nothing, or a mark, an optional sign and digits. -/
def readPower? : List Char → Option Int
  | [] => some 0
  | c :: cs =>
    if c = 'e' ∨ c = 'E' then
      let (negative, cs) := takeSign cs
      (Numeral.readDecimal? cs).map fun n => if negative then -(n : Int) else n
    else
      none

/-- The fraction that a text goes on with, if a point follows. -/
def takeFraction : List Char → List Nat × List Char
  | '.' :: cs => Numeral.spanDigits cs
  | cs => ([], cs)

/-- The number nearest to `digits * 10 ^ power`. Far outside of the format's range the answer is
known without computing the power. -/
def ofDecimal (negative : Bool) (digits : Nat) (power : Int) : Binary64 :=
  let top := ((Numeral.digits 10 digits).length : Int) + power
  if digits = 0 ∨ top < -400 then
    finite negative 0 minExponent
  else if top > 400 then
    infinite negative
  else
    ofRatio negative (scaleUp 10 digits power) (scaleUp 10 1 (-power))

/-- Reads the digits, fraction and power of ten of a number. -/
def readDecimal? (negative : Bool) (cs : List Char) : Option Binary64 :=
  let (whole, cs) := Numeral.spanDigits cs
  let (fraction, cs) := takeFraction cs
  if whole.isEmpty && fraction.isEmpty then
    none
  else
    (readPower? cs).map fun power =>
      ofDecimal negative (Numeral.value 10 (whole ++ fraction)) (power - fraction.length)

/-- Reads a number. -/
def read? (s : String) : Option Binary64 :=
  let (negative, cs) := takeSign s.toList
  let word := String.ofList (cs.map Char.toLower)
  if word = "inf" ∨ word = "infinity" then some (infinite negative)
  else if word = "nan" then some nan
  else readDecimal? negative cs

end Chip8.Binary64
