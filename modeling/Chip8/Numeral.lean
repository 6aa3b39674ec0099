/-!
# Numerals

Positional numerals as the program writes them: upper-case hexadecimal, padded on the left with
zeros to a least width, and plain decimal.

## Shape of a numeral

`digits base n` is the list of digit values, the highest first, and zero has the single digit `0`.
Every text of a number goes through it: a writer maps the digits to characters and pads.
`value base ds` reads a list of digit values back, and `value_digits` says that nothing is lost.
-/

namespace Chip8.Numeral

/-- The digit values of `n` in a base of two or more, the highest first. -/
def digits (base n : Nat) : List Nat :=
  if _h : 2 ≤ base ∧ base ≤ n then digits base (n / base) ++ [n % base] else [n]
termination_by n
decreasing_by exact Nat.div_lt_self (by omega) (by omega)

/-- The number that a list of digit values denotes, the highest digit first. -/
def value (base : Nat) (ds : List Nat) : Nat :=
  ds.foldl (fun n d => n * base + d) 0

/-- The character of a digit value below sixteen, letters in upper case. -/
def digitChar (d : Nat) : Char :=
  if d < 10 then Char.ofNat (48 + d) else Char.ofNat (55 + d)

/-- The characters of `n` in a base up to sixteen, padded with zeros to at least `width`. -/
def padded (base width n : Nat) : List Char :=
  let cs := (digits base n).map digitChar
  List.replicate (width - cs.length) '0' ++ cs

/-- Upper-case hexadecimal with at least `width` digits. -/
def hex (width n : Nat) : String :=
  String.ofList (padded 16 width n)

/-- Upper-case hexadecimal behind the mark `0x`, with at least `width` digits. -/
def marked (width n : Nat) : String :=
  "0x" ++ hex width n

/-- Decimal, without padding. -/
def decimal (n : Nat) : String :=
  String.ofList (padded 10 1 n)

/-- The value of a decimal digit character; every other character has none. -/
def decimalDigit? (c : Char) : Option Nat :=
  if '0' ≤ c ∧ c ≤ '9' then some (c.toNat - 48) else none

/-- The leading decimal digits of a text, and the rest. -/
def spanDigits : List Char → List Nat × List Char
  | [] => ([], [])
  | c :: cs =>
    match decimalDigit? c with
    | some d => let (ds, rest) := spanDigits cs; (d :: ds, rest)
    | none => ([], c :: cs)

/-- The number that a text of decimal digits alone denotes. -/
def readDecimal? (cs : List Char) : Option Nat :=
  match spanDigits cs with
  | (d :: ds, []) => some (value 10 (d :: ds))
  | _ => none

/-- One more digit at the end multiplies by the base and adds the digit. -/
theorem value_append_singleton (base : Nat) (ds : List Nat) (d : Nat) :
    value base (ds ++ [d]) = value base ds * base + d := by
  simp [value]

/-- Reading the digits of a number gives the number. -/
theorem value_digits (base n : Nat) : value base (digits base n) = n := by
  fun_induction digits base n with
  | case1 n h ih => rw [value_append_singleton, ih, Nat.mul_comm, Nat.div_add_mod]
  | case2 n h => simp [value]

/-- Every digit of a number is below the base. -/
theorem lt_of_mem_digits {base n d : Nat} (hb : 2 ≤ base) (hd : d ∈ digits base n) : d < base := by
  fun_induction digits base n with
  | case1 n h ih =>
    rcases List.mem_append.1 hd with h' | h'
    · exact ih h'
    · rw [List.mem_singleton.1 h']
      exact Nat.mod_lt _ (by omega)
  | case2 n h =>
    rw [List.mem_singleton.1 hd]
    omega

end Chip8.Numeral
