import Chip8.Numeral

/-!
# Texts of numbers

What the text of a number in hexadecimal looks like, and that a number can be read back from its
text, be it hexadecimal or decimal.

## Shape of a text

`IsHex` describes the text without the way in which it is made: upper-case digits that denote the
number, at least as many as asked for, and no zero in front that is not needed for that.
`isHex_padded` says that `padded` writes such texts. A text is taken apart from its end
(`padded_succ`), so the four digits of a word are those of its two bytes side by side
(`padded_four`).
-/

namespace Chip8.Numeral

/-- The hexadecimal digits by value, letters in upper case. -/
def hexDigits : List Char :=
  ['0', '1', '2', '3', '4', '5', '6', '7', '8', '9', 'A', 'B', 'C', 'D', 'E', 'F']

/-- The number that a text of hexadecimal digits denotes. -/
def readHex (cs : List Char) : Nat :=
  value 16 (cs.map hexDigits.idxOf)

/-- The text of a number in hexadecimal with at least `width` digits. -/
structure IsHex (width n : Nat) (cs : List Char) : Prop where
  mem_hexDigits : ∀ c ∈ cs, c ∈ hexDigits
  readHex_eq : readHex cs = n
  width_le : width ≤ cs.length
  head_ne_zero : width < cs.length → cs.head? ≠ some '0'

/-! ## Digits -/

/-- Digits are written in the characters of the list. -/
theorem digitChar_mem_hexDigits : ∀ d < 16, digitChar d ∈ hexDigits := by
  decide

theorem idxOf_digitChar : ∀ d < 16, hexDigits.idxOf (digitChar d) = d := by
  decide

/-- And the character at the place of a digit is that digit. -/
theorem digitChar_idxOf {c : Char} (hc : c ∈ hexDigits) : digitChar (hexDigits.idxOf c) = c := by
  have hdigits : hexDigits = (List.range 16).map digitChar := by decide
  rw [hdigits] at hc
  obtain ⟨d, hd, rfl⟩ := List.mem_map.mp hc
  rw [idxOf_digitChar d (List.mem_range.mp hd)]

/-- The first ten of them are the decimal digits. -/
theorem decimalDigit?_digitChar : ∀ d < 10, decimalDigit? (digitChar d) = some d := by
  decide

/-- No digit but zero looks like zero. -/
theorem digitChar_eq_zero : ∀ d < 16, digitChar d = '0' → d = 0 := by
  decide

/-- The last digit is the remainder by the base, and the others are those of the quotient. -/
theorem digits_of_le {base n : Nat} (hb : 2 ≤ base) (hn : base ≤ n) :
    digits base n = digits base (n / base) ++ [n % base] := by
  rw [digits, dif_pos ⟨hb, hn⟩]

/-- A number below the base is a digit. -/
theorem digits_of_lt {base n : Nat} (hn : n < base) : digits base n = [n] := by
  rw [digits, dif_neg fun h => absurd h.2 (Nat.not_le.mpr hn)]

theorem digits_ne_nil (base n : Nat) : digits base n ≠ [] := by
  rw [digits]
  split <;> simp

/-- A number other than zero does not begin with the digit zero. -/
theorem head?_digits_ne_zero {base n : Nat} (hn : n ≠ 0) : (digits base n).head? ≠ some 0 := by
  fun_induction digits base n with
  | case1 n h ih =>
    have hquotient : n / base ≠ 0 := Nat.pos_iff_ne_zero.mp (Nat.div_pos h.2 (by omega))
    obtain ⟨d, ds, hd⟩ := List.exists_cons_of_ne_nil (digits_ne_nil base (n / base))
    rw [hd] at ih ⊢
    exact ih hquotient
  | case2 n h => simpa using hn

/-- Zeros in front count for nothing. -/
theorem value_replicate_zero_append (base k : Nat) (ds : List Nat) :
    value base (List.replicate k 0 ++ ds) = value base ds := by
  induction k with
  | zero => rfl
  | succ k ih =>
    rw [List.replicate_succ, List.cons_append, ← ih]
    simp [value]

/-! ## Padded texts -/

/-- Reading a padded text gives the number. -/
theorem readHex_padded (width n : Nat) : readHex (padded 16 width n) = n := by
  have hdigits : ((digits 16 n).map digitChar).map hexDigits.idxOf = digits 16 n := by
    rw [List.map_map, List.map_congr_left (g := id)]
    · exact List.map_id _
    · exact fun d hd => idxOf_digitChar d (lt_of_mem_digits (by decide) hd)
  have hzero : hexDigits.idxOf '0' = 0 := by decide
  rw [readHex, padded, List.map_append, List.map_replicate, hdigits, hzero,
    value_replicate_zero_append, value_digits]

/-- Up to hexadecimal, texts are made of hexadecimal digits. -/
theorem mem_hexDigits_of_mem_padded {base width n : Nat} {c : Char} (hb : 2 ≤ base)
    (hle : base ≤ 16) (hc : c ∈ padded base width n) : c ∈ hexDigits := by
  rw [padded] at hc
  rcases List.mem_append.mp hc with h | h
  · rw [List.eq_of_mem_replicate h]
    decide
  · obtain ⟨d, hd, rfl⟩ := List.mem_map.mp h
    exact digitChar_mem_hexDigits d (Nat.lt_of_lt_of_le (lt_of_mem_digits hb hd) hle)

/-- A text of a number begins with nothing but a digit. -/
theorem head?_padded_ne {base width n : Nat} {c : Char} (hb : 2 ≤ base) (hle : base ≤ 16)
    (hc : c ∉ hexDigits) : (padded base width n).head? ≠ some c :=
  fun hhead => hc (mem_hexDigits_of_mem_padded hb hle (List.mem_of_head? hhead))

/-- A padded text is a hexadecimal text of the number. -/
theorem isHex_padded {width : Nat} (hw : 0 < width) (n : Nat) :
    IsHex width n (padded 16 width n) where
  mem_hexDigits _ := mem_hexDigits_of_mem_padded (by decide) (by decide)
  readHex_eq := readHex_padded width n
  width_le := by
    simp only [padded, List.length_append, List.length_replicate]
    omega
  head_ne_zero h := by
    -- a text longer than asked for is not padded, and then it has more than one digit
    simp only [padded, List.length_append, List.length_replicate, List.length_map] at h
    have hlong : width < (digits 16 n).length := by omega
    have hn : n ≠ 0 := by
      rintro rfl
      rw [digits_of_lt (by decide)] at hlong
      simp only [List.length_singleton] at hlong
      omega
    rw [padded, List.length_map, Nat.sub_eq_zero_of_le (Nat.le_of_lt hlong), List.replicate_zero,
      List.nil_append, List.head?_map]
    intro hhead
    obtain ⟨d, hd, hzero⟩ := Option.map_eq_some_iff.mp hhead
    have hlt : d < 16 := lt_of_mem_digits (by decide) (List.mem_of_head? hd)
    rw [digitChar_eq_zero d hlt hzero] at hd
    exact head?_digits_ne_zero hn hd

/-! ## Texts of a fixed number of digits -/

/-- The last digit of a text stands for the remainder, those before it for the quotient. -/
theorem padded_succ {base width : Nat} (hb : 2 ≤ base) (hw : 0 < width) (n : Nat) :
    padded base (width + 1) n = padded base width (n / base) ++ [digitChar (n % base)] := by
  by_cases hn : base ≤ n
  · simp only [padded, digits_of_le hb hn, List.map_append, List.length_append, List.map_cons,
      List.map_nil, List.length_singleton, Nat.add_sub_add_right, List.append_assoc]
  · -- the quotient is zero, whose only digit is one of those that fill up the text
    have hlt : n < base := Nat.not_le.mp hn
    obtain ⟨k, rfl⟩ := Nat.exists_eq_succ_of_ne_zero (Nat.ne_of_gt hw)
    have hzero : digitChar 0 = '0' := rfl
    simp only [padded, digits_of_lt hlt, Nat.div_eq_of_lt hlt, Nat.mod_eq_of_lt hlt,
      digits_of_lt (Nat.lt_of_lt_of_le Nat.two_pos hb), List.map_cons, List.map_nil, hzero,
      List.length_singleton, Nat.succ_eq_add_one, Nat.add_sub_cancel, List.replicate_succ']

/-- There is always one digit, so a text of at least one is not filled up. -/
theorem padded_one (base n : Nat) : padded base 1 n = (digits base n).map digitChar := by
  have hlength := List.length_pos_iff.mpr (digits_ne_nil base n)
  rw [padded, List.length_map, Nat.sub_eq_zero_of_le hlength, List.replicate_zero, List.nil_append]

theorem padded_one_of_lt {base n : Nat} (hn : n < base) : padded base 1 n = [digitChar n] := by
  rw [padded_one, digits_of_lt hn]
  rfl

/-- A byte has two digits. -/
theorem padded_two_of_lt {n : Nat} (hn : n < 256) :
    padded 16 2 n = [digitChar (n / 16), digitChar (n % 16)] := by
  rw [padded_succ (by decide) (by decide), padded_one_of_lt (by omega)]
  rfl

/-- The digits of a word are those of its high byte and then those of its low byte. -/
theorem padded_four {hi lo : Nat} (hlo : lo < 256) :
    padded 16 4 (hi * 256 + lo) = padded 16 2 hi ++ padded 16 2 lo := by
  have hhigh : (hi * 256 + lo) / 16 / 16 = hi := by omega
  have hmiddle : (hi * 256 + lo) / 16 % 16 = lo / 16 := by omega
  have hlow : (hi * 256 + lo) % 16 = lo % 16 := by omega
  rw [padded_succ (by decide) (by decide), padded_succ (by decide) (by decide), hhigh, hmiddle,
    hlow, padded_two_of_lt hlo, List.append_assoc]
  rfl

/-! ## Decimal texts -/

/-- Decimal digits are read to the end of a text. -/
theorem spanDigits_map_digitChar {ds : List Nat} (hds : ∀ d ∈ ds, d < 10) :
    spanDigits (ds.map digitChar) = (ds, []) := by
  induction ds with
  | nil => rfl
  | cons d ds ih =>
    rw [List.map_cons, spanDigits, decimalDigit?_digitChar d (hds d List.mem_cons_self)]
    simp only [ih fun d hd => hds d (List.mem_cons_of_mem _ hd)]

/-- Decimal digits are read as the number that they denote. -/
theorem readDecimal?_map_digitChar {ds : List Nat} (hne : ds ≠ []) (hds : ∀ d ∈ ds, d < 10) :
    readDecimal? (ds.map digitChar) = some (value 10 ds) := by
  obtain ⟨d, rest, rfl⟩ := List.exists_cons_of_ne_nil hne
  rw [readDecimal?, spanDigits_map_digitChar hds]

/-- Reading a decimal text gives the number, be there zeros in front or not. -/
theorem readDecimal?_padded (width n : Nat) : readDecimal? (padded 10 width n) = some n := by
  have hpadded : padded 10 width n =
      (List.replicate (width - (digits 10 n).length) 0 ++ digits 10 n).map digitChar := by
    rw [padded, List.length_map, List.map_append, List.map_replicate]
    rfl
  rw [hpadded, readDecimal?_map_digitChar, value_replicate_zero_append, value_digits]
  · exact List.append_ne_nil_of_right_ne_nil _ (digits_ne_nil 10 n)
  · intro d hd
    rcases List.mem_append.mp hd with hzero | hdigit
    · rw [List.eq_of_mem_replicate hzero]
      decide
    · exact lt_of_mem_digits (by decide) hdigit

end Chip8.Numeral
