import Chip8.Instruction.Encode
import Chip8.Proofs.Instruction.Range
import Chip8.Proofs.Numeral
import Mathlib.Data.List.Forall2

/-!
# The instruction table

The table of instructions as patterns of four characters, and decoding and encoding as the two
readings of it.

## Shape of the proof

A word is known by its four digits (`Opcode.toNat_eq`). The rows of the table are built in three
ways, from an address, from a register and a byte, and from two registers and a digit. For each of
them there is one lemma on the fields of the word that is built and one that builds a word again
from its own fields. With these every row is gone through once for each direction.
-/

namespace Chip8

namespace Opcode

variable {w : UInt16} {f low k : Nat}

/-! ## Fields of a word that is put together -/

/-- A word is its family with three digits behind it. -/
theorem toNat_word (hf : f < 16) (low : Nat) : (word f low).toNat = f * 4096 + low % 4096 := by
  rw [word, UInt16.toNat_ofNat']
  omega

@[simp] theorem family_word (hf : f < 16) (low : Nat) : family (word f low) = f := by
  rw [family, toNat_word hf]
  omega

/-- The address is read back from the word that it was put into. -/
theorem address_word (hf : f < 16) {a : UInt16} (ha : a.toNat < 4096) :
    address (word f a.toNat) = a := by
  apply UInt16.toNat.inj
  rw [toNat_address, toNat_word hf]
  omega

/-- A word is its family and its address. -/
theorem word_address (hf : family w = f) : word f (address w).toNat = w := by
  have hlt := family_lt w
  apply UInt16.toNat.inj
  rw [toNat_word (hf ▸ hlt), toNat_address, ← hf, family]
  omega

/-- The word with zero for its third digit. -/
def clearY (w : UInt16) : UInt16 :=
  word (family w) ((x w).toNat * 256 + (n w).toNat)

@[simp] theorem family_clearY (w : UInt16) : family (clearY w) = family w :=
  family_word (family_lt w) _

@[simp] theorem n_clearY (w : UInt16) : n (clearY w) = n w := by
  apply UInt8.toNat.inj
  rw [toNat_n, clearY, toNat_word (family_lt w), toNat_x, toNat_n]
  omega

end Opcode

namespace Instruction

open Opcode

variable {w : UInt16} {f : Nat} {a b c : UInt8}

/-- The family, a register and a byte, from left to right. -/
theorem toNat_registerByte (hf : f < 16) (a b : UInt8) :
    (registerByte f a b).toNat = f * 4096 + a.toNat % 16 * 256 + b.toNat := by
  have hb := b.toNat_lt
  rw [registerByte, toNat_word hf]
  omega

@[simp] theorem family_registerByte (hf : f < 16) (a b : UInt8) : family (registerByte f a b) = f :=
  family_word hf _

@[simp] theorem x_registerByte (hf : f < 16) (ha : a.toNat < 16) (b : UInt8) :
    Opcode.x (registerByte f a b) = a := by
  have hb := b.toNat_lt
  apply UInt8.toNat.inj
  rw [toNat_x, toNat_registerByte hf]
  omega

@[simp] theorem nn_registerByte (hf : f < 16) (a b : UInt8) : nn (registerByte f a b) = b := by
  have hb := b.toNat_lt
  apply UInt8.toNat.inj
  rw [toNat_nn, toNat_registerByte hf]
  omega

/-- A word is its family, its register and its byte. -/
theorem registerByte_x (hf : family w = f) (hb : b.toNat = w.toNat % 256) :
    registerByte f (Opcode.x w) b = w := by
  have hlt := family_lt w
  apply UInt16.toNat.inj
  rw [toNat_registerByte (hf ▸ hlt), toNat_x, hb, ← hf, family]
  omega

@[simp] theorem family_registerPair (hf : f < 16) (a b : UInt8) (k : Nat) :
    family (registerPair f a b k) = f :=
  family_word hf _

@[simp] theorem x_registerPair (hf : f < 16) (ha : a.toNat < 16) (b : UInt8) (k : Nat) :
    Opcode.x (registerPair f a b k) = a := by
  apply UInt8.toNat.inj
  rw [toNat_x, registerPair, toNat_word hf]
  omega

@[simp] theorem y_registerPair (hf : f < 16) (a : UInt8) (hb : b.toNat < 16) (k : Nat) :
    Opcode.y (registerPair f a b k) = b := by
  apply UInt8.toNat.inj
  rw [toNat_y, registerPair, toNat_word hf]
  omega

@[simp] theorem n_registerPair (hf : f < 16) (a b : UInt8) {k : Nat} (hk : k < 16) :
    n (registerPair f a b k) = UInt8.ofNat k := by
  apply UInt8.toNat.inj
  rw [toNat_n, registerPair, toNat_word hf, UInt8.toNat_ofNat']
  omega

/-- A word is its family, its two registers and its last digit. -/
theorem registerPair_x_y (hf : family w = f) {k : Nat} (hk : w.toNat % 16 = k) :
    registerPair f (Opcode.x w) (Opcode.y w) k = w := by
  have hlt := family_lt w
  apply UInt16.toNat.inj
  rw [registerPair, toNat_word (hf ▸ hlt), toNat_x, toNat_y, ← hk, ← hf, family]
  omega

/-- With no second register, the word is the one with zero in its place. -/
theorem registerPair_x_zero (hf : family w = f) {k : Nat} (hk : w.toNat % 16 = k) :
    registerPair f (Opcode.x w) 0 k = clearY w := by
  have hlt := family_lt w
  have hzero : (0 : UInt8).toNat = 0 := rfl
  apply UInt16.toNat.inj
  rw [clearY, registerPair, toNat_word (hf ▸ hlt), toNat_word hlt, toNat_x, toNat_n, hzero, ← hk,
    ← hf, family]
  omega

/-! ## Decoding what is encoded -/

/-- What is encoded is decoded again. -/
theorem decode?_encode {i : Instruction} (hi : i.InRange) : decode? i.encode = some i := by
  cases i
  case clear | ret => rfl
  case jump a | call a | setIndex a | jumpOffset a =>
    simp [encode, decode?, address_word, show a.toNat < 4096 from hi]
  case skipEqByte x nn | skipNeByte x nn | loadByte x nn | addByte x nn | random x nn =>
    simp [encode, decode?, show x.toNat < 16 from hi]
  case skipEq x y | skipNe x y =>
    simp [encode, decode?, hi.1, hi.2]
  case move x y | or x y | and x y | xor x y | add x y | sub x y | subFrom x y =>
    simp [encode, decode?, decodeArithmetic?, hi.1, hi.2]
  case shiftRight x | shiftLeft x =>
    simp [encode, decode?, decodeArithmetic?, show x.toNat < 16 from hi]
  case draw x y n =>
    simp [encode, decode?, hi.1, hi.2.1, hi.2.2]
  case skipKey x | skipNotKey x =>
    simp [encode, decode?, show x.toNat < 16 from hi]
  all_goals
    simp [encode, decode?, decodeTransfer?, show _ < 16 from hi]

/-! ## Encoding what is decoded -/

/-- The shifts, whose words have a digit that no operand is read from. -/
def isShift : Instruction → Bool
  | shiftRight _ | shiftLeft _ => true
  | _ => false

/-- Arithmetic is encoded as the word that it was decoded from, shifts with a zero in them. -/
theorem encode_of_decodeArithmetic? {i : Instruction} (hf : family w = 0x8)
    (h : decodeArithmetic? (Opcode.x w) (Opcode.y w) (n w) = some i) :
    i.encode = if i.isShift then clearY w else w := by
  unfold decodeArithmetic? at h
  split at h <;> rename_i hn <;> cases h
  case h_7 | h_9 =>
    exact registerPair_x_zero hf (toNat_n w ▸ hn)
  all_goals exact registerPair_x_y hf (toNat_n w ▸ hn)

theorem encode_of_decodeTransfer? {i : Instruction} (hf : family w = 0xF)
    (h : decodeTransfer? (Opcode.x w) (nn w) = some i) :
    i.encode = if i.isShift then clearY w else w := by
  unfold decodeTransfer? at h
  split at h <;> rename_i hnn <;> cases h
  all_goals exact registerByte_x hf (toNat_nn w ▸ hnn.symm)

/-- What is decoded is encoded as the same word, shifts with a zero in them. -/
theorem encode_of_decode? {i : Instruction} (h : decode? w = some i) :
    i.encode = if i.isShift then clearY w else w := by
  simp only [decode?] at h
  split at h <;> rename_i hf
  case h_9 => exact encode_of_decodeArithmetic? hf h
  case h_16 => exact encode_of_decodeTransfer? hf h
  case h_1 =>
    split at h
    next hw =>
      cases h
      exact hw.symm
    next =>
      split at h
      next hw =>
        cases h
        exact hw.symm
      next => cases h
  case h_2 | h_3 | h_11 | h_12 =>
    cases h
    exact word_address hf
  case h_4 | h_5 | h_7 | h_8 | h_13 =>
    cases h
    exact registerByte_x hf (toNat_nn w)
  case h_6 | h_10 =>
    split at h
    next hn =>
      cases h
      exact registerPair_x_y hf (toNat_n w ▸ congrArg UInt8.toNat hn)
    next => cases h
  case h_14 =>
    cases h
    exact registerPair_x_y hf (toNat_n w).symm
  case h_15 =>
    split at h
    next hnn =>
      cases h
      exact registerByte_x hf (hnn ▸ toNat_nn w)
    next =>
      split at h
      next hnn =>
        cases h
        exact registerByte_x hf (hnn ▸ toNat_nn w)
      next => cases h
  case h_17 => cases h

/-! ## Patterns -/

/-- The row of the table that an instruction stands in. `X`, `Y` and `N` are places for operands. -/
def pattern : Instruction → String
  | clear => "00E0"
  | ret => "00EE"
  | jump _ => "1NNN"
  | call _ => "2NNN"
  | skipEqByte _ _ => "3XNN"
  | skipNeByte _ _ => "4XNN"
  | skipEq _ _ => "5XY0"
  | loadByte _ _ => "6XNN"
  | addByte _ _ => "7XNN"
  | move _ _ => "8XY0"
  | or _ _ => "8XY1"
  | and _ _ => "8XY2"
  | xor _ _ => "8XY3"
  | add _ _ => "8XY4"
  | sub _ _ => "8XY5"
  | shiftRight _ => "8XY6"
  | subFrom _ _ => "8XY7"
  | shiftLeft _ => "8XYE"
  | skipNe _ _ => "9XY0"
  | setIndex _ => "ANNN"
  | jumpOffset _ => "BNNN"
  | random _ _ => "CXNN"
  | draw _ _ _ => "DXYN"
  | skipKey _ => "EX9E"
  | skipNotKey _ => "EXA1"
  | getDelay _ => "FX07"
  | waitKey _ => "FX0A"
  | setDelay _ => "FX15"
  | setSound _ => "FX18"
  | addIndex _ => "FX1E"
  | glyph _ => "FX29"
  | bcd _ => "FX33"
  | store _ => "FX55"
  | restore _ => "FX65"

/-- Whether a digit can stand in a place of a pattern. Where the pattern has a digit, only that one
can. -/
def Admits (place digit : Char) : Prop :=
  place ∈ Numeral.hexDigits → digit = place

/-- A word matches a pattern if its text in hexadecimal has the digits of the pattern in their
places. -/
def Matches (w : UInt16) (pattern : String) : Prop :=
  List.Forall₂ Admits pattern.toList (Numeral.padded 16 4 w.toNat)

/-- The text of a word shows its four digits. -/
theorem padded_eq_map (w : UInt16) : Numeral.padded 16 4 w.toNat =
    [family w, (Opcode.x w).toNat, (Opcode.y w).toNat, (n w).toNat].map Numeral.digitChar := by
  have hlt := w.toNat_lt
  have hbytes : w.toNat = w.toNat / 256 * 256 + w.toNat % 256 := by omega
  have hfamily : w.toNat / 256 / 16 = family w := by
    rw [family]
    omega
  have hy : w.toNat % 256 / 16 = w.toNat / 16 % 16 := by omega
  have hn : w.toNat % 256 % 16 = w.toNat % 16 := by omega
  rw [hbytes, Numeral.padded_four (by omega), Numeral.padded_two_of_lt (by omega),
    Numeral.padded_two_of_lt (by omega), hfamily, hy, hn, toNat_x, toNat_y, toNat_n]
  rfl

/-- Whether a digit of this value can stand in a place of a pattern. -/
def AdmitsValue (place : Char) (d : Nat) : Prop :=
  place ∈ Numeral.hexDigits → d = Numeral.hexDigits.idxOf place

/-- A place asks for the value of a digit, not for its looks. -/
theorem admits_digitChar_iff {place : Char} {d : Nat} (hd : d < 16) :
    Admits place (Numeral.digitChar d) ↔ AdmitsValue place d := by
  refine forall_congr' fun hplace => ⟨?_, ?_⟩
  · rintro rfl
    exact (Numeral.idxOf_digitChar d hd).symm
  · rintro rfl
    exact Numeral.digitChar_idxOf hplace

theorem forall₂_admits_map_iff {places : List Char} {ds : List Nat} (hds : ∀ d ∈ ds, d < 16) :
    List.Forall₂ Admits places (ds.map Numeral.digitChar) ↔
      List.Forall₂ AdmitsValue places ds := by
  induction places generalizing ds with
  | nil => simp only [List.forall₂_nil_left_iff, List.map_eq_nil_iff]
  | cons place places ih =>
    cases ds with
    | nil => simp only [List.map_nil, List.forall₂_nil_right_iff]
    | cons d ds =>
      rw [List.map_cons, List.forall₂_cons, List.forall₂_cons,
        admits_digitChar_iff (hds d List.mem_cons_self),
        ih fun d hd => hds d (List.mem_cons_of_mem _ hd)]

/-- Which values the four digits of a word must have for a pattern. -/
theorem matches_iff {pattern : String} : Matches w pattern ↔
    List.Forall₂ AdmitsValue pattern.toList
      [family w, (Opcode.x w).toNat, (Opcode.y w).toNat, (n w).toNat] := by
  have hfamily := family_lt w
  have hx : (Opcode.x w).toNat < 16 := by rw [toNat_x]; omega
  have hy : (Opcode.y w).toNat < 16 := by rw [toNat_y]; omega
  have hn : (n w).toNat < 16 := by rw [toNat_n]; omega
  rw [Matches, padded_eq_map]
  refine forall₂_admits_map_iff fun d hd => ?_
  simp only [List.mem_cons, List.not_mem_nil, or_false] at hd
  rcases hd with rfl | rfl | rfl | rfl <;> assumption

/-- A word that matches a row can be decoded. -/
theorem exists_decode?_of_matches {i : Instruction} (h : Matches w i.pattern) :
    ∃ j, decode? w = some j := by
  have hlow : w.toNat % 256 = w.toNat / 16 % 16 * 16 + w.toNat % 16 := by omega
  rw [matches_iff] at h
  cases i
  all_goals simp only [pattern, String.reduceToList, toNat_x, toNat_y, toNat_n, List.forall₂_cons,
    AdmitsValue, Numeral.hexDigits, Char.isValue, List.mem_cons, Char.reduceEq, List.not_mem_nil,
    or_self, or_false, or_true, ne_eq, not_false_eq_true, List.idxOf_cons_ne, List.idxOf_cons_self,
    Nat.succ_eq_add_one, Nat.zero_add, Nat.reduceAdd, forall_const, IsEmpty.forall_iff,
    List.forall₂_nil_right_iff, and_self, and_true, true_and] at h
  case clear =>
    have hw : w = 0x00E0 := UInt16.toNat.inj (by rw [toNat_eq w]; simp [h])
    exact ⟨clear, hw ▸ rfl⟩
  case ret =>
    have hw : w = 0x00EE := UInt16.toNat.inj (by rw [toNat_eq w]; simp [h])
    exact ⟨ret, hw ▸ rfl⟩
  case skipEq | skipNe =>
    simp [decode?, n, h]
  case skipKey | skipNotKey =>
    simp [decode?, nn, hlow, h]
  case getDelay | waitKey | setDelay | setSound | addIndex | glyph | bcd | store | restore =>
    simp [decode?, decodeTransfer?, hlow, h]
  all_goals simp [decode?, decodeArithmetic?, h]

/-- The word of an instruction matches its pattern. -/
theorem matches_encode (i : Instruction) : Matches i.encode i.pattern := by
  rw [matches_iff]
  cases i
  case clear | ret =>
    simp [pattern, AdmitsValue, Numeral.hexDigits, encode, family]
  case skipKey | skipNotKey | getDelay | waitKey | setDelay | setSound | addIndex | glyph | bcd |
      store | restore =>
    simp [pattern, AdmitsValue, Numeral.hexDigits, encode, toNat_registerByte]
    omega
  all_goals simp [pattern, AdmitsValue, Numeral.hexDigits, encode]

/-- The pattern of a shift does not look at the third digit. -/
theorem matches_of_clearY {i : Instruction} (hi : i.isShift) (h : Matches (clearY w) i.pattern) :
    Matches w i.pattern := by
  rw [matches_iff] at h ⊢
  cases i
  case shiftRight | shiftLeft =>
    simpa [pattern, AdmitsValue, Numeral.hexDigits] using h
  all_goals cases hi

/-- What is decoded stands in a row that the word matches. -/
theorem matches_of_decode? {i : Instruction} (h : decode? w = some i) : Matches w i.pattern := by
  have hencode := encode_of_decode? h
  have hmatches := matches_encode i
  split at hencode
  next hi => exact matches_of_clearY hi (hencode ▸ hmatches)
  next => exact hencode ▸ hmatches

/-- An instruction is encoded in the family that it was decoded from. -/
theorem family_encode_of_decode? {i : Instruction} (h : decode? w = some i) :
    family i.encode = family w := by
  rw [encode_of_decode? h]
  split
  · exact family_clearY w
  · rfl

/-- Two words stand for the same instruction only if they are the same or differ in the third digit
of a shift. -/
theorem eq_or_clearY_eq_of_decode? {v : UInt16} {i : Instruction} (hv : decode? v = some i)
    (hw : decode? w = some i) : v = w ∨ i.isShift ∧ clearY v = clearY w := by
  have hencode := (encode_of_decode? hv).symm.trans (encode_of_decode? hw)
  cases hi : i.isShift with
  | true =>
    rw [hi, if_pos rfl, if_pos rfl] at hencode
    exact Or.inr ⟨rfl, hencode⟩
  | false =>
    rw [hi, if_neg Bool.false_ne_true, if_neg Bool.false_ne_true] at hencode
    exact Or.inl hencode

/-- Decoding and encoding are two readings of one table. An instruction is decoded from its word.
What a word is decoded to has operands in their range, stands in a row that the word matches, and
has this word again, with a zero in the place where a shift has no operand. A word that is not
decoded matches no row. -/
theorem table_exact :
    (∀ i : Instruction, i.InRange → decode? i.encode = some i) ∧
    (∀ w i, decode? w = some i →
      i.InRange ∧ family i.encode = family w ∧ Matches w i.pattern ∧
        i.encode = if i.isShift then clearY w else w) ∧
    (∀ w, decode? w = none → ∀ i : Instruction, ¬ Matches w i.pattern) ∧
    ∀ v w i, decode? v = some i → decode? w = some i →
      v = w ∨ i.isShift ∧ clearY v = clearY w := by
  refine ⟨fun _ => decode?_encode, ?_, ?_, fun _ _ _ => eq_or_clearY_eq_of_decode?⟩
  · intro w i h
    exact ⟨inRange_of_decode? h, family_encode_of_decode? h, matches_of_decode? h,
      encode_of_decode? h⟩
  · intro w hnone i hmatches
    obtain ⟨j, hj⟩ := exists_decode?_of_matches hmatches
    rw [hnone] at hj
    cases hj

/-- Two words of one shift differ in the digit that no operand is read from, and both are written
back with a zero there. With another last digit the word matches no row. -/
theorem table_exact_shift :
    decode? 0x8AB6 = some (shiftRight 0xA) ∧ decode? 0x8AC6 = some (shiftRight 0xA) ∧
      (shiftRight 0xA).encode = 0x8A06 ∧ decode? 0x8A06 = some (shiftRight 0xA) ∧
      clearY 0x8AB6 = clearY 0x8AC6 ∧ ∀ i : Instruction, ¬ Matches 0x8AB8 i.pattern := by
  obtain ⟨hencode, hdecode, hnone, hsame⟩ := table_exact
  have hB : decode? 0x8AB6 = some (shiftRight 0xA) := by decide
  have hC : decode? 0x8AC6 = some (shiftRight 0xA) := by decide
  obtain ⟨hrange, -, -, hword⟩ := hdecode _ _ hB
  have hA : (shiftRight 0xA).encode = 0x8A06 := hword.trans (by decide)
  refine ⟨hB, hC, hA, hA ▸ hencode _ hrange, ?_, hnone _ (by decide)⟩
  exact ((hsame _ _ _ hB hC).resolve_left (by decide)).2

end Instruction

end Chip8
