import Chip8.Proofs.Listing.Execution

/-!
# Assembly texts

The mnemonic of an instruction is that of no other instruction, whatever values its fields have. So
the text of a word in a listing tells which instruction the word stands for.

## Shape of the proof

A mnemonic is laid out from a name and operands, and what it was made of can be read back at each
stage. Without its commas the text is cut at its blanks (`tokens_layout`). The beginning of an
operand tells its kind, and the digits after it give the number (`Operand.ofText?_text`). A name and
operands belong to one instruction at most (`ofParts?_parts`).
-/

namespace Chip8.Instruction

/-! ## Plain texts -/

/-- Neither a blank nor a comma stands in the text. -/
def Plain (text : String) : Prop :=
  ' ' ∉ text.toList ∧ ',' ∉ text.toList

instance (text : String) : Decidable (Plain text) :=
  inferInstanceAs (Decidable (_ ∧ _))

/-- Plain texts can be put together. -/
theorem Plain.append {s t : String} (hs : Plain s) (ht : Plain t) : Plain (s ++ t) := by
  simp only [Plain, String.toList_append, List.mem_append, not_or]
  exact ⟨⟨hs.1, ht.1⟩, hs.2, ht.2⟩

/-- Numbers are plain, in every base of hexadecimal digits. -/
theorem plain_padded {base : Nat} (hb : 2 ≤ base) (hle : base ≤ 16) (width n : Nat) :
    Plain (String.ofList (Numeral.padded base width n)) := by
  rw [Plain, String.toList_ofList]
  constructor
  all_goals
    intro hmem
    exact absurd (Numeral.mem_hexDigits_of_mem_padded hb hle hmem) (by decide)

/-! ## Operands -/

/-- The parts of a machine that an operand can name. -/
inductive Place where
  | index
  /-- The memory at the index register. -/
  | atIndex
  | delay
  | sound
  /-- The next key. -/
  | key
  /-- The glyph of a digit. -/
  | glyph
  /-- The decimal digits of a byte. -/
  | digits
deriving DecidableEq

/-- The text of a place. -/
def Place.text : Place → String
  | index => "I"
  | atIndex => "[I]"
  | delay => "DT"
  | sound => "ST"
  | key => "K"
  | glyph => "F"
  | digits => "B"

/-- The place with a text. -/
def Place.ofText? : String → Option Place
  | "I" => some index
  | "[I]" => some atIndex
  | "DT" => some delay
  | "ST" => some sound
  | "K" => some key
  | "F" => some glyph
  | "B" => some digits
  | _ => none

/-- An operand of an assembly text. -/
inductive Operand where
  | register (x : UInt8)
  | byte (nn : UInt8)
  | address (address : UInt16)
  /-- The height of a sprite. -/
  | height (n : UInt8)
  | place (place : Place)
deriving DecidableEq

namespace Operand

/-- The text of an operand. -/
def text : Operand → String
  | register x => registerText x
  | byte nn => byteText nn
  | address a => addressText a
  | height n => Numeral.decimal n.toNat
  | place p => p.text

/-- The operand with a text. Of the marked numbers those of two digits are bytes. -/
def ofText? (text : String) : Option Operand :=
  match Numeral.readDecimal? text.toList with
  | some n => some (height (UInt8.ofNat n))
  | none =>
    match text.toList with
    | 'V' :: ds => some (register (UInt8.ofNat (Numeral.readHex ds)))
    | '0' :: 'x' :: ds =>
      if ds.length ≤ 2 then some (byte (UInt8.ofNat (Numeral.readHex ds)))
      else some (address (UInt16.ofNat (Numeral.readHex ds)))
    | _ => (Place.ofText? text).map place

/-- A register is known by its `V`. -/
theorem ofText?_registerText (x : UInt8) : ofText? (registerText x) = some (register x) := by
  have htext : (registerText x).toList = 'V' :: Numeral.padded 16 1 x.toNat := by
    simp [registerText, Numeral.hex]
  rw [ofText?, htext]
  show some (register (UInt8.ofNat (Numeral.readHex _))) = _
  rw [Numeral.readHex_padded, UInt8.ofNat_toNat]

/-- A marked number of two digits is a byte. -/
theorem ofText?_byteText (nn : UInt8) : ofText? (byteText nn) = some (byte nn) := by
  have htext : (byteText nn).toList = '0' :: 'x' :: Numeral.padded 16 2 nn.toNat := by
    simp [byteText, Numeral.marked, Numeral.hex]
  have hlength : (Numeral.padded 16 2 nn.toNat).length ≤ 2 := by
    rw [Numeral.padded_two_of_lt nn.toNat_lt]
    exact Nat.le_refl 2
  rw [ofText?, htext]
  show (if (Numeral.padded 16 2 nn.toNat).length ≤ 2 then _ else _) = _
  rw [if_pos hlength, Numeral.readHex_padded, UInt8.ofNat_toNat]

/-- A marked number of more digits is an address. -/
theorem ofText?_addressText (a : UInt16) : ofText? (addressText a) = some (address a) := by
  have htext : (addressText a).toList = '0' :: 'x' :: Numeral.padded 16 3 a.toNat := by
    simp [addressText, Numeral.marked, Numeral.hex]
  have hlength : 3 ≤ (Numeral.padded 16 3 a.toNat).length :=
    (Numeral.isHex_padded (by decide) a.toNat).width_le
  rw [ofText?, htext]
  show (if (Numeral.padded 16 3 a.toNat).length ≤ 2 then _ else _) = _
  rw [if_neg (by omega), Numeral.readHex_padded, UInt16.ofNat_toNat]

/-- A number without a mark is a height. -/
theorem ofText?_decimal (n : UInt8) : ofText? (Numeral.decimal n.toNat) = some (height n) := by
  rw [ofText?, Numeral.decimal, String.toList_ofList, Numeral.readDecimal?_padded]
  show some (height (UInt8.ofNat n.toNat)) = _
  rw [UInt8.ofNat_toNat]

/-- An operand can be read back from its text. -/
theorem ofText?_text (o : Operand) : ofText? o.text = some o := by
  cases o with
  | register x => exact ofText?_registerText x
  | byte nn => exact ofText?_byteText nn
  | address a => exact ofText?_addressText a
  | height n => exact ofText?_decimal n
  | place p => cases p <;> rfl

/-- So different operands have different texts. -/
theorem eq_of_text_eq {o p : Operand} (h : o.text = p.text) : o = p := by
  have ho := ofText?_text o
  rw [h, ofText?_text p] at ho
  exact (Option.some.inj ho).symm

/-- No operand has a blank or a comma in its text. -/
theorem plain_text (o : Operand) : Plain o.text := by
  have hregister : Plain "V" := by decide
  have hmark : Plain "0x" := by decide
  cases o with
  | register x => exact hregister.append (plain_padded (by decide) (by decide) 1 _)
  | byte nn => exact hmark.append (plain_padded (by decide) (by decide) 2 _)
  | address a => exact hmark.append (plain_padded (by decide) (by decide) 3 _)
  | height n => exact plain_padded (by decide) (by decide) 1 _
  | place p => cases p <;> decide

end Operand

/-! ## Names and operands -/

/-- The name and the operands of an instruction. -/
def parts : Instruction → String × List Operand
  | clear => ("CLS", [])
  | ret => ("RET", [])
  | jump a => ("JP", [.address a])
  | call a => ("CALL", [.address a])
  | skipEqByte x nn => ("SE", [.register x, .byte nn])
  | skipNeByte x nn => ("SNE", [.register x, .byte nn])
  | skipEq x y => ("SE", [.register x, .register y])
  | loadByte x nn => ("LD", [.register x, .byte nn])
  | addByte x nn => ("ADD", [.register x, .byte nn])
  | move x y => ("LD", [.register x, .register y])
  | or x y => ("OR", [.register x, .register y])
  | and x y => ("AND", [.register x, .register y])
  | xor x y => ("XOR", [.register x, .register y])
  | add x y => ("ADD", [.register x, .register y])
  | sub x y => ("SUB", [.register x, .register y])
  | shiftRight x => ("SHR", [.register x])
  | subFrom x y => ("SUBN", [.register x, .register y])
  | shiftLeft x => ("SHL", [.register x])
  | skipNe x y => ("SNE", [.register x, .register y])
  | setIndex a => ("LD", [.place .index, .address a])
  | jumpOffset a => ("JP", [.register 0, .address a])
  | random x nn => ("RND", [.register x, .byte nn])
  | draw x y n => ("DRW", [.register x, .register y, .height n])
  | skipKey x => ("SKP", [.register x])
  | skipNotKey x => ("SKNP", [.register x])
  | getDelay x => ("LD", [.register x, .place .delay])
  | waitKey x => ("LD", [.register x, .place .key])
  | setDelay x => ("LD", [.place .delay, .register x])
  | setSound x => ("LD", [.place .sound, .register x])
  | addIndex x => ("ADD", [.place .index, .register x])
  | glyph x => ("LD", [.place .glyph, .register x])
  | bcd x => ("LD", [.place .digits, .register x])
  | store x => ("LD", [.place .atIndex, .register x])
  | restore x => ("LD", [.register x, .place .atIndex])

/-- The instruction with a name and operands. -/
def ofParts? : String × List Operand → Option Instruction
  | ("CLS", []) => some clear
  | ("RET", []) => some ret
  | ("JP", [.address a]) => some (jump a)
  | ("JP", [.register 0, .address a]) => some (jumpOffset a)
  | ("CALL", [.address a]) => some (call a)
  | ("SE", [.register x, .byte nn]) => some (skipEqByte x nn)
  | ("SE", [.register x, .register y]) => some (skipEq x y)
  | ("SNE", [.register x, .byte nn]) => some (skipNeByte x nn)
  | ("SNE", [.register x, .register y]) => some (skipNe x y)
  | ("SKP", [.register x]) => some (skipKey x)
  | ("SKNP", [.register x]) => some (skipNotKey x)
  | ("LD", [.register x, .byte nn]) => some (loadByte x nn)
  | ("LD", [.register x, .register y]) => some (move x y)
  | ("LD", [.place .index, .address a]) => some (setIndex a)
  | ("LD", [.register x, .place .delay]) => some (getDelay x)
  | ("LD", [.register x, .place .key]) => some (waitKey x)
  | ("LD", [.place .delay, .register x]) => some (setDelay x)
  | ("LD", [.place .sound, .register x]) => some (setSound x)
  | ("LD", [.place .glyph, .register x]) => some (glyph x)
  | ("LD", [.place .digits, .register x]) => some (bcd x)
  | ("LD", [.place .atIndex, .register x]) => some (store x)
  | ("LD", [.register x, .place .atIndex]) => some (restore x)
  | ("ADD", [.register x, .byte nn]) => some (addByte x nn)
  | ("ADD", [.register x, .register y]) => some (add x y)
  | ("ADD", [.place .index, .register x]) => some (addIndex x)
  | ("SUB", [.register x, .register y]) => some (sub x y)
  | ("SUBN", [.register x, .register y]) => some (subFrom x y)
  | ("OR", [.register x, .register y]) => some (or x y)
  | ("AND", [.register x, .register y]) => some (and x y)
  | ("XOR", [.register x, .register y]) => some (xor x y)
  | ("SHR", [.register x]) => some (shiftRight x)
  | ("SHL", [.register x]) => some (shiftLeft x)
  | ("RND", [.register x, .byte nn]) => some (random x nn)
  | ("DRW", [.register x, .register y, .height n]) => some (draw x y n)
  | _ => none

/-- An instruction is known by its name and operands. -/
theorem ofParts?_parts (i : Instruction) : ofParts? i.parts = some i := by
  cases i <;> rfl

/-- No name has a blank or a comma in it. -/
theorem plain_name (i : Instruction) : Plain i.parts.1 := by
  cases i <;> simp [parts, Plain]

/-! ## Layout -/

/-- The text of a name and of the operands behind it. -/
def layout (name : String) : List String → String
  | [] => name
  | operands => name ++ " " ++ ", ".intercalate operands

theorem registerText_zero : registerText 0 = "V0" := by
  rw [registerText, Numeral.hex, Numeral.padded_one_of_lt (by decide)]
  rfl

/-- A mnemonic is laid out from the parts of the instruction. -/
theorem mnemonic_eq_layout (i : Instruction) :
    i.mnemonic = layout i.parts.1 (i.parts.2.map Operand.text) := by
  apply String.toList_inj.mp
  cases i <;> simp [mnemonic, layout, parts, Operand.text, Place.text, registerByteText,
    registerPairText, registerText_zero]

/-- The words of a text, without the commas behind them. -/
def tokens (text : String) : List String :=
  ((text.toList.filter (· ≠ ',')).splitOn ' ').map String.ofList

/-- Where there are no commas, none are taken out. -/
theorem filter_of_notMem {cs : List Char} (h : ',' ∉ cs) : cs.filter (· ≠ ',') = cs := by
  refine List.filter_eq_self.mpr fun c hc => decide_eq_true ?_
  rintro rfl
  exact h hc

/-- Without the commas only a blank stands between two operands. -/
theorem filter_intercalate {texts : List (List Char)} (h : ∀ cs ∈ texts, ',' ∉ cs) :
    ([',', ' '].intercalate texts).filter (· ≠ ',') = [' '].intercalate texts := by
  induction texts with
  | nil => rfl
  | cons cs texts ih =>
    have hcs := filter_of_notMem (h cs List.mem_cons_self)
    cases texts with
    | nil => rw [List.intercalate_singleton, List.intercalate_singleton, hcs]
    | cons next texts =>
      rw [List.intercalate_cons_cons, List.intercalate_cons_cons, List.filter_append,
        List.filter_append, hcs, ih fun cs hcs => h cs (List.mem_cons_of_mem _ hcs)]
      rfl

section layout

variable {name : String} {operands : List String}

/-- Without its commas a layout is its parts with blanks between them. -/
theorem filter_layout (hname : Plain name) (hoperands : ∀ o ∈ operands, Plain o) :
    (layout name operands).toList.filter (· ≠ ',') =
      [' '].intercalate ((name :: operands).map String.toList) := by
  have hfirst := filter_of_notMem hname.2
  have hrest : ∀ cs ∈ operands.map String.toList, ',' ∉ cs :=
    List.forall_mem_map.mpr fun o ho => (hoperands o ho).2
  have hcomma : ", ".toList = [',', ' '] := rfl
  cases operands with
  | nil => exact hfirst.trans List.intercalate_singleton.symm
  | cons o os =>
    rw [layout, String.toList_append, String.toList_append, String.toList_intercalate,
      List.filter_append, List.filter_append, hfirst, hcomma, filter_intercalate hrest]
    · exact List.intercalate_cons_cons.symm
    · exact List.cons_ne_nil o os

/-- A text is cut into the words that it was laid out from. -/
theorem tokens_layout (hname : Plain name) (hoperands : ∀ o ∈ operands, Plain o) :
    tokens (layout name operands) = name :: operands := by
  have hwords : ∀ o ∈ name :: operands, Plain o := List.forall_mem_cons.mpr ⟨hname, hoperands⟩
  have hblank : ∀ cs ∈ (name :: operands).map String.toList, ' ' ∉ cs :=
    List.forall_mem_map.mpr fun o ho => (hwords o ho).1
  rw [tokens, filter_layout hname hoperands, List.splitOn_intercalate ' ' hblank (by simp),
    List.map_map]
  simp

end layout

/-! ## Mnemonics -/

/-- The tokens of a mnemonic are the name and the operands that it was laid out from. -/
theorem tokens_mnemonic (i : Instruction) :
    tokens i.mnemonic = i.parts.1 :: i.parts.2.map Operand.text := by
  rw [mnemonic_eq_layout]
  exact tokens_layout i.plain_name (List.forall_mem_map.mpr fun o _ => o.plain_text)

/-- Different instructions have different mnemonics. -/
theorem eq_of_mnemonic_eq {i j : Instruction} (h : i.mnemonic = j.mnemonic) : i = j := by
  have htokens := congrArg tokens h
  rw [tokens_mnemonic, tokens_mnemonic] at htokens
  obtain ⟨hname, htexts⟩ := List.cons.inj htokens
  have hoperands := (List.map_inj_right fun _ _ => Operand.eq_of_text_eq).mp htexts
  have hparts := congrArg ofParts? (Prod.ext hname hoperands)
  rw [ofParts?_parts, ofParts?_parts] at hparts
  exact Option.some.inj hparts

/-- Two instructions with the same mnemonic are equal, whatever values their fields have. So a
listing shows the mnemonic of an instruction for those words alone that are decoded to it. -/
theorem mnemonics_unambiguous :
    (∀ i j : Instruction, i.mnemonic = j.mnemonic → i = j) ∧
    ∀ w i, Listing.wordText w = mnemonic i ↔ decode? w = some i := by
  refine ⟨fun _ _ => eq_of_mnemonic_eq, fun w i => ⟨?_, Listing.wordText_of_decode?⟩⟩
  intro htext
  obtain ⟨j, hj⟩ := Listing.wordText_eq_mnemonic_iff.mp ⟨i, htext⟩
  rw [Listing.wordText_of_decode? hj] at htext
  rw [hj, eq_of_mnemonic_eq htext]

/-- Two words have the same text in a listing, and it tells which instruction both of them stand
for. An address with one digit more is another text. -/
theorem mnemonics_unambiguous_shift :
    Listing.wordText 0x8A06 = "SHR VA" ∧ Listing.wordText 0x8AB6 = "SHR VA" ∧
      decode? 0x8A06 = some (shiftRight 0xA) ∧ decode? 0x8AB6 = some (shiftRight 0xA) ∧
      (jump 0x100).mnemonic ≠ (jump 0x1000).mnemonic := by
  obtain ⟨hsame, hword⟩ := mnemonics_unambiguous
  have hmnemonic : (shiftRight 0xA).mnemonic = "SHR VA" := by decide +kernel
  have hfirst : Listing.wordText 0x8A06 = "SHR VA" := by decide +kernel
  have hsecond : Listing.wordText 0x8AB6 = "SHR VA" := by decide +kernel
  obtain ⟨j, hj⟩ : ∃ j, decode? 0x8AB6 = some j := ⟨_, rfl⟩
  have hnamed : (shiftRight 0xA).mnemonic = j.mnemonic :=
    hmnemonic.trans (hsecond.symm.trans ((hword 0x8AB6 j).mpr hj))
  refine ⟨hfirst, hsecond, (hword _ _).mp (hfirst.trans hmnemonic.symm), ?_, ?_⟩
  · rw [hj, hsame _ _ hnamed]
  · intro hjump
    exact absurd (hsame _ _ hjump) (by decide)

end Chip8.Instruction
