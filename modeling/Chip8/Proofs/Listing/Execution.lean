import Chip8.Proofs.Listing.Lines
import Chip8.Proofs.Machine.Faults

/-!
# Listings and execution

A listing is made from an image, and the machine executes the image from its memory. Both see the
same words at the same addresses: what a listing shows as an instruction the machine recognizes, and
what it shows as data the machine does not.

## Shape of the proof

No mnemonic begins like data (`mnemonic_ne_data`), so the text of a word tells whether it decodes.
The word that is fetched at an address of a loaded image consists of two bytes of the image
(`fetch_of_loaded`), which are those on the line with this address (`getElem?_linesFrom`). What a
step does with the word is known from the faults of a step.
-/

namespace Chip8

/-! ## The text of a word -/

/-- The second letter of a mnemonic tells it apart from data. -/
theorem Instruction.mnemonic_ne_data (i : Instruction) (operand : String) :
    i.mnemonic ≠ "DW " ++ operand := by
  have hdata : ("DW " ++ operand).toList[1]? = some 'W' := by simp
  have hmnemonic : i.mnemonic.toList[1]? ≠ some 'W' := by
    cases i <;> simp [mnemonic, registerByteText, registerPairText]
  intro h
  exact hmnemonic (h ▸ hdata)

namespace Listing

variable {m : Machine} {image : List UInt8} {hi lo : UInt8} {n : Nat} {w : UInt16}

/-- A word that can be decoded is listed by its instruction. -/
theorem wordText_of_decode? {i : Instruction} (hd : Instruction.decode? w = some i) :
    wordText w = i.mnemonic := by
  rw [wordText, hd]

/-- Any other word is listed as data. -/
theorem wordText_of_unknown (hd : Instruction.decode? w = none) :
    wordText w = "DW " ++ Numeral.marked 4 w.toNat := by
  rw [wordText, hd]

/-- A word is listed like an instruction exactly if it is one. -/
theorem wordText_eq_mnemonic_iff :
    (∃ i, wordText w = Instruction.mnemonic i) ↔ ∃ i, Instruction.decode? w = some i := by
  constructor
  · rintro ⟨i, htext⟩
    cases hd : Instruction.decode? w with
    | some j => exact ⟨j, rfl⟩
    | none =>
      rw [wordText_of_unknown hd] at htext
      exact absurd htext.symm (i.mnemonic_ne_data _)
  · rintro ⟨i, hd⟩
    exact ⟨i, wordText_of_decode? hd⟩

/-- It is listed like data exactly if it is none. -/
theorem wordText_eq_data_iff :
    (∃ operand, wordText w = "DW " ++ operand) ↔ Instruction.decode? w = none := by
  constructor
  · rintro ⟨operand, htext⟩
    cases hd : Instruction.decode? w with
    | none => rfl
    | some i =>
      rw [wordText_of_decode? hd] at htext
      exact absurd htext (i.mnemonic_ne_data operand)
  · intro hd
    exact ⟨_, wordText_of_unknown hd⟩

/-! ## The word in memory -/

/-- A loaded image lies byte for byte from the program start on. -/
theorem get_of_loaded {k : Nat} {b : UInt8} (h : image.length ≤ 3584) (hb : image[k]? = some b)
    (memory : Memory) : (memory.write 0x200 image).get (0x200 + k) = b := by
  obtain ⟨hk, rfl⟩ := List.getElem?_eq_some_iff.mp hb
  rw [Memory.get_write _ _ _ _ (by omega), dif_pos ⟨by omega, by omega⟩]
  simp only [Nat.add_sub_cancel_left]

/-- The word that is fetched from a loaded image. -/
theorem fetch_of_loaded (h : image.length ≤ 3584) (hhi : image[2 * n]? = some hi)
    (hlo : image[2 * n + 1]? = some lo) {memory : Memory}
    (hmemory : m.memory = memory.write 0x200 image) (hpc : m.pc.toNat = 0x200 + 2 * n) :
    m.fetch = .ok (Opcode.ofBytes hi lo) := by
  have hlt : 2 * n + 1 < image.length := (List.getElem?_eq_some_iff.mp hlo).1
  have hfirst := get_of_loaded h hhi memory
  have hsecond := get_of_loaded h hlo memory
  rw [Machine.fetch_of_lt (by omega), hmemory, hpc, hfirst, Nat.add_assoc, hsecond]

/-! ## Steps at a listed address -/

/-- A listing agrees with the machine that has loaded the image. Where a line shows an instruction,
a step from its address executes this instruction or finds the stack or memory too small; where it
shows data, and only there, the step finds the word unknown. -/
theorem lines_agree_with_step (m : Machine) (h : image.length ≤ 3584) (hn : n < image.length / 2) :
    ∃ (loaded there : Machine) (word : UInt16) (text : String),
      m.load image = .ok loaded ∧
      loaded.execute (.jump (UInt16.ofNat (0x200 + 2 * n))) = .ok there ∧
      there.pc.toNat = 0x200 + 2 * n ∧ there.fetch = .ok word ∧
      (lines image)[n]? = some
        (Numeral.hex 3 (0x200 + 2 * n) ++ "  " ++ Numeral.hex 4 word.toNat ++ "  " ++ text) ∧
      ((∃ i : Instruction, text = i.mnemonic) ↔ ∃ i, Instruction.decode? word = some i) ∧
      (∀ i, Instruction.decode? word = some i → text = i.mnemonic ∧
        (there.step.1 = .ok i ∨ ∃ fault, there.step.1 = .error fault ∧ fault.IsLimit)) ∧
      ((∃ operand, text = "DW " ++ operand) ↔
        there.step.1 = .error (.unknownOpcode word there.pc)) := by
  let loaded := { m with memory := m.memory.write 0x200 image }
  let there := { loaded with pc := UInt16.ofNat (0x200 + 2 * n) }
  obtain ⟨hi, hhi⟩ : ∃ hi, image[2 * n]? = some hi := ⟨_, List.getElem?_eq_getElem (by omega)⟩
  obtain ⟨lo, hlo⟩ : ∃ lo, image[2 * n + 1]? = some lo := ⟨_, List.getElem?_eq_getElem (by omega)⟩
  have hpc : there.pc.toNat = 0x200 + 2 * n := by
    simp only [there, UInt16.toNat_ofNat']
    omega
  have hfetch : there.fetch = .ok (Opcode.ofBytes hi lo) := fetch_of_loaded h hhi hlo rfl hpc
  refine ⟨loaded, there, Opcode.ofBytes hi lo, wordText (Opcode.ofBytes hi lo),
    Machine.load_of_le h, rfl, hpc, hfetch, getElem?_linesFrom hhi hlo, wordText_eq_mnemonic_iff,
    fun i hd => ⟨wordText_of_decode? hd, Machine.step_fst_ok_or_isLimit hfetch hd⟩, ?_⟩
  rw [wordText_eq_data_iff, Machine.step_fst_eq_unknownOpcode_iff hfetch]

/-- The second line of a listing shows data, and a step that comes to its address finds an unknown
word. -/
theorem lines_agree_with_step_data :
    ∃ loaded there : Machine, (Machine.ofSeed 0).load [0x00, 0xEE, 0x01, 0x23, 0xFF] = .ok loaded ∧
      loaded.execute (.jump 0x202) = .ok there ∧
      lines [0x00, 0xEE, 0x01, 0x23, 0xFF] =
        ["200  00EE  RET", "202  0123  DW 0x0123", "204  FF    DB 0xFF"] ∧
      there.fetch = .ok 0x0123 ∧ there.step.1 = .error (.unknownOpcode 0x0123 there.pc) := by
  let image : List UInt8 := [0x00, 0xEE, 0x01, 0x23, 0xFF]
  have hlines : lines image =
      ["200  00EE  RET", "202  0123  DW 0x0123", "204  FF    DB 0xFF"] := by decide +kernel
  have hlength : image.length ≤ 3584 := by decide
  obtain ⟨loaded, there, word, text, hload, hjump, hpc, hfetch, hline, -, -, hdata⟩ :=
    lines_agree_with_step (.ofSeed 0) hlength (show 1 < image.length / 2 by decide)
  have hmemory : there.memory = (Machine.ofSeed 0).memory.write 0x200 image := by
    cases (Machine.load_of_le hlength).symm.trans hload
    cases hjump
    rfl
  have hword := fetch_of_loaded hlength (show image[2 * 1]? = some 0x01 by rfl)
    (show image[2 * 1 + 1]? = some 0x23 by rfl) hmemory hpc
  obtain rfl : word = 0x0123 := (Except.ok.inj (hfetch.symm.trans hword)).trans (by decide)
  have hcolumns : Numeral.hex 3 (0x200 + 2 * 1) ++ "  " ++ Numeral.hex 4 (0x0123 : UInt16).toNat ++
      "  " = "202  0123  " := by decide +kernel
  rw [hlines, hcolumns] at hline
  have hsplit : "202  0123  " ++ "DW 0x0123" = "202  0123  " ++ text := Option.some.inj hline
  have htext := (String.append_right_inj _).mp hsplit
  exact ⟨loaded, there, hload, hjump, hlines, hfetch, hdata.mp ⟨"0x0123", htext.symm⟩⟩

end Listing

end Chip8
