import Chip8.Proofs.Machine.Writes

/-!
# Digits from the font

A program gets at the picture of a digit by pointing the index register at its glyph and drawing
five rows from there. That this shows the digit depends on the font still being at the bottom of
memory, which it is as long as the program stores nothing there.

## Shape of the proof

An action that spares the font (`SparesFont`) leaves it where it is (`hasFont_perform`), and so does
a history of such actions (`hasFont_after`): an image is loaded above the font, and a reset brings
the font back. Where the font is in place, the pixels of a sprite at a glyph are those of the font
(`spritePixel_glyph`), and a draw of five rows inverts the cells that these fall on, each once.
-/

namespace Chip8

namespace Font

/-- Whether the glyph of a digit has a set pixel in a row and a column. -/
def pixel (digit row column : Nat) : Bool :=
  (bytes.getD (glyphSize * digit + row) 0).toNat.testBit (7 - column)

end Font

namespace Memory

variable {memory : Memory}

/-- The font is at the bottom of memory. -/
def HasFont (memory : Memory) : Prop :=
  memory.read 0 80 = Font.bytes

/-- The font is there if its 80 bytes are. -/
theorem hasFont_iff :
    memory.HasFont ↔ ∀ address < 80, memory.get address = Font.bytes.getD address 0 := by
  constructor
  · intro h address haddress
    rw [← h, List.getD_eq_getElem?_getD, List.getElem?_eq_getElem (by simpa), Option.getD_some,
      getElem_read, Nat.zero_add]
  · intro h
    refine List.ext_getElem (length_read _ _ _) fun k hk hk' => ?_
    rw [length_read] at hk
    rw [getElem_read, Nat.zero_add, h k hk, List.getD_eq_getElem?_getD,
      List.getElem?_eq_getElem hk', Option.getD_some]

/-- At the start the font is there. -/
theorem hasFont_initial : initial.HasFont :=
  hasFont_iff.mpr fun address haddress => by
    rw [get_initial (by omega), if_pos haddress]

/-- A write above the font leaves it alone. -/
theorem HasFont.write (h : memory.HasFont) {start : Nat} {xs : List UInt8}
    (habove : xs ≠ [] → 80 ≤ start) : (memory.write start xs).HasFont := by
  refine hasFont_iff.mpr fun address haddress => ?_
  rw [get_write_of_not_mem, hasFont_iff.mp h address haddress]
  rintro ⟨hle, hlt⟩
  have hstart := habove (List.ne_nil_of_length_pos (by omega))
  omega

end Memory

/-- The instruction stores bytes from the address in the index register on. -/
def Instruction.stores : Instruction → Bool
  | .bcd _ | .store _ => true
  | _ => false

namespace Machine

variable {m : Machine} {a : Action} {i : Instruction} {actions : List Action} {x : UInt8}
  {digit : Nat}

/-! ## The font along a history -/

/-- The action stores nothing in the first 80 bytes: if it executes an instruction that stores
something, the index register points past them. -/
def SparesFont (m : Machine) (a : Action) : Prop :=
  ∀ i ∈ m.executed? a, i.stores = true → 80 ≤ m.index.toNat

/-- An instruction that has bytes to store is one that stores. -/
theorem stores_of_bytesAtIndex (h : m.bytesAtIndex i ≠ []) : i.stores = true := by
  cases i
  case bcd | store => rfl
  all_goals exact absurd rfl h

/-- What spares the font leaves it there. -/
theorem hasFont_perform (h : m.memory.HasFont) (ha : m.SparesFont a) :
    (m.perform a).2.memory.HasFont := by
  have heffect := effect_perform m a
  generalize (m.perform a).2 = m' at heffect ⊢
  cases heffect with
  | @executed a i m' word executed_eq execute_eq =>
    rw [memory_of_execute execute_eq]
    exact h.write fun hne => ha i executed_eq (stores_of_bytesAtIndex hne)
  | loaded => exact h.write fun _ => by decide
  | reset => exact Memory.hasFont_initial
  | refused | skipped | ticked | cleared | taken | keyed => exact h

/-- So does a history that spares it throughout. -/
theorem hasFont_after (h : m.memory.HasFont) (ha : Throughout SparesFont m actions) :
    (m.after actions).memory.HasFont := by
  induction actions generalizing m with
  | nil => exact h
  | cons a as ih =>
    obtain ⟨hfirst, hrest⟩ := throughout_cons.mp ha
    exact ih (hasFont_perform h hfirst) hrest

/-! ## Drawing a digit -/

/-- The machine that points at the glyph of Vx. -/
def atGlyph (m : Machine) (x : UInt8) : Machine :=
  { m with index := (m.v x).toUInt16 * 5, pc := m.pc + 2 }

theorem execute_glyph (m : Machine) (x : UInt8) : m.execute (.glyph x) = .ok (m.atGlyph x) := rfl

/-- The product is far below the end of the type. -/
theorem toNat_index_atGlyph (m : Machine) (x : UInt8) :
    (m.atGlyph x).index.toNat = 5 * (m.v x).toNat := by
  have hv := (m.v x).toNat_lt
  have hproduct : (m.atGlyph x).index.toNat = (m.v x).toNat * 5 % 65536 := by
    rw [atGlyph, UInt16.toNat_mul, UInt8.toNat_toUInt16]
    rfl
  omega

/-- From the address of a glyph on, a sprite of five rows is the glyph. -/
theorem spritePixel_glyph (h : m.memory.HasFont) (hdigit : (m.v x).toNat = digit) (hlt : digit < 16)
    {row : Nat} (hrow : row < 5) (column : Nat) :
    (m.atGlyph x).spritePixel row column = Font.pixel digit row column := by
  have hbyte : m.memory.get (5 * digit + row) = Font.bytes.getD (5 * digit + row) 0 :=
    Memory.hasFont_iff.mp h _ (by omega)
  rw [spritePixel, Font.pixel, toNat_index_atGlyph, hdigit]
  exact congrArg (fun byte : UInt8 => byte.toNat.testBit (7 - column)) hbyte

/-- The machine has just been switched on or reset. -/
inductive IsNew : Machine → Prop where
  | switchedOn (random : RandomSource) (keypad : Keypad) : IsNew (fresh random keypad)
  | reset (used : Machine) : IsNew used.reset

/-- A machine that is new in either way has the font. -/
theorem IsNew.hasFont (h : m.IsNew) : m.memory.HasFont := by
  cases h <;> exact Memory.hasFont_initial

/-- As long as a program spares the font, it is in place, and a glyph and a draw of five rows invert
the cells that the pixels of the digit fall on, and no others. -/
theorem draw_digit_after (hm : m.IsNew) (ha : Throughout SparesFont m actions) :
    let ready := m.after actions
    ready.memory.read 0 80 = Font.bytes ∧
    ∀ x y z : UInt8, ∀ digit < 16, (ready.v x).toNat = digit →
      ∃ pointed drawn, ready.execute (.glyph x) = .ok pointed ∧
        pointed.execute (.draw y z 5) = .ok drawn ∧
        ∀ p < 2048, drawn.screen.get p ≠ ready.screen.get p ↔
          ∃ row < 5, ∃ column < 8, Font.pixel digit row column = true ∧
            ((ready.v y).toNat + column + 64 * ((ready.v z).toNat + row)) % 2048 = p := by
  intro ready
  have hfont : ready.memory.HasFont := hasFont_after hm.hasFont ha
  refine ⟨hfont, fun x y z digit hlt hdigit => ?_⟩
  have hfits : (ready.atGlyph x).index.toNat + (5 : UInt8).toNat ≤ 4096 := by
    have hrows : (5 : UInt8).toNat = 5 := rfl
    rw [toNat_index_atGlyph, hdigit, hrows]
    omega
  refine ⟨_, _, execute_glyph ready x, execute_draw_eq (Or.inr hfits), fun p hp => ?_⟩
  refine (get_screen_drawn_ne_iff (by decide) hp).trans ?_
  refine exists_congr fun row => and_congr_right fun hrow => ?_
  refine exists_congr fun column => and_congr_right fun _ => ?_
  rw [spritePixel_glyph hfont hdigit hlt hrow]
  rfl

/-- A program stores the digits of a number right above the font, then registers over them. The B
that it draws afterwards has a pixel at its first place and none at its fourth. -/
theorem draw_digit_after_stores :
    let start := fresh (.ofSeed 0) .released
    let actions := [Action.load [0x60, 0x0B, 0xA0, 0x50, 0xF0, 0x33, 0x01, 0x23, 0xF1, 0x55],
      .step, .step, .step, .step, .skip, .tick, .press 3, .step]
    let ready := start.after actions
    start.IsNew ∧ Throughout SparesFont start actions ∧
      ready.memory.read 0x50 3 = [11, 0, 1] ∧ ready.memory.read 0 80 = Font.bytes ∧
      ∃ pointed drawn, ready.execute (.glyph 0) = .ok pointed ∧
        pointed.execute (.draw 1 1 5) = .ok drawn ∧
        drawn.screen.get 0 ≠ ready.screen.get 0 ∧ drawn.screen.get 3 = ready.screen.get 3 := by
  intro start actions ready
  have hnew : start.IsNew := .switchedOn _ _
  have hspares : Throughout SparesFont start actions := by
    simp only [actions, throughout_cons, throughout_nil, SparesFont]
    decide +kernel
  obtain ⟨hfont, hdigits⟩ := draw_digit_after hnew hspares
  have hdigit : (ready.v 0).toNat = 11 := by decide +kernel
  obtain ⟨pointed, drawn, hpointed, hdrawn, hcells⟩ := hdigits 0 1 1 11 (by decide) hdigit
  have hplace : (ready.v 1).toNat = 0 := by decide +kernel
  refine ⟨hnew, hspares, by decide +kernel, hfont, pointed, drawn, hpointed, hdrawn, ?_, ?_⟩
  · exact (hcells 0 (by decide)).mpr ⟨0, by decide, 0, by decide, by decide, by rw [hplace]⟩
  · by_contra hchanged
    obtain ⟨row, hrow, column, hcolumn, hset, hcell⟩ := (hcells 3 (by decide)).mp hchanged
    rw [hplace] at hcell
    obtain rfl : row = 0 := by omega
    obtain rfl : column = 3 := by omega
    exact absurd hset (by decide)

end Machine

end Chip8
