import Chip8.Proofs.Machine.Effect
import Chip8.Proofs.Machine.InPlace
import Chip8.Proofs.Machine.Outcome

/-!
# What memory holds

A byte of memory is what was last put there. There are three ways to put bytes into memory: an image
is loaded, registers are stored, or the decimal digits of a register are.

## Shape of the proof

`Puts` says which byte an action puts at which address, address by address. An action that puts a
byte at an address leaves it there (`get_perform_of_puts`), and one that puts none leaves the
address alone (`get_perform_of_not_puts`). So an address keeps its byte along a history that puts
none there (`get_after_of_not_putsIn`), and the law follows by cutting the history behind the last
action that does.
-/

namespace Chip8

/-- The hundreds, tens and units of a byte. -/
structure IsDigits (value hundreds tens units : UInt8) : Prop where
  hundreds_le : hundreds.toNat ≤ 9
  tens_le : tens.toNat ≤ 9
  units_le : units.toNat ≤ 9
  value_eq : 100 * hundreds.toNat + 10 * tens.toNat + units.toNat = value.toNat

/-- There is one way to take a byte apart into decimal digits. -/
theorem isDigits_iff {value hundreds tens units : UInt8} :
    IsDigits value hundreds tens units ↔
      [hundreds, tens, units] = Machine.decimalDigits value := by
  have hvalue := value.toNat_lt
  have htoNat : [hundreds, tens, units] = Machine.decimalDigits value ↔
      hundreds.toNat = value.toNat / 100 ∧ tens.toNat = value.toNat / 10 % 10 ∧
        units.toNat = value.toNat % 10 := by
    simp [Machine.decimalDigits, ← UInt8.toNat_inj, UInt8.toNat_div, UInt8.toNat_mod]
  rw [htoNat]
  constructor
  · rintro ⟨hh, ht, hu, heq⟩
    omega
  · rintro ⟨hh, ht, hu⟩
    exact ⟨by omega, by omega, by omega, by omega⟩

/-- An instruction that moves data from the registers to memory or back. -/
def Instruction.MovesData : Instruction → Prop
  | bcd _ | store _ | restore _ => True
  | _ => False

/-- At the start memory holds the font, and zeros above it. -/
theorem Memory.get_initial {address : Nat} (h : address < 4096) :
    initial.get address = if address < 80 then Font.bytes.getD address 0 else 0 := by
  rw [initial, get_write _ _ _ _ h]
  by_cases hfont : address < 80
  · have hmem : Font.start ≤ address ∧ address < Font.start + Font.bytes.length :=
      ⟨Nat.zero_le _, hfont⟩
    rw [dif_pos hmem, if_pos hfont, List.getD_eq_getElem?_getD,
      List.getElem?_eq_getElem hfont]
    rfl
  · rw [dif_neg fun hmem => hfont hmem.2, if_neg hfont, get_of_lt h]
    exact Vector.getElem_replicate h

namespace Machine

variable {m m' : Machine} {a : Action} {i : Instruction} {address : Nat} {byte : UInt8}

/-! ## What an instruction writes -/

/-- The bytes that an instruction writes at the index register. -/
def bytesAtIndex (m : Machine) : Instruction → List UInt8
  | .bcd x => decimalDigits (m.v x)
  | .store x => m.registers.first (x.toNat + 1)
  | _ => []

/-- A plain instruction writes nothing. -/
theorem bytesAtIndex_of_isPlain (hi : i.IsPlain) (m : Machine) : m.bytesAtIndex i = [] := by
  cases i
  case bcd | store => exact absurd hi id
  all_goals rfl

/-- Memory changes by the bytes that an instruction writes. -/
theorem memory_of_execute (h : m.execute i = .ok m') :
    m'.memory = m.memory.write m.index.toNat (m.bytesAtIndex i) := by
  cases outcome_of_execute h with
  | plain isPlain =>
    rw [bytesAtIndex_of_isPlain isPlain]
    rfl
  | cleared | drawn | called | returned | digits | stored => rfl

/-- What is written fits between the index register and the end of memory. -/
theorem bytesAtIndex_fits (h : m.execute i = .ok m') (hne : m.bytesAtIndex i ≠ []) :
    m.index.toNat + (m.bytesAtIndex i).length ≤ 4096 := by
  cases outcome_of_execute h with
  | digits fits => exact fits
  | stored fits => exact fits
  | plain isPlain => exact absurd (bytesAtIndex_of_isPlain isPlain m) hne
  | cleared | drawn | called | returned => exact absurd rfl hne

theorem bytesAtIndex_record (m : Machine) (word : UInt16) (i : Instruction) :
    (m.record word).bytesAtIndex i = m.bytesAtIndex i := by
  cases i <;> rfl

/-! ## What an action puts -/

/-- The action puts a byte at an address. -/
inductive Puts (m : Machine) : Action → Nat → UInt8 → Prop where
  /-- An accepted image goes to `0x200` and the addresses behind it. -/
  | image {image : List UInt8} {k : Nat} {byte : UInt8}
      (accepted : (m.perform (.load image)).1 = .done) (byte_eq : image[k]? = some byte) :
      Puts m (.load image) (0x200 + k) byte
  /-- A stored register goes as far behind the index register as its number says. -/
  | register {a : Action} {x : UInt8} {k : Nat} (executed_eq : m.executed? a = some (.store x))
      (le : k ≤ x.toNat) : Puts m a (m.index.toNat + k) (m.v (UInt8.ofNat k))
  | hundreds {a : Action} {x h t u : UInt8} (executed_eq : m.executed? a = some (.bcd x))
      (digits : IsDigits (m.v x) h t u) : Puts m a m.index.toNat h
  | tens {a : Action} {x h t u : UInt8} (executed_eq : m.executed? a = some (.bcd x))
      (digits : IsDigits (m.v x) h t u) : Puts m a (m.index.toNat + 1) t
  | units {a : Action} {x h t u : UInt8} (executed_eq : m.executed? a = some (.bcd x))
      (digits : IsDigits (m.v x) h t u) : Puts m a (m.index.toNat + 2) u

/-- An executed instruction puts the bytes that it writes one after the other. -/
theorem puts_iff_of_executed? (hx : m.executed? a = some i) (hi : i.InRange) :
    m.Puts a address byte ↔
      ∃ k, address = m.index.toNat + k ∧ (m.bytesAtIndex i)[k]? = some byte := by
  constructor
  · intro h
    cases h with
    | image => cases hx
    | register executed_eq le =>
      cases hx.symm.trans executed_eq
      refine ⟨_, rfl, ?_⟩
      rw [bytesAtIndex, Registers.getElem?_first _ (Nat.succ_le_of_lt hi),
        if_pos (Nat.lt_succ_of_le le)]
      rfl
    | hundreds executed_eq digits =>
      cases hx.symm.trans executed_eq
      refine ⟨0, rfl, ?_⟩
      rw [bytesAtIndex, ← isDigits_iff.mp digits]
      rfl
    | tens executed_eq digits =>
      cases hx.symm.trans executed_eq
      refine ⟨1, rfl, ?_⟩
      rw [bytesAtIndex, ← isDigits_iff.mp digits]
      rfl
    | units executed_eq digits =>
      cases hx.symm.trans executed_eq
      refine ⟨2, rfl, ?_⟩
      rw [bytesAtIndex, ← isDigits_iff.mp digits]
      rfl
  · rintro ⟨k, rfl, hk⟩
    cases i
    case store x =>
      rw [bytesAtIndex, Registers.getElem?_first _ (Nat.succ_le_of_lt hi)] at hk
      split at hk
      next hle =>
        cases hk
        exact .register hx (Nat.le_of_lt_succ hle)
      next => cases hk
    case bcd x =>
      -- three digits, so no fourth byte
      have digits := isDigits_iff.mpr (rfl : _ = decimalDigits (m.v x))
      match k with
      | 0 =>
        cases hk
        exact .hundreds hx digits
      | 1 =>
        cases hk
        exact .tens hx digits
      | 2 =>
        cases hk
        exact .units hx digits
      | k + 3 => cases hk
    all_goals cases hk

/-- Without an instruction, all that is put is an accepted image. -/
theorem puts_iff_of_executed?_eq_none (hx : m.executed? a = none) :
    m.Puts a address byte ↔ ∃ image k, a = .load image ∧ (m.perform a).1 = .done ∧
      address = 0x200 + k ∧ image[k]? = some byte := by
  constructor
  · intro h
    cases h with
    | image accepted byte_eq => exact ⟨_, _, rfl, accepted, rfl, byte_eq⟩
    | register executed_eq | hundreds executed_eq | tens executed_eq | units executed_eq =>
      cases hx.symm.trans executed_eq
  · rintro ⟨image, k, rfl, accepted, rfl, byte_eq⟩
    exact .image accepted byte_eq

/-- Neither an instruction nor an accepted image means that nothing is put. -/
theorem not_puts_of_not_load (hx : m.executed? a = none)
    (hload : ∀ image, a = .load image → (m.perform a).1 ≠ .done) : ¬ m.Puts a address byte := by
  rw [puts_iff_of_executed?_eq_none hx]
  rintro ⟨image, k, ha, accepted, -⟩
  exact hload image ha accepted

/-- Without an instruction, memory changes by an accepted image alone. -/
theorem memory_perform_of_executed?_eq_none (hx : m.executed? a = none) (hreset : a ≠ .reset) :
    (∃ image, a = .load image ∧ (m.perform a).1 = .done ∧ image.length ≤ 3584 ∧
      (m.perform a).2.memory = m.memory.write 0x200 image) ∨
    (∀ image, a = .load image → (m.perform a).1 ≠ .done) ∧
      (m.perform a).2.memory = m.memory := by
  have heffect := effect_perform m a
  generalize (m.perform a).2 = m' at heffect ⊢
  cases heffect with
  | executed word executed_eq => cases hx.symm.trans executed_eq
  | reset => exact absurd rfl hreset
  | @loaded image length_le =>
    have accepted : (m.perform (.load image)).1 = .done := by
      rw [perform, load_of_le length_le]
      rfl
    exact Or.inl ⟨image, rfl, accepted, length_le, rfl⟩
  | refused word reply_eq =>
    refine Or.inr ⟨?_, rfl⟩
    rintro image rfl accepted
    cases reply_eq.symm.trans accepted
  | keyed moves =>
    refine Or.inr ⟨?_, rfl⟩
    rintro image rfl
    exact absurd moves id
  | skipped | ticked | cleared | taken =>
    refine Or.inr ⟨?_, rfl⟩
    rintro image ⟨⟩

/-- All that an action puts are the bytes of one list, which memory has room for. -/
theorem exists_write (ha : a.InRange) (hreset : a ≠ .reset) :
    ∃ start bytes, (m.perform a).2.memory = m.memory.write start bytes ∧
      (bytes ≠ [] → start + bytes.length ≤ 4096) ∧
      ∀ address byte, m.Puts a address byte ↔
        ∃ k, address = start + k ∧ bytes[k]? = some byte := by
  cases hx : m.executed? a with
  | some i =>
    obtain ⟨word, he⟩ := execute_of_executed? hx
    have hmemory := memory_of_execute he
    have hfits := bytesAtIndex_fits he
    rw [bytesAtIndex_record] at hmemory hfits
    exact ⟨_, _, hmemory, hfits,
      fun _ _ => puts_iff_of_executed? hx (inRange_of_executed? ha hx)⟩
  | none =>
    rcases memory_perform_of_executed?_eq_none hx hreset with
      ⟨image, rfl, accepted, hlength, hmemory⟩ | ⟨hload, hmemory⟩
    · refine ⟨0x200, image, hmemory, fun _ => by omega, fun address byte => ?_⟩
      rw [puts_iff_of_executed?_eq_none hx]
      constructor
      · rintro ⟨other, k, hother, -, hk⟩
        cases hother
        exact ⟨k, hk⟩
      · rintro ⟨k, hk⟩
        exact ⟨image, k, rfl, accepted, hk⟩
    · exact ⟨0, [], hmemory, absurd rfl, fun _ _ =>
        iff_of_false (not_puts_of_not_load hx hload) (by simp)⟩

/-- Nothing is put past the end of memory. -/
theorem lt_of_puts (ha : a.InRange) (h : m.Puts a address byte) : address < 4096 := by
  have hreset : a ≠ .reset := by
    rintro rfl
    cases h <;> contradiction
  obtain ⟨start, bytes, -, hfits, hputs⟩ := exists_write (m := m) ha hreset
  obtain ⟨k, rfl, hk⟩ := (hputs _ _).mp h
  obtain ⟨hlt, -⟩ := List.getElem?_eq_some_iff.mp hk
  have hle := hfits (List.ne_nil_of_length_pos (Nat.zero_lt_of_lt hlt))
  omega

/-- A byte that is put at an address is there afterwards. -/
theorem get_perform_of_puts (ha : a.InRange) (h : m.Puts a address byte) :
    (m.perform a).2.memory.get address = byte := by
  have hreset : a ≠ .reset := by
    rintro rfl
    cases h <;> contradiction
  have hlt := lt_of_puts ha h
  obtain ⟨start, bytes, hmemory, -, hputs⟩ := exists_write (m := m) ha hreset
  obtain ⟨k, rfl, hk⟩ := (hputs _ _).mp h
  obtain ⟨hk', hbyte⟩ := List.getElem?_eq_some_iff.mp hk
  rw [hmemory, Memory.get_write _ _ _ _ hlt, dif_pos ⟨by omega, by omega⟩]
  simpa using hbyte

/-- An address at which no byte is put keeps the byte that it has. -/
theorem get_perform_of_not_puts (ha : a.InRange) (hreset : a ≠ .reset)
    (h : ∀ byte, ¬ m.Puts a address byte) :
    (m.perform a).2.memory.get address = m.memory.get address := by
  obtain ⟨start, bytes, hmemory, -, hputs⟩ := exists_write (m := m) ha hreset
  rw [hmemory, Memory.get_write_of_not_mem]
  rintro ⟨hle, hlt⟩
  have hbyte : bytes[address - start]? = some bytes[address - start] :=
    List.getElem?_eq_getElem (by omega)
  exact h _ ((hputs _ _).mpr ⟨address - start, by omega, hbyte⟩)

/-- The three instructions that move data between memory and the registers leave the index register
as it is. -/
theorem index_of_execute (hi : i.MovesData) (h : m.execute i = .ok m') : m'.index = m.index := by
  cases i
  case bcd | store =>
    obtain ⟨-, rfl⟩ := storeAtIndex_eq_ok_iff.mp h
    rfl
  case restore =>
    obtain ⟨-, rfl⟩ := restoreFromIndex_eq_ok_iff.mp h
    rfl
  all_goals exact absurd hi id

/-- As actions, these instructions leave the index register alone, too. -/
theorem index_perform (hx : m.executed? a = some i) (hi : i.MovesData) :
    (m.perform a).2.index = m.index := by
  obtain ⟨word, he⟩ := execute_of_executed? hx
  have hindex : (m.perform a).2.index = (m.record word).index := index_of_execute hi he
  exact hindex

/-! ## Histories -/

variable {actions : List Action}

/-- Some action of a history puts a byte at an address. -/
def PutsIn (m : Machine) (actions : List Action) (address : Nat) : Prop :=
  OccursIn (fun m a => ∃ byte, m.Puts a address byte) m actions

/-- The last byte that a history puts at an address. -/
def LastPut (m : Machine) (actions : List Action) (address : Nat) (byte : UInt8) : Prop :=
  ∃ before a rest, actions = before ++ a :: rest ∧ (m.after before).Puts a address byte ∧
    ¬ (m.after (before ++ [a])).PutsIn rest address

/-- Where bytes are put at all, one of them is the last. -/
theorem PutsIn.exists_lastPut (h : m.PutsIn actions address) :
    ∃ byte, m.LastPut actions address byte := by
  obtain ⟨before, a, rest, hsplit, ⟨byte, hputs⟩, hlast⟩ := h.exists_last
  exact ⟨byte, before, a, rest, hsplit, hputs, hlast⟩

/-- An address keeps its byte along a history that puts none there. -/
theorem get_after_of_not_putsIn (ha : ∀ a ∈ actions, a ≠ .reset ∧ a.InRange)
    (h : ¬ m.PutsIn actions address) :
    (m.after actions).memory.get address = m.memory.get address := by
  induction actions generalizing m with
  | nil => rfl
  | cons a as ih =>
    rw [PutsIn, occursIn_cons, not_or, not_exists] at h
    obtain ⟨hfirst, hrest⟩ := h
    obtain ⟨hreset, hrange⟩ := ha a List.mem_cons_self
    rw [after_cons, ih (fun b hb => ha b (List.mem_cons_of_mem a hb)) hrest,
      get_perform_of_not_puts hrange hreset hfirst]

/-- An address holds the last byte that was put there. -/
theorem LastPut.get_after (ha : ∀ a ∈ actions, a ≠ .reset ∧ a.InRange)
    (h : m.LastPut actions address byte) : (m.after actions).memory.get address = byte := by
  obtain ⟨before, a, rest, rfl, hputs, hlast⟩ := h
  have hrange : a.InRange := (ha a (by simp)).2
  have hrest : ∀ b ∈ rest, b ≠ .reset ∧ b.InRange := fun b hb => ha b (by simp [hb])
  rw [List.append_cons, after_append, get_after_of_not_putsIn hrest hlast, after_concat]
  exact get_perform_of_puts hrange hputs

/-- After any history of a new machine without a reset, an address holds the last byte that was put
there, or else what it held from the start. Nothing is put past the end of memory, what is refused
leaves memory alone, also where it is made in place, and moving data to or from memory leaves the
index register alone. -/
theorem memory_after_fresh (random : RandomSource) (keypad : Keypad) {actions : List Action}
    (ha : ∀ a ∈ actions, a ≠ .reset ∧ a.InRange) :
    let start := fresh random keypad
    (∀ address < 4096, ∀ byte, (start.after actions).memory.get address = byte ↔
      start.LastPut actions address byte ∨ (¬ start.PutsIn actions address ∧
        byte = if address < 80 then Font.bytes.getD address 0 else 0)) ∧
    ∀ before a rest, actions = before ++ a :: rest →
      let m := start.after before
      (∀ address byte, m.Puts a address byte → address < 4096) ∧
      (∀ fault, (m.perform a).1 = .refused fault → (m.perform a).2.memory = m.memory ∧
        ((Procedure.perform a).run m).result = .error fault ∧
        ((Procedure.perform a).run m).machine.memory = m.memory) ∧
      ∀ i, m.executed? a = some i → i.MovesData → (m.perform a).2.index = m.index := by
  intro start
  refine ⟨?_, ?_⟩
  · intro address hlt byte
    have hstart : start.memory.get address =
        if address < 80 then Font.bytes.getD address 0 else 0 := Memory.get_initial hlt
    by_cases hputs : start.PutsIn actions address
    · obtain ⟨last, hlast⟩ := hputs.exists_lastPut
      constructor
      · intro hbyte
        rw [hlast.get_after ha] at hbyte
        exact Or.inl (hbyte ▸ hlast)
      · rintro (h | ⟨hnot, -⟩)
        · exact h.get_after ha
        · exact absurd hputs hnot
    · -- where nothing was put there is no last byte put
      have hnone : ¬ start.LastPut actions address byte := by
        rintro ⟨before, a, rest, hsplit, hput, -⟩
        exact hputs ⟨before, a, rest, hsplit, byte, hput⟩
      rw [get_after_of_not_putsIn ha hputs, hstart]
      simp [hnone, hputs, eq_comm]
  · rintro before a rest rfl m
    have hrange : a.InRange := (ha a (by simp)).2
    refine ⟨fun address byte => lt_of_puts hrange, ?_, fun i => index_perform⟩
    intro fault hrefused
    obtain ⟨word, hm⟩ := perform_of_refused hrefused
    obtain ⟨hresult, word', hm'⟩ := Procedure.perform_of_refused hrange hrefused
    refine ⟨?_, hresult, ?_⟩
    · rw [hm]
      rfl
    · rw [hm']
      rfl

/-- A program stores a register over its own first byte and leaves its second one. Three digits do
not fit at the end of memory and are refused. -/
theorem memory_after_fresh_selfModifying :
    let before := [Action.load [0x60, 0x89, 0xA2, 0x00, 0xF0, 0x55], .step, .step, .step,
      .execute (.setIndex 0xFFE)]
    let actions := before ++ [.execute (.bcd 0), .tick]
    let start := fresh (.ofSeed 0) .released
    (∀ a ∈ actions, a ≠ .reset ∧ a.InRange) ∧
      start.LastPut actions 0x200 0x89 ∧ start.LastPut actions 0x201 0x89 ∧
      ((start.after before).perform (.execute (.bcd 0))).1 = .refused (.outOfMemory 0x1000) ∧
      ((start.after before).perform (.execute (.bcd 0))).2.memory = (start.after before).memory ∧
      ((Procedure.perform (.execute (.bcd 0))).run (start.after before)).machine.memory =
        (start.after before).memory := by
  intro before actions
  have ha : ∀ a ∈ actions, a ≠ .reset ∧ a.InRange := by
    simp [actions, before, Action.InRange, Instruction.InRange]
  obtain ⟨hmemory, hactions⟩ := memory_after_fresh (.ofSeed 0) .released ha
  have hstored := (hmemory 0x200 (by decide) 0x89).mp (by decide +kernel)
  have himage := (hmemory 0x201 (by decide) 0x89).mp (by decide +kernel)
  have hrefused : (((fresh (.ofSeed 0) .released).after before).perform (.execute (.bcd 0))).1 =
      .refused (.outOfMemory 0x1000) := by
    decide +kernel
  obtain ⟨-, hkeeps, -⟩ := hactions before (.execute (.bcd 0)) [.tick] rfl
  obtain ⟨hkept, -, hplace⟩ := hkeeps _ hrefused
  exact ⟨ha, hstored.resolve_right fun h => absurd h.2 (by decide),
    himage.resolve_right fun h => absurd h.2 (by decide), hrefused, hkept, hplace⟩

end Machine

end Chip8
