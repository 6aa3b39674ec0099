import Chip8.Proofs.Keypad.Readers
import Chip8.Proofs.Machine.Draw

/-!
# The next address

Where an executed instruction leads to. `successor` gives the address for every instruction from
the state before it, and `pc_of_execute` says that the machine goes there.

## Shape of the proof

Instructions do not share the way in which they move on: some set the program counter themselves,
others leave it to the operation that writes their registers. So every instruction is gone through
once, in `pc_of_execute`. Two skips with the same operands and opposite conditions are compared
through the one condition that both read (`branch_skipIf`), and a wait goes on exactly if there is
a lowest key that is down (`firstPressed?_eq_none_iff`).
-/

namespace Chip8

namespace ReturnStack

variable {s t : ReturnStack} {address : UInt16}

/-- The last return address. With no slot in use it is what the first slot keeps. -/
def top (s : ReturnStack) : UInt16 :=
  have h := s.depth_le
  s.slots[s.depth - 1]

/-- What is popped is the last return address. -/
theorem top_of_pop? (h : s.pop? = some (address, t)) : s.top = address := by
  obtain ⟨hdepth, -, hslot⟩ := pop?_eq_some h
  obtain ⟨hlt, rfl⟩ := Vector.getElem?_eq_some_iff.mp hslot
  have hlast : s.depth - 1 = t.depth := by omega
  simp only [top, hlast]

end ReturnStack

namespace Machine

variable {m m' : Machine} {i j : Instruction}

/-! ## Where an instruction leads to -/

/-- The address that an instruction leads to. It is reckoned modulo 65536. -/
def successor (m : Machine) : Instruction → UInt16
  | .jump address | .call address => address
  | .jumpOffset address => address + (m.v 0).toUInt16
  | .ret => m.stack.top + 2
  | .skipEqByte x nn => m.pc + if m.v x = nn then 4 else 2
  | .skipNeByte x nn => m.pc + if m.v x = nn then 2 else 4
  | .skipEq x y => m.pc + if m.v x = m.v y then 4 else 2
  | .skipNe x y => m.pc + if m.v x = m.v y then 2 else 4
  | .skipKey x => m.pc + if m.keypad.isDown (m.v x) then 4 else 2
  | .skipNotKey x => m.pc + if m.keypad.isDown (m.v x) then 2 else 4
  | .waitKey _ => m.pc + if m.keypad = .released then 0 else 2
  | _ => m.pc + 2

section skipIf

variable {condition : Bool} {p : Prop} [Decidable p]

/-- A skip leads to the word after the next one if its condition holds. -/
theorem pc_skipIf (h : condition = true ↔ p) :
    (m.skipIf condition).pc = m.pc + if p then 4 else 2 :=
  congrArg (m.pc + ·) (if_congr h rfl rfl)

/-- A skip with the opposite condition does so if it does not hold. -/
theorem pc_skipIf_not (h : condition = true ↔ p) :
    (m.skipIf !condition).pc = m.pc + if p then 2 else 4 := by
  rw [← if_congr h rfl rfl]
  cases condition <;> rfl

end skipIf

/-- An executed instruction leads to its successor. -/
theorem pc_of_execute (h : m.execute i = .ok m') : m'.pc = m.successor i := by
  cases i
  -- those with a condition first, then those that can be refused
  case skipEqByte | skipEq =>
    cases h
    exact pc_skipIf beq_iff_eq
  case skipNeByte | skipNe =>
    cases h
    exact pc_skipIf_not beq_iff_eq
  case skipKey =>
    cases h
    exact pc_skipIf Iff.rfl
  case skipNotKey =>
    cases h
    exact pc_skipIf_not Iff.rfl
  case waitKey x =>
    show m'.pc = m.pc + if m.keypad = .released then 0 else 2
    rw [execute] at h
    split at h
    next key hkey =>
      have hdown : m.keypad ≠ .released := by
        intro hup
        rw [Keypad.firstPressed?_eq_none_iff.mpr hup] at hkey
        cases hkey
      cases h
      rw [if_neg hdown]
      rfl
    next hnone =>
      cases h
      rw [if_pos (Keypad.firstPressed?_eq_none_iff.mp hnone)]
      exact (UInt16.add_zero m.pc).symm
  case ret =>
    obtain ⟨address, stack, hpop, rfl⟩ := ret_eq_ok_iff.mp h
    show address + 2 = m.stack.top + 2
    rw [ReturnStack.top_of_pop? hpop]
  case call address =>
    obtain ⟨stack, -, rfl⟩ := call_eq_ok_iff.mp h
    rfl
  case draw x y n =>
    obtain ⟨-, rfl⟩ := draw_eq_ok_iff.mp h
    rfl
  case bcd | store =>
    obtain ⟨-, rfl⟩ := storeAtIndex_eq_ok_iff.mp h
    rfl
  case restore =>
    obtain ⟨-, rfl⟩ := restoreFromIndex_eq_ok_iff.mp h
    rfl
  all_goals
    cases h
    rfl

/-- A fetched instruction leads to its successor. -/
theorem pc_of_step (h : m.step = (.ok i, m')) : m'.pc = m.successor i := by
  obtain ⟨word, -, -, hexecute⟩ := step_eq_ok_iff.mp h
  -- no condition looks at the word on record
  have hrecord : (m.record word).successor i = m.successor i := by cases i <;> rfl
  rw [pc_of_execute hexecute, hrecord]

/-! ## Opposite conditions -/

/-- Two skips with the same operands and opposite conditions. -/
inductive Opposite : Instruction → Instruction → Prop where
  | byte (x nn : UInt8) : Opposite (.skipEqByte x nn) (.skipNeByte x nn)
  | register (x y : UInt8) : Opposite (.skipEq x y) (.skipNe x y)
  | key (x : UInt8) : Opposite (.skipKey x) (.skipNotKey x)

/-- One of the addresses is that of the next word and the other that of the word after it. -/
def Branch (m : Machine) (pc₁ pc₂ : UInt16) : Prop :=
  pc₁ = m.pc + 4 ∧ pc₂ = m.pc + 2 ∨ pc₁ = m.pc + 2 ∧ pc₂ = m.pc + 4

/-- Skips with opposite conditions lead to different words. -/
theorem branch_skipIf (m : Machine) (condition : Bool) :
    m.Branch (m.skipIf condition).pc (m.skipIf !condition).pc := by
  cases condition
  · exact Or.inr ⟨rfl, rfl⟩
  · exact Or.inl ⟨rfl, rfl⟩

/-- Of two opposite skips, one skips and the other does not. -/
theorem exists_branch (m : Machine) (h : Opposite i j) :
    ∃ m₁ m₂, m.execute i = .ok m₁ ∧ m.execute j = .ok m₂ ∧ m.Branch m₁.pc m₂.pc := by
  cases h with
  | byte | register | key => exact ⟨_, _, rfl, rfl, branch_skipIf m _⟩

/-! ## Waiting -/

/-- The next word is another one. -/
theorem add_two_ne (address : UInt16) : address + 2 ≠ address := by
  intro h
  have hlt := address.toNat_lt
  have htwo : (2 : UInt16).toNat = 2 := rfl
  have hsum := congrArg UInt16.toNat h
  rw [UInt16.toNat_add, htwo] at hsum
  omega

/-- A wait for a key is never refused, and it stays where it is exactly as long as no key is
down. -/
theorem exists_waitKey (m : Machine) (x : UInt8) :
    ∃ m', m.execute (.waitKey x) = .ok m' ∧
      (m'.pc = m.pc ↔ ∀ key, m.keypad.isDown key = false) := by
  obtain ⟨m', hm'⟩ : ∃ m', m.execute (.waitKey x) = .ok m' := by
    rw [execute]
    split <;> exact ⟨_, rfl⟩
  have hpc : m'.pc = m.pc + if m.keypad = .released then 0 else 2 := pc_of_execute hm'
  refine ⟨m', hm', ?_⟩
  rw [hpc, ← Keypad.eq_released_iff]
  split
  next hup => exact iff_of_true (UInt16.add_zero m.pc) hup
  next hdown => exact iff_of_false (add_two_ne m.pc) hdown

/-- Every instruction that is executed leads to its successor, be it fetched or not. Opposite skips
take opposite branches from every state. A register that numbers no key counts as a key that is up.
And a wait stays where it is exactly as long as no key is down. -/
theorem execute_successor (m : Machine) :
    (∀ i m', m.execute i = .ok m' → m'.pc = m.successor i) ∧
    (∀ i m', m.step = (.ok i, m') → m'.pc = m.successor i) ∧
    (∀ i j, Opposite i j →
      ∃ m₁ m₂, m.execute i = .ok m₁ ∧ m.execute j = .ok m₂ ∧ m.Branch m₁.pc m₂.pc) ∧
    (∀ x, 16 ≤ (m.v x).toNat →
      m.successor (.skipKey x) = m.pc + 2 ∧ m.successor (.skipNotKey x) = m.pc + 4) ∧
    ∀ x, ∃ m', m.execute (.waitKey x) = .ok m' ∧
      (m'.pc = m.pc ↔ ∀ key, m.keypad.isDown key = false) := by
  refine ⟨fun _ _ => pc_of_execute, fun _ _ => pc_of_step, fun _ _ => exists_branch m, ?_, ?_⟩
  · intro x hx
    have hup : ¬m.keypad.isDown (m.v x) = true := by
      rw [Keypad.isDown_of_le hx]
      exact Bool.false_ne_true
    exact ⟨congrArg (m.pc + ·) (if_neg hup), congrArg (m.pc + ·) (if_neg hup)⟩
  · exact fun x => exists_waitKey m x

/-- A machine at the last address, with V1 beyond the numbers of the keys and key 0 down. -/
def farKey : Machine :=
  { ofSeed 0 with
    pc := 0xFFFE
    registers := Registers.zero.set 1 0x10
    keypad := ⟨Keypad.released.down.set 0 true⟩ }

/-- No key has the number in V1, though its last digit is that of the key that is down. So the skip
for a key that is up goes past the end of the addresses, and its opposite only to the first one. A
wait for a key goes on. -/
theorem execute_successor_farKey :
    (∃ m₁ m₂, farKey.execute (.skipKey 1) = .ok m₁ ∧ farKey.execute (.skipNotKey 1) = .ok m₂ ∧
      m₁.pc = 0 ∧ m₂.pc = 2) ∧
    ∃ m', farKey.execute (.waitKey 3) = .ok m' ∧ m'.pc ≠ farKey.pc := by
  obtain ⟨hpc, -, hopposite, hbeyond, hwait⟩ := execute_successor farKey
  obtain ⟨m₁, m₂, h₁, h₂, -⟩ := hopposite _ _ (.key 1)
  obtain ⟨hkey, hnotKey⟩ := hbeyond 1 (by decide)
  obtain ⟨m', hm', hstay⟩ := hwait 3
  have hpc₁ := (hpc _ m₁ h₁).trans hkey
  have hpc₂ := (hpc _ m₂ h₂).trans hnotKey
  refine ⟨⟨m₁, m₂, h₁, h₂, hpc₁, hpc₂⟩, m', hm', ?_⟩
  intro hpc
  exact absurd (hstay.mp hpc 0) (by decide)

end Machine

end Chip8
