import Chip8.Proofs.Machine.Draw

/-!
# What an instruction does

Six instructions change the picture, the memory or the return stack. All others change registers,
the timers and the random source at most, and go to one of five places (`Flow`). `Outcome` lists
these ways, and `outcome_of_execute` is the one place where all instructions are gone through for
them: what an instruction leaves alone is read off the list.
-/

namespace Chip8

/-- An instruction that leaves the picture, the memory and the return stack alone. -/
def Instruction.IsPlain : Instruction → Prop
  | clear | draw _ _ _ | call _ | ret | bcd _ | store _ => False
  | _ => True

namespace Machine

variable {m m' : Machine} {i : Instruction}

/-- Where an instruction that is neither a call nor a return can lead to. -/
def Flow (m : Machine) (i : Instruction) (pc : UInt16) : Prop :=
  pc = m.pc ∨ pc = m.pc + 2 ∨ pc = m.pc + 4 ∨ i = .jump pc ∨
    ∃ address, i = .jumpOffset address ∧ pc = address + (m.v 0).toUInt16

/-- To go on with the next word is open to every instruction. -/
theorem flow_next (m : Machine) (i : Instruction) : Flow m i (m.pc + 2) :=
  Or.inr (Or.inl rfl)

theorem flow_skipIf (m : Machine) (i : Instruction) (condition : Bool) :
    Flow m i (m.skipIf condition).pc := by
  cases condition
  · exact Or.inr (Or.inl rfl)
  · exact Or.inr (Or.inr (Or.inl rfl))

/-- What an executed instruction makes of a machine. -/
inductive Outcome (m : Machine) : Instruction → Machine → Prop where
  | cleared : Outcome m .clear { m with screen := m.screen.clear, pc := m.pc + 2 }
  | drawn {x y n : UInt8} (fits : n = 0 ∨ m.index.toNat + n.toNat ≤ 4096) :
      Outcome m (.draw x y n) (m.drawn x y (m.memory.read m.index.toNat n.toNat))
  | called {address : UInt16} {stack : ReturnStack} (push : m.stack.push? m.pc = some stack) :
      Outcome m (.call address) { m with stack := stack, pc := address }
  | returned {address : UInt16} {stack : ReturnStack} (pop : m.stack.pop? = some (address, stack)) :
      Outcome m .ret { m with stack := stack, pc := address + 2 }
  | digits {x : UInt8} (fits : m.index.toNat + 3 ≤ 4096) :
      Outcome m (.bcd x) { m with
        memory := m.memory.write m.index.toNat (decimalDigits (m.v x)), pc := m.pc + 2 }
  | stored {x : UInt8} (fits : m.index.toNat + (m.registers.first (x.toNat + 1)).length ≤ 4096) :
      Outcome m (.store x) { m with
        memory := m.memory.write m.index.toNat (m.registers.first (x.toNat + 1)), pc := m.pc + 2 }
  | plain {i : Instruction} {pc index : UInt16} {registers : Registers} {delay sound : UInt8}
      {random : RandomSource} (isPlain : i.IsPlain) (flow : Flow m i pc) :
      Outcome m i { m with
        pc := pc, index := index, registers := registers, delay := delay, sound := sound,
        random := random }

/-- Every executed instruction has one of these outcomes. -/
theorem outcome_of_execute (h : m.execute i = .ok m') : Outcome m i m' := by
  -- first those that can be refused or wait, then the jumps and skips, then all that go on to the
  -- next word
  cases i
  case draw x y n =>
    obtain ⟨fits, rfl⟩ := draw_eq_ok_iff.mp h
    exact .drawn fits
  case call address =>
    obtain ⟨stack, push, rfl⟩ := call_eq_ok_iff.mp h
    exact .called push
  case ret =>
    obtain ⟨address, stack, pop, rfl⟩ := ret_eq_ok_iff.mp h
    exact .returned pop
  case bcd x =>
    obtain ⟨fits, rfl⟩ := storeAtIndex_eq_ok_iff.mp h
    exact .digits fits
  case store x =>
    obtain ⟨fits, rfl⟩ := storeAtIndex_eq_ok_iff.mp h
    exact .stored fits
  case restore x =>
    obtain ⟨-, rfl⟩ := restoreFromIndex_eq_ok_iff.mp h
    exact .plain trivial (flow_next _ _)
  case waitKey x =>
    rw [execute] at h
    split at h <;> cases h
    · exact .plain trivial (flow_next _ _)
    · exact .plain trivial (Or.inl rfl)
  case clear =>
    cases h
    exact .cleared
  case jump | jumpOffset =>
    cases h
    exact .plain trivial (by simp [Flow])
  case skipEqByte | skipNeByte | skipEq | skipNe | skipKey | skipNotKey =>
    cases h
    exact .plain trivial (flow_skipIf _ _ _)
  all_goals
    cases h
    exact .plain trivial (flow_next _ _)

/-- No instruction changes the word on record. -/
theorem opcode_of_execute (h : m.execute i = .ok m') : m'.opcode = m.opcode := by
  cases outcome_of_execute h <;> rfl

/-- No instruction changes the keypad. -/
theorem keypad_of_execute (h : m.execute i = .ok m') : m'.keypad = m.keypad := by
  cases outcome_of_execute h <;> rfl

end Machine

end Chip8
