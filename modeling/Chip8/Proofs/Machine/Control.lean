import Chip8.Proofs.Machine.Outcome

/-!
# Control

What an instruction does to the program counter and the return stack. Only calls and returns touch
the stack, and all others go to one of the places of `Flow`.
-/

namespace Chip8.Machine

variable {m m' : Machine} {i : Instruction}

/-- How a machine gets on by an instruction, as far as its control is concerned. -/
inductive Moves (m : Machine) : Instruction → Machine → Prop where
  | call {address : UInt16} {stack : ReturnStack} (push : m.stack.push? m.pc = some stack) :
      Moves m (.call address) { m with stack := stack, pc := address }
  | ret {address : UInt16} {stack : ReturnStack} (pop : m.stack.pop? = some (address, stack)) :
      Moves m .ret { m with stack := stack, pc := address + 2 }
  | flow {i : Instruction} {m' : Machine} (not_call : ∀ address, i ≠ .call address)
      (not_ret : i ≠ .ret) (stack_eq : m'.stack = m.stack) (flow : Flow m i m'.pc) : Moves m i m'

/-- Every executed instruction moves in one of these ways. -/
theorem moves_of_execute (h : m.execute i = .ok m') : Moves m i m' := by
  cases outcome_of_execute h with
  | called push => exact .call push
  | returned pop => exact .ret pop
  | plain isPlain flow =>
    refine .flow ?_ ?_ rfl flow
    · rintro address rfl
      exact isPlain
    · rintro rfl
      exact isPlain
  | cleared | drawn | digits | stored => exact .flow (by simp) (by simp) rfl (flow_next _ _)

end Chip8.Machine
