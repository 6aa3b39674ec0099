import Chip8.Proofs.Machine.Control
import Chip8.Proofs.Machine.Effect

/-!
# How far a machine gets

The program counter of a running machine never passes `0x10FE`, and the return addresses in use
never pass `0xFFE`.

## Shape of the invariant

The two bounds hold each other up (`Bounded`). An instruction is executed only where a whole word is
left, so at `0xFFE` or before. This is what a call stores, and a return goes two further. The
farthest jump is the one to the sum of an address of three digits and a byte. Where the program
counter ends up past the last word, no fetch succeeds and it stays.
-/

namespace Chip8.Machine

variable {m m' : Machine} {i : Instruction}

/-- The program counter is within reach of a jump, and each return address in use is that of a
word. -/
structure Bounded (m : Machine) : Prop where
  pc_le : m.pc.toNat ≤ 0x10FE
  slot_le : ∀ k < m.stack.depth, ∀ address : UInt16, m.stack.slots[k]? = some address →
    address.toNat ≤ 0xFFE

/-- Nothing but the program counter and the stack matters. -/
theorem Bounded.congr (h : m.Bounded) (hpc : m'.pc = m.pc) (hstack : m'.stack = m.stack) :
    m'.Bounded where
  pc_le := hpc ▸ h.pc_le
  slot_le := hstack ▸ h.slot_le

/-- At the program start, with an empty stack. -/
theorem bounded_of_empty (hpc : m.pc = 0x200) (hdepth : m.stack.depth = 0) : m.Bounded where
  pc_le := by
    rw [hpc]
    decide
  slot_le k hk := by omega

/-! ## Steps -/

/-- A word is fetched only where a whole word is left. -/
theorem pc_le_of_fetch {word : UInt16} (h : m.fetch = .ok word) : m.pc.toNat ≤ 0xFFE := by
  by_contra hpc
  rw [fetch_of_le (by omega)] at h
  cases h

/-- Two more, around the end of the type. -/
private theorem toNat_add_two (pc : UInt16) : (pc + 2).toNat = (pc.toNat + 2) % 65536 :=
  UInt16.toNat_add pc 2

/-- Only a jump with an offset leads past the last word by more than a skip. -/
theorem pc_le_of_flow {pc : UInt16} (hi : i.InRange) (hpc : m.pc.toNat ≤ 0xFFE)
    (h : Flow m i pc) : pc.toNat ≤ 0x10FE := by
  rcases h with rfl | rfl | rfl | rfl | ⟨address, rfl, rfl⟩
  · omega
  · rw [toNat_add_two]
    omega
  · have h4 : (m.pc + 4).toNat = (m.pc.toNat + 4) % 65536 := UInt16.toNat_add m.pc 4
    omega
  · have hlt : pc.toNat < 4096 := hi
    omega
  · have hlt : address.toNat < 4096 := hi
    have hv := (m.v 0).toNat_lt
    rw [UInt16.toNat_add, UInt8.toNat_toUInt16]
    omega

/-- Whatever an instruction does to the program counter and the stack, the bounds hold. -/
theorem Bounded.moves (h : m.Bounded) (hi : i.InRange) (hpc : m.pc.toNat ≤ 0xFFE)
    (hm : Moves m i m') : m'.Bounded := by
  cases hm with
  | @call address stack push =>
    have hlt : address.toNat < 4096 := hi
    have hdepth := ReturnStack.depth_push? push
    refine ⟨?_, ?_⟩
    · show address.toNat ≤ 0x10FE
      omega
    · intro k hk a ha
      have hk' : k < stack.depth := hk
      rw [ReturnStack.getElem?_push? push] at ha
      -- the new slot holds the program counter, and the others hold what they held
      split at ha
      next => exact Option.some.inj ha ▸ hpc
      next hne => exact h.slot_le k (by omega) a ha
  | @ret address stack pop =>
    obtain ⟨hdepth, hslots, htop⟩ := ReturnStack.pop?_eq_some pop
    have hle := h.slot_le stack.depth (by omega) address htop
    refine ⟨?_, ?_⟩
    · show (address + 2).toNat ≤ 0x10FE
      rw [toNat_add_two]
      omega
    · intro k hk a ha
      have hk' : k < stack.depth := hk
      rw [hslots] at ha
      exact h.slot_le k (by omega) a ha
  | flow _ _ stack_eq flow =>
    exact ⟨pc_le_of_flow hi hpc flow, stack_eq ▸ h.slot_le⟩

/-- A step, successful or not, keeps within the bounds. -/
theorem Bounded.step (h : m.Bounded) : m.step.2.Bounded := by
  rcases hs : m.step with ⟨answer, m'⟩
  cases answer with
  | error fault =>
    obtain ⟨-, rfl⟩ := step_eq_error_iff.mp hs
    exact h.congr rfl rfl
  | ok i =>
    obtain ⟨word, hf, hd, he⟩ := step_eq_ok_iff.mp hs
    have hrec : (m.record word).Bounded := h.congr rfl rfl
    exact hrec.moves (Instruction.inRange_of_decode? hd) (pc_le_of_fetch hf) (moves_of_execute he)

/-- A word that is no instruction was fetched, so it can be stepped over. -/
theorem Bounded.skip {word address : UInt16} (h : m.Bounded)
    (hs : m.step.1 = .error (.unknownOpcode word address)) : m.step.2.skip.Bounded := by
  rcases hm : m.step with ⟨answer, m'⟩
  rw [hm] at hs
  obtain rfl : answer = .error (.unknownOpcode word address) := hs
  obtain ⟨hf, rfl⟩ := step_eq_error_iff.mp hm
  have hpc : m.pc.toNat ≤ 0xFFE := by
    by_contra hpc
    rw [stepFault?, fetch_of_le (by omega)] at hf
    cases hf
  refine ⟨?_, h.slot_le⟩
  show (m.pc + 2).toNat ≤ 0x10FE
  rw [toNat_add_two]
  omega

/-! ## Actions of the host -/

/-- An action of a host that leaves the execution of instructions to the driver. -/
def Action.IsHosting : Action → Prop
  | .load _ | .reset | .tick | .clearScreen | .takeFrame | .press _ | .release _ => True
  | .step | .execute _ | .skip => False

/-- Such an action executes no instruction, so it needs none that a word can hold. -/
theorem Action.IsHosting.inRange {a : Action} (ha : a.IsHosting) : a.InRange := by
  cases a with
  | execute i => exact absurd ha id
  | _ => trivial

/-- No hosting action leads out of the bounds. -/
theorem Bounded.perform {a : Action} (ha : a.IsHosting) (h : m.Bounded) :
    (m.perform a).2.Bounded := by
  cases a with
  | load image =>
    obtain ⟨memory, hm⟩ := perform_load m image
    exact hm ▸ h.congr rfl rfl
  | press | release =>
    rw [perform_of_keyEvent? rfl]
    exact h.congr rfl rfl
  | reset => exact bounded_of_empty rfl rfl
  | tick | clearScreen | takeFrame => exact h.congr rfl rfl
  | step | execute _ | skip => exact absurd ha id

end Chip8.Machine
