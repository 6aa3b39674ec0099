import Chip8.Machine.Execute
import Chip8.Proofs.Instruction.Range

/-!
# Why a step fails

`execute` and `step` answer faults from six places. `refusal?` and `stepFault?` gather these into
one condition on the state, read off the program counter, the index register, the depth of the
stack and memory alone. `execute_eq_error_iff` and `step_eq_error_iff` say that the machine fails
exactly then, and `step_eq_ok_iff` takes a successful step apart.
-/

namespace Chip8

/-- A span is refused exactly if it ends beyond memory, by its last address. -/
theorem Memory.span_eq_error_iff {start count : Nat} {fault : Fault} :
    span start count = .error fault ↔
      4096 < start + count ∧ fault = .outOfMemory (start + count - 1) := by
  by_cases h : 4096 < start + count
  · rw [span, if_pos h]
    simp [h, eq_comm]
  · rw [span, if_neg h]
    simp [h]

/-- A span within memory is its start. -/
theorem Memory.span_eq_ok_iff {start count a : Nat} :
    span start count = .ok a ↔ start + count ≤ 4096 ∧ a = start := by
  by_cases h : 4096 < start + count
  · rw [span, if_pos h]
    simp [Nat.not_le.mpr h]
  · rw [span, if_neg h]
    simp [Nat.not_lt.mp h, eq_comm]

/-- There is no push with all slots in use. -/
theorem ReturnStack.push?_eq_none_iff {s : ReturnStack} {address : UInt16} :
    s.push? address = none ↔ s.depth = 16 := by
  have hd := s.depth_le
  unfold push?
  split
  next h =>
    have h' : s.depth ≠ 16 := by omega
    simp [h']
  next h =>
    have h' : s.depth = 16 := by omega
    simp [h']

/-- There is no pop with none in use. -/
theorem ReturnStack.pop?_eq_none_iff {s : ReturnStack} : s.pop? = none ↔ s.depth = 0 := by
  unfold pop?
  split
  next h =>
    have h' : s.depth ≠ 0 := by omega
    simp [h']
  next h =>
    have h' : s.depth = 0 := by omega
    simp [h']

/-- There are as many first registers as are asked for, up to all of them. -/
theorem Registers.length_first (r : Registers) {x : UInt8} (hx : x.toNat < 16) :
    (r.first (x.toNat + 1)).length = x.toNat + 1 := by
  rw [first, List.length_take, Vector.length_toList]
  omega

namespace Machine

variable {m m' : Machine} {i : Instruction} {fault : Fault}

/-! ## Faults of an instruction -/

/-- Why `count` bytes from the index register on cannot be accessed. -/
def spanFault? (m : Machine) (count : Nat) : Option Fault :=
  if m.index.toNat + count > 4096 then
    some (.outOfMemory (m.index.toNat + count - 1))
  else
    none

/-- Why an instruction is refused. -/
def refusal? (m : Machine) : Instruction → Option Fault
  | .ret => if m.stack.depth = 0 then some (.stackUnderflow m.pc) else none
  | .call _ => if m.stack.depth = 16 then some (.stackOverflow m.pc) else none
  | .draw _ _ n => if n = 0 then none else m.spanFault? n.toNat
  | .bcd _ => m.spanFault? 3
  | .store x | .restore x => m.spanFault? (x.toNat + 1)
  | _ => none

/-- The fault of a span is that with which it is refused. -/
theorem spanFault?_eq_some_iff {count : Nat} :
    m.spanFault? count = some fault ↔ Memory.span m.index.toNat count = .error fault := by
  rw [Memory.span_eq_error_iff, spanFault?]
  split
  next h => simp [h, eq_comm]
  next h => simp [h]

/-- A call is refused exactly if the stack is full. -/
theorem call_eq_error_iff {address : UInt16} :
    m.call address = .error fault ↔ m.stack.depth = 16 ∧ fault = .stackOverflow m.pc := by
  rw [call]
  cases h : m.stack.push? m.pc with
  | none => simp [ReturnStack.push?_eq_none_iff.mp h, eq_comm]
  | some stack =>
    have hd : m.stack.depth ≠ 16 := by
      intro hd
      rw [ReturnStack.push?_eq_none_iff.mpr hd] at h
      cases h
    simp [hd]

/-- A return is refused exactly if the stack is empty. -/
theorem ret_eq_error_iff :
    m.ret = .error fault ↔ m.stack.depth = 0 ∧ fault = .stackUnderflow m.pc := by
  rw [← ReturnStack.pop?_eq_none_iff, ret]
  cases m.stack.pop? with
  | none => simp [eq_comm]
  | some top => simp

/-- A call that is made pushes the address of its own word. -/
theorem call_eq_ok_iff {address : UInt16} :
    m.call address = .ok m' ↔
      ∃ stack, m.stack.push? m.pc = some stack ∧ m' = { m with stack := stack, pc := address } := by
  rw [call]
  cases m.stack.push? m.pc with
  | none => simp
  | some stack => simp [eq_comm]

/-- A return that is made goes on behind the address that it pops. -/
theorem ret_eq_ok_iff :
    m.ret = .ok m' ↔
      ∃ address stack, m.stack.pop? = some (address, stack) ∧
        m' = { m with stack := stack, pc := address + 2 } := by
  rw [ret]
  cases m.stack.pop? with
  | none => simp
  | some top =>
    constructor
    · intro h
      cases h
      exact ⟨_, _, rfl, rfl⟩
    · rintro ⟨address, stack, h, rfl⟩
      cases h
      rfl

/-- A draw is refused exactly if its sprite does not lie in memory. -/
theorem draw_eq_error_iff {x y rows : UInt8} :
    m.draw x y rows = .error fault ↔ rows ≠ 0 ∧ m.spanFault? rows.toNat = some fault := by
  rw [spanFault?_eq_some_iff, draw, sprite]
  by_cases h : rows = 0
  · simp [h, Except.map]
  · cases hs : Memory.span m.index.toNat rows.toNat <;> simp [h, Except.map]

/-- A store is refused exactly if its bytes do not fit. -/
theorem storeAtIndex_eq_error_iff {xs : List UInt8} :
    m.storeAtIndex xs = .error fault ↔ m.spanFault? xs.length = some fault := by
  rw [spanFault?_eq_some_iff, storeAtIndex]
  cases hs : Memory.span m.index.toNat xs.length <;> simp [Except.map]

/-- A restore is refused exactly if its bytes do not all exist. -/
theorem restoreFromIndex_eq_error_iff {count : Nat} :
    m.restoreFromIndex count = .error fault ↔ m.spanFault? count = some fault := by
  rw [spanFault?_eq_some_iff, restoreFromIndex]
  cases hs : Memory.span m.index.toNat count <;> simp [Except.map]

/-- Bytes that fit are stored. -/
theorem storeAtIndex_of_le {xs : List UInt8} (h : m.index.toNat + xs.length ≤ 4096) :
    m.storeAtIndex xs =
      .ok { m with memory := m.memory.write m.index.toNat xs, pc := m.pc + 2 } := by
  rw [storeAtIndex, Memory.span_eq_ok_iff.mpr ⟨h, rfl⟩]
  rfl

theorem storeAtIndex_of_lt {xs : List UInt8} (h : 4096 < m.index.toNat + xs.length) :
    m.storeAtIndex xs = .error (.outOfMemory (m.index.toNat + xs.length - 1)) := by
  rw [storeAtIndex, Memory.span_eq_error_iff.mpr ⟨h, rfl⟩]
  rfl

/-- Bytes that exist are restored. -/
theorem restoreFromIndex_of_le {count : Nat} (h : m.index.toNat + count ≤ 4096) :
    m.restoreFromIndex count =
      .ok (m.withRegisters (m.registers.fill (m.memory.read m.index.toNat count))) := by
  rw [restoreFromIndex, Memory.span_eq_ok_iff.mpr ⟨h, rfl⟩]
  rfl

theorem restoreFromIndex_of_lt {count : Nat} (h : 4096 < m.index.toNat + count) :
    m.restoreFromIndex count = .error (.outOfMemory (m.index.toNat + count - 1)) := by
  rw [restoreFromIndex, Memory.span_eq_error_iff.mpr ⟨h, rfl⟩]
  rfl

theorem storeAtIndex_eq_ok_iff {xs : List UInt8} :
    m.storeAtIndex xs = .ok m' ↔ m.index.toNat + xs.length ≤ 4096 ∧
      m' = { m with memory := m.memory.write m.index.toNat xs, pc := m.pc + 2 } := by
  by_cases h : m.index.toNat + xs.length ≤ 4096
  · rw [storeAtIndex_of_le h]
    simp [h, eq_comm]
  · rw [storeAtIndex_of_lt (Nat.not_le.mp h)]
    simp [h]

theorem restoreFromIndex_eq_ok_iff {count : Nat} :
    m.restoreFromIndex count = .ok m' ↔ m.index.toNat + count ≤ 4096 ∧
      m' = m.withRegisters (m.registers.fill (m.memory.read m.index.toNat count)) := by
  by_cases h : m.index.toNat + count ≤ 4096
  · rw [restoreFromIndex_of_le h]
    simp [h, eq_comm]
  · rw [restoreFromIndex_of_lt (Nat.not_le.mp h)]
    simp [h]

/-- An instruction is refused exactly for the reason that `refusal?` gives. -/
theorem execute_eq_error_iff (hi : i.InRange) :
    m.execute i = .error fault ↔ m.refusal? i = some fault := by
  -- six instructions can be refused; the others, a wait for a key included, answer a machine
  cases i
  case ret =>
    rw [execute, ret_eq_error_iff, refusal?]
    split <;> simp_all [eq_comm]
  case call address =>
    rw [execute, call_eq_error_iff, refusal?]
    split <;> simp_all [eq_comm]
  case draw x y n =>
    rw [execute, draw_eq_error_iff, refusal?]
    split <;> simp_all
  case bcd x =>
    rw [execute, storeAtIndex_eq_error_iff, refusal?]
    rfl
  case store x =>
    rw [execute, storeAtIndex_eq_error_iff, refusal?, m.registers.length_first hi]
  case restore x => rw [execute, restoreFromIndex_eq_error_iff, refusal?]
  case waitKey x =>
    simp only [execute, refusal?]
    split <;> simp
  all_goals simp [execute, refusal?]

/-! ## The four ways of a step -/

/-- The machine with a word on record as the last one fetched. -/
def record (m : Machine) (word : UInt16) : Machine :=
  { m with opcode := word }

/-- Whether an instruction is refused does not depend on the word on record. -/
@[simp] theorem refusal?_record (m : Machine) (word : UInt16) (i : Instruction) :
    (m.record word).refusal? i = m.refusal? i := by
  cases i <;> rfl

/-- A word of which both bytes lie in memory is fetched. -/
theorem fetch_of_lt (h : m.pc.toNat + 1 < 4096) :
    m.fetch =
      .ok (Opcode.ofBytes (m.memory.get m.pc.toNat) (m.memory.get (m.pc.toNat + 1))) :=
  if_neg (Nat.not_le.mpr h)

/-- Otherwise the fetch is refused by the address of the second byte. -/
theorem fetch_of_le (h : 4096 ≤ m.pc.toNat + 1) :
    m.fetch = .error (.outOfMemory (m.pc.toNat + 1)) :=
  if_pos h

variable {word : UInt16}

/-- Where no word is fetched, nothing changes. -/
theorem step_of_fetch_error (hf : m.fetch = .error fault) : m.step = (.error fault, m) := by
  rw [step, hf]

/-- An unknown word is put on record, and refused. -/
theorem step_of_decode?_none (hf : m.fetch = .ok word) (hd : Instruction.decode? word = none) :
    m.step = (.error (.unknownOpcode word m.pc), m.record word) := by
  rw [step, hf]
  simp only [hd]
  rfl

/-- So is the word of an instruction that is refused. -/
theorem step_of_execute_error (hf : m.fetch = .ok word) (hd : Instruction.decode? word = some i)
    (he : (m.record word).execute i = .error fault) :
    m.step = (.error fault, m.record word) := by
  rw [record] at he
  rw [step, hf]
  simp only [hd, he]
  rfl

/-- Otherwise the step is what the instruction makes of the machine. -/
theorem step_of_execute_ok (hf : m.fetch = .ok word) (hd : Instruction.decode? word = some i)
    (he : (m.record word).execute i = .ok m') : m.step = (.ok i, m') := by
  rw [record] at he
  rw [step, hf]
  simp only [hd, he]

/-- A step succeeds exactly when a word is fetched, decodes, and is executed. -/
theorem step_eq_ok_iff :
    m.step = (.ok i, m') ↔
      ∃ word, m.fetch = .ok word ∧ Instruction.decode? word = some i ∧
        (m.record word).execute i = .ok m' := by
  constructor
  · intro h
    cases hf : m.fetch with
    | error f => simp [step_of_fetch_error hf] at h
    | ok word =>
      cases hd : Instruction.decode? word with
      | none => simp [step_of_decode?_none hf hd] at h
      | some j =>
        cases he : (m.record word).execute j with
        | error f => simp [step_of_execute_error hf hd he] at h
        | ok m₁ =>
          rw [step_of_execute_ok hf hd he] at h
          cases h
          exact ⟨word, rfl, hd, he⟩
  · rintro ⟨word, hf, hd, he⟩
    exact step_of_execute_ok hf hd he

/-! ## Faults of a step -/

/-- Why a step fails. -/
def stepFault? (m : Machine) : Option Fault :=
  match m.fetch with
  | .error fault => some fault
  | .ok word =>
    match Instruction.decode? word with
    | none => some (.unknownOpcode word m.pc)
    | some i => m.refusal? i

/-- The word at the program counter, or the one that was on record if there is none. -/
def lastWord (m : Machine) : UInt16 :=
  match m.fetch with
  | .ok word => word
  | .error _ => m.opcode

/-- A word that is fetched is on record after the step. -/
theorem lastWord_of_ok (h : m.fetch = .ok word) : m.lastWord = word := by
  rw [lastWord, h]

theorem lastWord_of_error (h : m.fetch = .error fault) : m.lastWord = m.opcode := by
  rw [lastWord, h]

/-- A step fails exactly for the reason that `stepFault?` gives, and then it only records the
word. -/
theorem step_eq_error_iff :
    m.step = (.error fault, m') ↔ m.stepFault? = some fault ∧ m' = m.record m.lastWord := by
  rw [stepFault?, lastWord]
  cases hf : m.fetch with
  | error f =>
    have hm : m.record m.opcode = m := rfl
    simp [step_of_fetch_error hf, hm, eq_comm]
  | ok word =>
    cases hd : Instruction.decode? word with
    | none => simp [step_of_decode?_none hf hd, hd, eq_comm]
    | some i =>
      have hr := Instruction.inRange_of_decode? hd
      -- the word on record plays no part in a refusal
      cases he : (m.record word).execute i with
      | error f =>
        have hs : m.refusal? i = some f := by
          rw [← refusal?_record m word, ← execute_eq_error_iff hr, he]
        simp [step_of_execute_error hf hd he, hd, hs, eq_comm]
      | ok m₁ =>
        have hs : m.refusal? i ≠ some fault := by
          rw [← refusal?_record m word, Ne, ← execute_eq_error_iff hr, he]
          simp
        simp [step_of_execute_ok hf hd he, hd, hs]

/-- The word at the program counter is there and is no instruction. -/
def FacesUnknown (m : Machine) (word : UInt16) : Prop :=
  m.fetch = .ok word ∧ Instruction.decode? word = none

/-- In front of an unknown word the step fails, with the word on record. -/
theorem step_of_facesUnknown (h : m.FacesUnknown word) :
    m.step = (.error (.unknownOpcode word m.pc), m.record word) :=
  step_of_decode?_none h.1 h.2

/-- An instruction is not refused for being unknown. -/
theorem refusal?_ne_unknownOpcode {address : UInt16} :
    m.refusal? i ≠ some (.unknownOpcode word address) := by
  have hspan : ∀ count, m.spanFault? count ≠ some (.unknownOpcode word address) := by
    intro count
    rw [spanFault?]
    split <;> simp
  cases i
  case ret | call =>
    rw [refusal?]
    split <;> simp
  case draw x y n =>
    rw [refusal?]
    split
    · simp
    · exact hspan _
  case bcd | store | restore => exact hspan _
  all_goals simp [refusal?]

/-- A step fails at an unknown word exactly if it faces one, which is then on record. -/
theorem step_eq_unknownOpcode_iff {address : UInt16} :
    m.step.1 = .error (.unknownOpcode word address) ↔ m.FacesUnknown word ∧ address = m.pc := by
  constructor
  · intro h
    obtain ⟨hf, -⟩ := step_eq_error_iff.mp (Prod.ext h rfl)
    rw [stepFault?] at hf
    split at hf
    next fault hfetch =>
      -- a fetch fails for want of memory only
      by_cases hpc : m.pc.toNat + 1 < 4096
      · rw [fetch_of_lt hpc] at hfetch
        cases hfetch
      · rw [fetch_of_le (Nat.not_lt.mp hpc)] at hfetch
        cases hfetch
        cases hf
    next fetched hfetch =>
      split at hf
      next hd =>
        cases hf
        exact ⟨⟨hfetch, hd⟩, rfl⟩
      next i hd => exact absurd hf refusal?_ne_unknownOpcode
  · rintro ⟨h, rfl⟩
    rw [step_of_facesUnknown h]

end Machine

end Chip8
