import Chip8.Proofs.Machine.Effect
import Chip8.Proofs.Machine.Outcome

/-!
# Which fault, and exactly when

A step can fail in five ways, and each has one condition on the machine. The word at the program
counter decides which of them can still occur: no word, an unknown one, or an instruction, of which
calls and returns depend on the depth of the stack and four others on the bytes at the index
register.

## Shape of the conditions

`Spans` lists the instructions that access memory, with the number of their bytes. `Refused` states
the conditions under which an instruction is refused and `FailsWith` those under which a step fails,
as relations of the machine and the fault. `refusal?_eq_some_iff` and `step_fst_eq_error_iff` tie
them to the functions that answer the fault; all else is read off the relations.
-/

namespace Chip8

/-- An instruction accesses this number of bytes from the index register on. A sprite without rows
accesses none. -/
inductive Instruction.Spans : Instruction → Nat → Prop where
  | draw {x y n : UInt8} (n_ne_zero : n ≠ 0) : Spans (.draw x y n) n.toNat
  | bcd {x : UInt8} : Spans (.bcd x) 3
  | store {x : UInt8} : Spans (.store x) (x.toNat + 1)
  | restore {x : UInt8} : Spans (.restore x) (x.toNat + 1)

/-- A fault for which the stack or memory is too small. -/
def Fault.IsLimit : Fault → Prop
  | outOfMemory _ | stackOverflow _ | stackUnderflow _ => True
  | unknownOpcode _ _ | invalidKey _ => False

namespace Machine

variable {m m' : Machine} {i : Instruction} {fault : Fault} {word : UInt16}

/-! ## Instructions -/

/-- An instruction is refused with a fault. -/
inductive Refused (m : Machine) : Instruction → Fault → Prop where
  | overflow {address : UInt16} (full : m.stack.depth = 16) :
      Refused m (.call address) (.stackOverflow m.pc)
  | underflow (empty : m.stack.depth = 0) : Refused m .ret (.stackUnderflow m.pc)
  | memory {i : Instruction} {count : Nat} (spans : i.Spans count)
      (lt : 4096 < m.index.toNat + count) :
      Refused m i (.outOfMemory (m.index.toNat + count - 1))

/-- An instruction is refused if the bytes that it accesses do not all exist. -/
theorem Refused.of_spanFault? {count : Nat} (spans : i.Spans count)
    (h : m.spanFault? count = some fault) : Refused m i fault := by
  obtain ⟨lt, rfl⟩ := Memory.span_eq_error_iff.mp (spanFault?_eq_some_iff.mp h)
  exact .memory spans lt

/-- The conditions are those of the function that answers the fault. -/
theorem refusal?_eq_some_iff : m.refusal? i = some fault ↔ Refused m i fault := by
  constructor
  · intro h
    cases i
    case ret =>
      rw [refusal?] at h
      split at h <;> cases h
      exact .underflow ‹_›
    case call address =>
      rw [refusal?] at h
      split at h <;> cases h
      exact .overflow ‹_›
    case draw x y n =>
      rw [refusal?] at h
      split at h
      · cases h
      · exact .of_spanFault? (.draw ‹_›) h
    case bcd x => exact .of_spanFault? .bcd h
    case store x => exact .of_spanFault? .store h
    case restore x => exact .of_spanFault? .restore h
    all_goals cases h
  · intro h
    cases h with
    | overflow full => exact if_pos full
    | underflow empty => exact if_pos empty
    | memory spans lt =>
      have hspan := spanFault?_eq_some_iff.mpr (Memory.span_eq_error_iff.mpr ⟨lt, rfl⟩)
      cases spans with
      | draw n_ne_zero => exact (if_neg n_ne_zero).trans hspan
      | bcd | store | restore => exact hspan

/-- Only a call with all slots in use overflows the stack. -/
theorem refused_stackOverflow_iff :
    Refused m i (.stackOverflow m.pc) ↔ (∃ address, i = .call address) ∧ m.stack.depth = 16 := by
  constructor
  · rintro ⟨⟩
    exact ⟨⟨_, rfl⟩, ‹_›⟩
  · rintro ⟨⟨address, rfl⟩, full⟩
    exact .overflow full

/-- Only a return with no slot in use underflows it. -/
theorem refused_stackUnderflow_iff :
    Refused m i (.stackUnderflow m.pc) ↔ i = .ret ∧ m.stack.depth = 0 := by
  constructor
  · rintro ⟨⟩
    exact ⟨rfl, ‹_›⟩
  · rintro ⟨rfl, empty⟩
    exact .underflow empty

/-- The address in the fault is that of the last byte accessed, beyond the end of memory. -/
theorem refused_outOfMemory_iff {address : Nat} :
    Refused m i (.outOfMemory address) ↔ ∃ count, i.Spans count ∧
      4096 < m.index.toNat + count ∧ address = m.index.toNat + count - 1 := by
  constructor
  · rintro ⟨⟩
    exact ⟨_, ‹_›, ‹_›, rfl⟩
  · rintro ⟨count, spans, lt, rfl⟩
    exact .memory spans lt

/-- An instruction is executed in all other cases. -/
theorem not_refused_iff :
    (∀ fault, ¬ Refused m i fault) ↔
      ¬ ((∃ address, i = .call address) ∧ m.stack.depth = 16) ∧
      ¬ (i = .ret ∧ m.stack.depth = 0) ∧
      ∀ count, i.Spans count → m.index.toNat + count ≤ 4096 := by
  constructor
  · intro h
    refine ⟨fun hcall => h _ (refused_stackOverflow_iff.mpr hcall),
      fun hret => h _ (refused_stackUnderflow_iff.mpr hret), ?_⟩
    intro count spans
    by_contra lt
    exact h _ (.memory spans (Nat.not_le.mp lt))
  · rintro ⟨hcall, hret, hspan⟩ fault hrefused
    cases hrefused with
    | overflow full => exact hcall ⟨⟨_, rfl⟩, full⟩
    | underflow empty => exact hret ⟨rfl, empty⟩
    | memory spans lt => exact absurd (hspan _ spans) (Nat.not_le.mpr lt)

/-- An instruction is refused for want of room and for nothing else. -/
theorem Refused.isLimit (h : Refused m i fault) : fault.IsLimit := by
  cases h <;> trivial

/-! ## Steps -/

/-- A step fails with a fault. -/
inductive FailsWith (m : Machine) : Fault → Prop where
  | noWord (le : 4096 ≤ m.pc.toNat + 1) : FailsWith m (.outOfMemory (m.pc.toNat + 1))
  | unknown {word : UInt16} (faces : m.FacesUnknown word) :
      FailsWith m (.unknownOpcode word m.pc)
  | refused {word : UInt16} {i : Instruction} {fault : Fault} (fetch_eq : m.fetch = .ok word)
      (decode_eq : Instruction.decode? word = some i) (refused : Refused m i fault) :
      FailsWith m fault

/-- These are all the ways for a step to fail. -/
theorem step_fst_eq_error_iff : m.step.1 = .error fault ↔ FailsWith m fault := by
  have hstep : m.step.1 = .error fault ↔ m.stepFault? = some fault := by
    constructor
    · intro h
      exact (step_eq_error_iff.mp (Prod.ext h rfl)).1
    · intro h
      exact congrArg Prod.fst (step_eq_error_iff.mpr ⟨h, rfl⟩)
  rw [hstep]
  constructor
  · intro h
    rw [stepFault?] at h
    split at h
    next cause hfetch =>
      cases h
      by_cases hpc : m.pc.toNat + 1 < 4096
      · rw [fetch_of_lt hpc] at hfetch
        cases hfetch
      · rw [fetch_of_le (Nat.not_lt.mp hpc)] at hfetch
        cases hfetch
        exact .noWord (Nat.not_lt.mp hpc)
    next word hfetch =>
      split at h
      next hd =>
        cases h
        exact .unknown ⟨hfetch, hd⟩
      next i hd => exact .refused hfetch hd (refusal?_eq_some_iff.mp h)
  · intro h
    cases h with
    | noWord le => rw [stepFault?, fetch_of_le le]
    | unknown faces => simp only [stepFault?, faces.1, faces.2]
    | refused fetch_eq decode_eq refused =>
      simp only [stepFault?, fetch_eq, decode_eq, refusal?_eq_some_iff.mpr refused]

/-- A step that has come to an instruction fails for the reasons of this instruction. -/
theorem step_fst_eq_error_iff_refused (hf : m.fetch = .ok word)
    (hd : Instruction.decode? word = some i) :
    m.step.1 = .error fault ↔ Refused m i fault := by
  rw [step_fst_eq_error_iff]
  constructor
  · intro h
    cases h with
    | noWord le =>
      rw [fetch_of_le le] at hf
      cases hf
    | unknown faces =>
      cases hf.symm.trans faces.1
      cases hd.symm.trans faces.2
    | refused fetch_eq decode_eq refused =>
      cases hf.symm.trans fetch_eq
      cases hd.symm.trans decode_eq
      exact refused
  · exact .refused hf hd

/-- An instruction is executed exactly if it is not refused, and then its word is on record. -/
theorem step_eq_ok_iff_not_refused (hf : m.fetch = .ok word)
    (hd : Instruction.decode? word = some i) :
    m.step.1 = .ok i ∧ m.step.2.opcode = word ↔ ∀ fault, ¬ Refused m i fault := by
  constructor
  · rintro ⟨hok, -⟩ fault hrefused
    rw [(step_fst_eq_error_iff_refused hf hd).mpr hrefused] at hok
    cases hok
  · intro h
    cases he : (m.record word).execute i with
    | error fault =>
      have hstep := congrArg Prod.fst (step_of_execute_error hf hd he)
      exact absurd ((step_fst_eq_error_iff_refused hf hd).mp hstep) (h fault)
    | ok m' =>
      rw [step_of_execute_ok hf hd he]
      exact ⟨rfl, opcode_of_execute he⟩

/-- A step that comes to an instruction executes it, unless the stack or memory is too small. -/
theorem step_fst_ok_or_isLimit (hf : m.fetch = .ok word)
    (hd : Instruction.decode? word = some i) :
    m.step.1 = .ok i ∨ ∃ fault, m.step.1 = .error fault ∧ fault.IsLimit := by
  by_cases hrefused : ∃ fault, Refused m i fault
  · obtain ⟨fault, hfault⟩ := hrefused
    exact Or.inr ⟨fault, (step_fst_eq_error_iff_refused hf hd).mpr hfault, hfault.isLimit⟩
  · exact Or.inl ((step_eq_ok_iff_not_refused hf hd).mpr (not_exists.mp hrefused)).1

/-- A fetched word is unknown exactly if it cannot be decoded. -/
theorem step_fst_eq_unknownOpcode_iff (hf : m.fetch = .ok word) :
    m.step.1 = .error (.unknownOpcode word m.pc) ↔ Instruction.decode? word = none := by
  rw [step_eq_unknownOpcode_iff]
  exact ⟨fun h => h.1.2, fun hd => ⟨⟨hf, hd⟩, rfl⟩⟩

/-- The addresses that a step finds outside of memory are outside of it. -/
theorem le_of_step_outOfMemory {address : Nat} (h : m.step.1 = .error (.outOfMemory address)) :
    4096 ≤ address := by
  cases step_fst_eq_error_iff.mp h with
  | noWord le => exact le
  | refused _ _ refused =>
    cases refused with
    | memory _ lt => omega

/-- There is no word to fetch exactly if the second byte of it would be outside of memory. -/
theorem step_fst_eq_noWord_iff :
    m.step.1 = .error (.outOfMemory (m.pc.toNat + 1)) ↔ 4096 ≤ m.pc.toNat + 1 :=
  ⟨le_of_step_outOfMemory, fun le => step_fst_eq_error_iff.mpr (.noWord le)⟩

/-- No step fails for a key. -/
theorem step_fst_ne_invalidKey (m : Machine) (key : UInt8) :
    m.step.1 ≠ .error (.invalidKey key) := by
  intro h
  cases step_fst_eq_error_iff.mp h with
  | refused _ _ refused => cases refused

/-- An image is refused exactly if it is longer than the program area. -/
theorem load_eq_error_iff {image : List UInt8} :
    m.load image = .error fault ↔
      3584 < image.length ∧ fault = .outOfMemory (0x200 + image.length - 1) := by
  by_cases h : image.length ≤ 3584
  · rw [load_of_le h]
    simp [Nat.not_lt.mpr h]
  · have hlt := Nat.not_le.mp h
    rw [load_of_lt hlt]
    simp [hlt, eq_comm]

/-- Which fault a step answers and exactly when, and which a load does. A step that comes to none of
them executes the instruction and has put its word on record. -/
theorem step_faults (m : Machine) :
    (m.step.1 = .error (.outOfMemory (m.pc.toNat + 1)) ↔ 4096 ≤ m.pc.toNat + 1) ∧
    (m.pc.toNat + 1 < 4096 → ∃ word : UInt16,
      word.toNat =
        (m.memory.get m.pc.toNat).toNat * 256 + (m.memory.get (m.pc.toNat + 1)).toNat ∧
      (m.step.1 = .error (.unknownOpcode word m.pc) ↔ Instruction.decode? word = none) ∧
      ∀ i, Instruction.decode? word = some i →
        (m.step.1 = .error (.stackOverflow m.pc) ↔
          (∃ address, i = .call address) ∧ m.stack.depth = 16) ∧
        (m.step.1 = .error (.stackUnderflow m.pc) ↔ i = .ret ∧ m.stack.depth = 0) ∧
        (∀ address, m.step.1 = .error (.outOfMemory address) ↔ ∃ count, i.Spans count ∧
          4096 < m.index.toNat + count ∧ address = m.index.toNat + count - 1) ∧
        (m.step.1 = .ok i ∧ m.step.2.opcode = word ↔
          ¬ ((∃ address, i = .call address) ∧ m.stack.depth = 16) ∧
          ¬ (i = .ret ∧ m.stack.depth = 0) ∧
          ∀ count, i.Spans count → m.index.toNat + count ≤ 4096)) ∧
    (∀ key, m.step.1 ≠ .error (.invalidKey key)) ∧
    (∀ address, m.step.1 = .error (.outOfMemory address) → 4096 ≤ address) ∧
    ∀ image : List UInt8,
      (∀ fault, m.load image = .error fault ↔
        3584 < image.length ∧ fault = .outOfMemory (0x200 + image.length - 1)) ∧
      ∀ address, m.load image = .error (.outOfMemory address) → 4096 ≤ address := by
  refine ⟨step_fst_eq_noWord_iff, ?_, m.step_fst_ne_invalidKey,
    fun _ => le_of_step_outOfMemory, fun image => ⟨fun _ => load_eq_error_iff, ?_⟩⟩
  · intro hpc
    have hf := fetch_of_lt hpc
    refine ⟨_, Opcode.toNat_ofBytes _ _, step_fst_eq_unknownOpcode_iff hf, ?_⟩
    intro i hd
    -- each fault then has a description without the machine's execution
    have hfails : ∀ fault, m.step.1 = .error fault ↔ Refused m i fault :=
      fun _ => step_fst_eq_error_iff_refused hf hd
    exact ⟨(hfails _).trans refused_stackOverflow_iff, (hfails _).trans refused_stackUnderflow_iff,
      fun _ => (hfails _).trans refused_outOfMemory_iff,
      (step_eq_ok_iff_not_refused hf hd).trans not_refused_iff⟩
  · intro address h
    obtain ⟨hlength, haddress⟩ := load_eq_error_iff.mp h
    cases haddress
    omega

/-- A machine about to restore four registers from the last three bytes of memory. -/
def atEdge : Machine :=
  { ofSeed 0 with memory := Memory.zero.write 0x200 [0xF3, 0x65], index := 0xFFD }

/-- Four bytes are one too many for the end of memory, and an image of 3585 bytes is too. -/
theorem step_faults_atEdge :
    atEdge.pc.toNat + 1 < 4096 ∧ Instruction.decode? 0xF365 = some (.restore 3) ∧
      atEdge.step.1 = .error (.outOfMemory 0x1000) ∧ 4096 ≤ 0x1000 ∧
      atEdge.load (List.replicate 3585 0) = .error (.outOfMemory 0x1000) := by
  obtain ⟨-, hword, -, haddress, hload⟩ := step_faults atEdge
  have hpc : atEdge.pc.toNat + 1 < 4096 := by decide +kernel
  have hd : Instruction.decode? 0xF365 = some (.restore 3) := by decide
  obtain ⟨word, hw, -, hinstruction⟩ := hword hpc
  obtain rfl : word = 0xF365 := UInt16.toNat.inj (hw.trans (by decide +kernel))
  obtain ⟨-, -, hmemory, -⟩ := hinstruction _ hd
  have hstep : atEdge.step.1 = .error (.outOfMemory 0x1000) :=
    (hmemory _).mpr ⟨4, .restore, by decide +kernel, by decide +kernel⟩
  have himage : atEdge.load (List.replicate 3585 0) = .error (.outOfMemory 0x1000) :=
    ((hload _).1 _).mpr ⟨by rw [List.length_replicate]; decide, by rw [List.length_replicate]⟩
  exact ⟨hpc, hd, hstep, haddress _ hstep, himage⟩

end Machine

end Chip8
