import Chip8.Proofs.Instruction.Range
import Chip8.Proofs.Machine.Outcome

/-!
# What an instruction can change

An instruction changes the program counter and few other parts of the machine. `footprint` lists
these for every instruction, and all other parts are after its execution what they were before.

## Shape of the proof

A machine is made up of parts (`Part`), each of which can be read and replaced by itself (`get_set`,
`get_set_of_ne`), and nothing is left of a machine without them (`ext_get`). `Confined ps m m'` says
that `m'` differs from `m` at most in the parts `ps`. Replacing a part is confined to it, and what
is done one after the other is confined to the parts of both (`Confined.trans`). So the footprint of
an operation is put together like the operation, and that of an instruction is that of its
operation.
-/

namespace Chip8

namespace Machine

/-- A part of a machine. Every register and every slot of the return stack is one of its own. -/
inductive Part where
  | pc
  | index
  | depth
  | slot (k : Fin 16)
  | opcode
  | memory
  | register (k : Fin 16)
  | delay
  | sound
  | screen
  | keypad
  | random
deriving DecidableEq

namespace Part

/-- The register that a number names. -/
def v (x : UInt8) : Part :=
  register (Registers.slot x)

/-- What a part can hold. -/
abbrev Value : Part → Type
  | pc | index | opcode | slot _ => UInt16
  | depth => Fin 17
  | memory => Memory
  | register _ | delay | sound => UInt8
  | screen => Framebuffer
  | keypad => Keypad
  | random => RandomSource

/-- What a part of a machine holds. -/
def get (m : Machine) : (p : Part) → p.Value
  | pc => m.pc
  | index => m.index
  | depth => ⟨m.stack.depth, Nat.lt_succ_of_le m.stack.depth_le⟩
  | slot k => m.stack.slots.get k
  | opcode => m.opcode
  | memory => m.memory
  | register k => m.registers.values.get k
  | delay => m.delay
  | sound => m.sound
  | screen => m.screen
  | keypad => m.keypad
  | random => m.random

/-- The machine with another value in a part. -/
def set (m : Machine) : (p : Part) → p.Value → Machine
  | pc, value => { m with pc := value }
  | index, value => { m with index := value }
  | depth, value => { m with stack := { m.stack with
      depth := value.val, depth_le := Nat.le_of_lt_succ value.isLt } }
  | slot ⟨k, hk⟩, value => { m with stack := { m.stack with
      slots := m.stack.slots.set k value hk } }
  | opcode, value => { m with opcode := value }
  | memory, value => { m with memory := value }
  | register ⟨k, hk⟩, value => { m with registers := ⟨m.registers.values.set k value hk⟩ }
  | delay, value => { m with delay := value }
  | sound, value => { m with sound := value }
  | screen, value => { m with screen := value }
  | keypad, value => { m with keypad := value }
  | random, value => { m with random := value }

/-- A part holds what was put there. -/
theorem get_set (m : Machine) (p : Part) (value : p.Value) : p.get (p.set m value) = value := by
  cases p
  case slot k => exact Vector.getElem_set_self k.isLt
  case register k => exact Vector.getElem_set_self k.isLt
  all_goals rfl

/-- Replacing a part leaves all others alone. -/
theorem get_set_of_ne {p q : Part} (h : q ≠ p) (m : Machine) (value : p.Value) :
    q.get (p.set m value) = q.get m := by
  -- only two registers or two slots share an array
  cases p
  case slot k =>
    cases q
    case slot l =>
      have hne : k.val ≠ l.val := fun e => h (congrArg slot (Fin.ext e.symm))
      exact Vector.getElem_set_ne k.isLt l.isLt hne
    all_goals rfl
  case register k =>
    cases q
    case register l =>
      have hne : k.val ≠ l.val := fun e => h (congrArg register (Fin.ext e.symm))
      exact Vector.getElem_set_ne k.isLt l.isLt hne
    all_goals rfl
  all_goals
    cases q
    all_goals first | rfl | exact absurd rfl h

/-- The parts make up the whole machine. -/
theorem ext_get {m m' : Machine} (h : ∀ p : Part, p.get m' = p.get m) : m' = m := by
  have hslots : m'.stack.slots = m.stack.slots := Vector.ext fun k hk => h (slot ⟨k, hk⟩)
  have hdepth : m'.stack.depth = m.stack.depth := congrArg Fin.val (h depth)
  have hvalues : m'.registers.values = m.registers.values :=
    Vector.ext fun k hk => h (register ⟨k, hk⟩)
  exact Machine.ext (h pc) (h index) (ReturnStack.ext hslots hdepth) (h opcode) (h memory)
    (congrArg Registers.mk hvalues) (h delay) (h sound) (h screen) (h keypad) (h random)

end Part

/-- The machines differ at most in the given parts. -/
def Confined (parts : List Part) (m m' : Machine) : Prop :=
  ∀ p ∉ parts, p.get m' = p.get m

variable {m m₁ m' : Machine} {i : Instruction} {ps qs : List Part} {word : UInt16}

theorem confined_self (m : Machine) : Confined [] m m :=
  fun _ _ => rfl

/-- To replace a part changes no other. -/
theorem confined_set (m : Machine) (p : Part) (value : p.Value) : Confined [p] m (p.set m value) :=
  fun _ hq => Part.get_set_of_ne (List.ne_of_not_mem_cons hq) m value

/-- More parts may be named than were changed. -/
theorem Confined.mono (h : Confined ps m m₁) (hsubset : ps ⊆ qs) : Confined qs m m₁ :=
  fun p hp => h p fun hmem => hp (hsubset hmem)

/-- What is done one after the other is confined to the parts of both. -/
theorem Confined.trans (h₁ : Confined ps m m₁) (h₂ : Confined qs m₁ m') :
    Confined (ps ++ qs) m m' := by
  intro p hp
  rw [List.mem_append, not_or] at hp
  exact (h₂ p hp.2).trans (h₁ p hp.1)

/-! ## Operations -/

/-- A register is set on the way to the next word. -/
theorem confined_setV (m : Machine) (x value : UInt8) :
    Confined [.pc, .v x] m (m.setV x value) :=
  (confined_set m .pc (m.pc + 2)).trans (confined_set _ (.v x) value)

theorem confined_setVF (m : Machine) (x value : UInt8) (up : Bool) :
    Confined [.pc, .v Registers.flag, .v x] m (m.setVF x value up) :=
  (confined_setV m Registers.flag up.toUInt8).trans (confined_set _ (.v x) value)

/-- A draw changes the screen and the flag. -/
theorem confined_drawn (m : Machine) (x y : UInt8) (sprite : List UInt8) :
    Confined [.pc, .v Registers.flag, .screen] m (m.drawn x y sprite) :=
  (confined_setV m Registers.flag _).trans (confined_set _ .screen _)

theorem confined_addIndex (m : Machine) (value : UInt8) :
    Confined [.pc, .v Registers.flag, .index] m (m.addIndex value) :=
  (confined_setV m Registers.flag _).trans (confined_set _ .index _)

/-- The slot that a call stores its address in, if one is free. -/
def freeSlot (m : Machine) : List Part :=
  if h : m.stack.depth < 16 then [.slot ⟨m.stack.depth, h⟩] else []

/-- A call stores its address in the first free slot, and brings it into use. -/
theorem confined_call {address : UInt16} (h : m.call address = .ok m') :
    Confined (.pc :: .depth :: m.freeSlot) m m' := by
  obtain ⟨stack, hpush, rfl⟩ := call_eq_ok_iff.mp h
  rw [ReturnStack.push?] at hpush
  split at hpush
  next hfree =>
    cases hpush
    have hslot : m.freeSlot = [.slot ⟨m.stack.depth, hfree⟩] := dif_pos hfree
    have hdepth : m.stack.depth + 1 < 17 := Nat.succ_lt_succ hfree
    rw [hslot]
    exact ((confined_set m .pc address).trans (confined_set _ .depth ⟨_, hdepth⟩)).trans
      (confined_set _ (.slot ⟨m.stack.depth, hfree⟩) m.pc)
  next => cases hpush

/-- A return leaves the contents of all slots alone. -/
theorem confined_ret (h : m.ret = .ok m') : Confined [.pc, .depth] m m' := by
  obtain ⟨address, stack, hpop, rfl⟩ := ret_eq_ok_iff.mp h
  obtain ⟨-, hslots, -⟩ := ReturnStack.pop?_eq_some hpop
  have hstack : stack = { m.stack with depth := stack.depth, depth_le := stack.depth_le } :=
    ReturnStack.ext hslots rfl
  rw [hstack]
  exact (confined_set m .pc (address + 2)).trans
    (confined_set _ .depth ⟨stack.depth, Nat.lt_succ_of_le stack.depth_le⟩)

/-- A store changes memory. -/
theorem confined_storeAtIndex {xs : List UInt8} (h : m.storeAtIndex xs = .ok m') :
    Confined [.pc, .memory] m m' := by
  obtain ⟨-, rfl⟩ := storeAtIndex_eq_ok_iff.mp h
  exact (confined_set m .pc (m.pc + 2)).trans (confined_set _ .memory _)

/-- The first registers. -/
def firstRegisters (count : Nat) : List Part :=
  ((List.finRange 16).filter fun k => k.val < count).map .register

/-- The registers are counted from zero. -/
theorem register_mem_firstRegisters {k : Fin 16} {count : Nat} (h : k.val < count) :
    .register k ∈ firstRegisters count :=
  List.mem_map_of_mem (List.mem_filter.mpr ⟨List.mem_finRange k, decide_eq_true h⟩)

/-- A restore changes as many registers as it reads bytes. -/
theorem confined_restoreFromIndex {count : Nat} (h : m.restoreFromIndex count = .ok m') :
    Confined (.pc :: firstRegisters count) m m' := by
  obtain ⟨-, rfl⟩ := restoreFromIndex_eq_ok_iff.mp h
  intro p hp
  rw [List.mem_cons, not_or] at hp
  cases p
  case register k =>
    have hk : ¬ (0 ≤ k.val ∧ k.val < 0 + (m.memory.read m.index.toNat count).length) := by
      rw [Memory.length_read, Nat.zero_add]
      exact fun hlt => hp.2 (register_mem_firstRegisters hlt.2)
    exact (getElem_overwrite m.registers.values 0 _ k k.isLt).trans (dif_neg hk)
  case pc => exact absurd rfl hp.1
  all_goals rfl

/-! ## Instructions -/

/-- What an instruction can change besides the program counter. -/
def footprint (m : Machine) : Instruction → List Part
  | .clear => [.screen]
  | .draw _ _ _ => [.v Registers.flag, .screen]
  | .call _ => .depth :: m.freeSlot
  | .ret => [.depth]
  | .setIndex _ | .glyph _ => [.index]
  | .addIndex _ => [.v Registers.flag, .index]
  | .setDelay _ => [.delay]
  | .setSound _ => [.sound]
  | .bcd _ | .store _ => [.memory]
  | .loadByte x _ | .addByte x _ | .move x _ | .or x _ | .and x _ | .xor x _ | .getDelay x =>
    [.v x]
  | .waitKey x => if m.keypad.firstPressed?.isSome then [.v x] else []
  | .random x _ => [.v x, .random]
  | .add x _ | .sub x _ | .subFrom x _ | .shiftRight x | .shiftLeft x =>
    [.v Registers.flag, .v x]
  | .restore x => firstRegisters (x.toNat + 1)
  | .jump _ | .jumpOffset _ | .skipEqByte _ _ | .skipNeByte _ _ | .skipEq _ _ | .skipNe _ _
  | .skipKey _ | .skipNotKey _ => []

/-- An executed instruction stays in its footprint. -/
theorem confined_execute (h : m.execute i = .ok m') : Confined (.pc :: m.footprint i) m m' := by
  cases i
  case clear =>
    cases h
    exact (confined_set m .pc (m.pc + 2)).trans (confined_set _ .screen _)
  case draw x y n =>
    obtain ⟨-, rfl⟩ := draw_eq_ok_iff.mp h
    exact confined_drawn m x y _
  case call address => exact confined_call h
  case ret => exact confined_ret h
  case setIndex | glyph =>
    cases h
    exact (confined_set m .pc (m.pc + 2)).trans (confined_set _ .index _)
  case addIndex x =>
    cases h
    exact confined_addIndex m (m.v x)
  case setDelay x =>
    cases h
    exact (confined_set m .pc (m.pc + 2)).trans (confined_set _ .delay (m.v x))
  case setSound x =>
    cases h
    exact (confined_set m .pc (m.pc + 2)).trans (confined_set _ .sound (m.v x))
  case bcd | store => exact confined_storeAtIndex h
  case loadByte | addByte | move | or | and | xor | getDelay =>
    cases h
    exact confined_setV m _ _
  case waitKey x =>
    rw [execute] at h
    split at h
    next key hkey =>
      cases h
      rw [footprint, if_pos (Option.isSome_iff_exists.mpr ⟨key, hkey⟩)]
      exact confined_setV m x key
    next =>
      -- not even the program counter moves
      cases h
      exact (confined_self m).mono (List.nil_subset _)
  case random x nn =>
    cases h
    exact (confined_setV m x _).trans (confined_set _ .random _)
  case add | sub | subFrom | shiftRight | shiftLeft =>
    cases h
    exact confined_setVF m _ _ _
  case restore => exact confined_restoreFromIndex h
  case jump | jumpOffset | skipEqByte | skipNeByte | skipEq | skipNe | skipKey | skipNotKey =>
    cases h
    exact confined_set m .pc _

/-- What differs in the program counter at most is otherwise the same machine. -/
theorem eq_of_confined_pc (h : Confined [.pc] m m') : m' = { m with pc := m'.pc } := by
  refine Part.ext_get fun p => ?_
  by_cases hp : p = .pc
  · rw [hp]
    rfl
  · have hset : p.get { m with pc := m'.pc } = p.get m := Part.get_set_of_ne hp m m'.pc
    rw [hset]
    exact h p fun hmem => hp (List.mem_singleton.mp hmem)

/-- A change confined to another register leaves the flag alone. -/
theorem v_flag_of_confined {x : UInt8} (h : Confined [.pc, .v x] m m') (hx : x.toNat < 16)
    (hflag : x ≠ Registers.flag) : m'.v Registers.flag = m.v Registers.flag := by
  refine h (.v Registers.flag) fun hmem => ?_
  rcases List.mem_cons.mp hmem with hpc | hmem
  · cases hpc
  · have hslot : Registers.slot Registers.flag = Registers.slot x :=
      Part.register.inj (List.mem_singleton.mp hmem)
    have hval : 15 = x.toNat % 16 := congrArg Fin.val hslot
    refine hflag (UInt8.toNat.inj ?_)
    rw [← Nat.mod_eq_of_lt hx, ← hval]
    rfl

/-- What a decoded instruction changes is in its footprint. The word on record and the keypad are
never changed, an instruction with an empty footprint moves the program counter at most, and adding
a byte and the bitwise operations leave the flag alone. -/
theorem execute_footprint (hd : Instruction.decode? word = some i) (h : m.execute i = .ok m') :
    Confined (.pc :: m.footprint i) m m' ∧
      m'.opcode = m.opcode ∧ m'.keypad = m.keypad ∧
      (m.footprint i = [] → m' = { m with pc := m'.pc }) ∧
      ∀ x y nn, i = .addByte x nn ∨ i = .or x y ∨ i = .and x y ∨ i = .xor x y →
        x ≠ Registers.flag → m'.v Registers.flag = m.v Registers.flag := by
  have hconfined := confined_execute h
  have hrange := Instruction.inRange_of_decode? hd
  refine ⟨hconfined, opcode_of_execute h, keypad_of_execute h, ?_, ?_⟩
  · intro hnone
    rw [hnone] at hconfined
    exact eq_of_confined_pc hconfined
  · rintro x y nn (rfl | rfl | rfl | rfl)
    · exact v_flag_of_confined hconfined hrange
    all_goals exact v_flag_of_confined hconfined hrange.1

/-- A machine whose registers V1 and VF have a sum that does not fit in a byte. -/
def carrying : Machine :=
  { ofSeed 0 with registers := (Registers.zero.set 1 0x80).set 0xF 0x90 }

/-- When VF is added to V1, the sum and the carry change these two registers. All else but the
program counter is as before. -/
theorem execute_footprint_carry :
    ∃ m', Instruction.decode? 0x81F4 = some (.add 1 0xF) ∧ carrying.execute (.add 1 0xF) = .ok m' ∧
      m'.v 1 = 0x10 ∧ m'.v 0xF = 1 ∧ Confined [.pc, .v 0xF, .v 1] carrying m' := by
  have hd : Instruction.decode? 0x81F4 = some (.add 1 0xF) := by decide
  exact ⟨_, hd, rfl, by decide, by decide, (execute_footprint hd rfl).1⟩

end Machine

end Chip8
