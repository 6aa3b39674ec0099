import Chip8.Proofs.Machine.Effect
import Chip8.Proofs.Machine.Failure
import Chip8.Proofs.Machine.Footprint

/-!
# Saving and restoring registers

What was stored can be restored, however long after, as long as the index register and memory are
left alone.

## Shape of the proof

Storing and restoring copy the same bytes to and fro, so each undoes the other: for memory these are
`read_write_self` and `write_read_self`, for the registers `get_fill_first` and `first_fill`. That
an instruction leaves the index register and memory alone is read off its footprint
(`index_memory_of_execute`), and `index_memory_after` is the induction on what is executed between
the two.
-/

namespace Chip8

namespace Memory

/-- What was written at an address is read there. -/
theorem read_write_self (m : Memory) (start : Nat) (xs : List UInt8)
    (h : start + xs.length ≤ 4096) : (m.write start xs).read start xs.length = xs := by
  refine List.ext_getElem (length_read _ _ _) fun k hk hk' => ?_
  rw [getElem_read, get_write _ _ _ _ (by omega), dif_pos ⟨by omega, by omega⟩]
  simp only [Nat.add_sub_cancel_left]

/-- Writing what was read changes nothing. -/
theorem write_read_self (m : Memory) (start count : Nat) :
    m.write start (m.read start count) = m := by
  refine ext_get fun a ha => ?_
  rw [get_write _ _ _ _ ha]
  split
  next h => rw [getElem_read, Nat.add_sub_cancel' h.1]
  next => rfl

end Memory

namespace Registers

variable {x : UInt8}

/-- Registers are filled from the first one on, as far as there are bytes. -/
theorem get_fill (r : Registers) (xs : List UInt8) (hx : x.toNat < 16) :
    (r.fill xs).get x = xs[x.toNat]?.getD (r.get x) := by
  have hfill := getElem_overwrite r.values 0 xs x.toNat hx
  simp only [Nat.zero_le, true_and, Nat.zero_add, Nat.sub_zero] at hfill
  rw [← UInt8.ofNat_toNat (x := x), get_ofNat _ hx, get_ofNat _ hx, UInt8.ofNat_toNat]
  refine hfill.trans ?_
  split
  next h => rw [List.getElem?_eq_getElem h, Option.getD_some]
  next h => rw [List.getElem?_eq_none (Nat.not_lt.mp h), Option.getD_none]

/-- Registers that are filled with the first ones of others agree with these on the first ones. -/
theorem get_fill_first (r r' : Registers) {count : Nat} (hcount : count ≤ 16)
    (hx : x.toNat < 16) :
    (r.fill (r'.first count)).get x = if x.toNat < count then r'.get x else r.get x := by
  rw [get_fill _ _ hx, getElem?_first _ hcount, UInt8.ofNat_toNat]
  split <;> rfl

/-- The first registers are what they were filled with. -/
theorem first_fill (r : Registers) (xs : List UInt8) (h : xs.length ≤ 16) :
    (r.fill xs).first xs.length = xs := by
  refine List.ext_getElem? fun k => ?_
  rw [getElem?_first _ h]
  split
  next hk =>
    have hnat : (UInt8.ofNat k).toNat = k := by
      rw [UInt8.toNat_ofNat']
      omega
    rw [get_fill _ _ (by omega), hnat, List.getElem?_eq_getElem hk, Option.getD_some]
  next hk => rw [List.getElem?_eq_none (Nat.not_lt.mp hk)]

end Registers

/-- An instruction that leaves the index register and memory alone. -/
def Instruction.KeepsData : Instruction → Prop
  | setIndex _ | addIndex _ | glyph _ | store _ | bcd _ => False
  | _ => True

namespace Machine

variable {m m' : Machine} {i : Instruction} {actions : List Action} {x : UInt8}

/-- Neither the index register nor memory is in the footprint of such an instruction. -/
theorem notMem_footprint (hi : i.KeepsData) (m : Machine) :
    .index ∉ m.footprint i ∧ .memory ∉ m.footprint i := by
  cases i
  case setIndex | addIndex | glyph | store | bcd => exact absurd hi id
  case call =>
    rw [footprint, freeSlot]
    split <;> simp
  case waitKey =>
    rw [footprint]
    split <;> simp [Part.v]
  case restore => simp [footprint, firstRegisters]
  all_goals simp [footprint, Part.v]

/-- Most instructions leave the index register and memory alone. -/
theorem index_memory_of_execute (hi : i.KeepsData) (h : m.execute i = .ok m') :
    m'.index = m.index ∧ m'.memory = m.memory := by
  have hconfined := confined_execute h
  obtain ⟨hindex, hmemory⟩ := notMem_footprint hi m
  refine ⟨hconfined .index ?_, hconfined .memory ?_⟩ <;> simpa

/-- Executed instructions that leave the index register and memory alone, with ticks and key events
in between. -/
def Interlude : Machine → List Action → Prop :=
  Throughout fun m a => a.IsAmbient ∨ ∃ i, m.executed? a = some i ∧ i.KeepsData

/-- An interlude leaves the index register and memory alone. -/
theorem index_memory_after (h : m.Interlude actions) :
    (m.after actions).index = m.index ∧ (m.after actions).memory = m.memory := by
  induction actions generalizing m with
  | nil => exact ⟨rfl, rfl⟩
  | cons a as ih =>
    obtain ⟨hfirst, hrest⟩ := throughout_cons.mp h
    have hkept : (m.perform a).2.index = m.index ∧ (m.perform a).2.memory = m.memory := by
      rcases hfirst with hambient | ⟨i, hexecuted, hkeeps⟩
      · obtain ⟨delay, sound, keypad, hm⟩ : SameProgram m (m.perform a).2 :=
          sameProgram_after (List.forall_mem_singleton.mpr hambient)
        rw [hm]
        exact ⟨rfl, rfl⟩
      · obtain ⟨word, he⟩ := execute_of_executed? hexecuted
        -- the word on record is neither the index register nor memory
        have hrecord : _ = (m.record word).index ∧ _ = (m.record word).memory :=
          index_memory_of_execute hkeeps he
        exact hrecord
    obtain ⟨hindex, hmemory⟩ := ih hrest
    rw [after_cons, hindex, hmemory]
    exact hkept

/-! ## Storing and restoring -/

/-- A store whose last byte lies in memory is made. -/
theorem execute_store (hx : x.toNat < 16) (hfits : m.index.toNat + x.toNat < 4096) :
    m.execute (.store x) = .ok { m with
      memory := m.memory.write m.index.toNat (m.registers.first (x.toNat + 1))
      pc := m.pc + 2 } := by
  refine storeAtIndex_of_le ?_
  rw [m.registers.length_first hx]
  omega

/-- So is such a restore. -/
theorem execute_restore (hfits : m.index.toNat + x.toNat < 4096) :
    m.execute (.restore x) = .ok (m.withRegisters
      (m.registers.fill (m.memory.read m.index.toNat (x.toNat + 1)))) :=
  restoreFromIndex_of_le hfits

/-- What was stored is restored after any interlude: the registers up to Vx are what they were, the
others are as the interlude left them, and memory is as it was after the store. And to store what
has just been restored leaves memory alone. -/
theorem restore_after_store (hx : x.toNat < 16) (hfits : m.index.toNat + x.toNat < 4096) :
    (∃ stored, m.execute (.store x) = .ok stored ∧
      ∀ actions, stored.Interlude actions →
        ∃ restored, (stored.after actions).execute (.restore x) = .ok restored ∧
          (∀ k ≤ x, restored.v k = m.v k) ∧
          (∀ k, x < k → k.toNat < 16 → restored.v k = (stored.after actions).v k) ∧
          restored.memory = stored.memory) ∧
    ∃ restored again, m.execute (.restore x) = .ok restored ∧
      restored.execute (.store x) = .ok again ∧ again.memory = m.memory := by
  constructor
  · refine ⟨_, execute_store hx hfits, fun actions hinterlude => ?_⟩
    obtain ⟨hindex, hmemory⟩ := index_memory_after hinterlude
    -- of the interlude only this is needed: index register and memory are kept
    generalize hlater : Machine.after _ actions = later at hindex hmemory ⊢
    have hlength := m.registers.length_first hx
    have hread : later.memory.read later.index.toNat (x.toNat + 1) =
        m.registers.first (x.toNat + 1) := by
      rw [hindex, hmemory]
      have hself := m.memory.read_write_self m.index.toNat (m.registers.first (x.toNat + 1))
        (by omega)
      rwa [hlength] at hself
    have hv : ∀ k : UInt8, k.toNat < 16 →
        (later.registers.fill (m.registers.first (x.toNat + 1))).get k =
          if k.toNat < x.toNat + 1 then m.v k else later.v k :=
      fun k => Registers.get_fill_first _ _ hx
    refine ⟨_, execute_restore (by rwa [hindex]), ?_, ?_, hmemory⟩
    all_goals rw [hread]
    · intro k hk
      have hle := UInt8.le_iff_toNat_le.mp hk
      exact (hv k (by omega)).trans (if_pos (by omega))
    · intro k hk hlt
      have hgt := UInt8.lt_iff_toNat_lt.mp hk
      exact (hv k hlt).trans (if_neg (by omega))
  · refine ⟨_, _, execute_restore hfits, execute_store hx hfits, ?_⟩
    have hfirst := m.registers.first_fill (m.memory.read m.index.toNat (x.toNat + 1))
      (by rw [Memory.length_read]; omega)
    rw [Memory.length_read] at hfirst
    have hagain : m.memory.write m.index.toNat ((m.registers.fill
        (m.memory.read m.index.toNat (x.toNat + 1))).first (x.toNat + 1)) = m.memory := by
      rw [hfirst, Memory.write_read_self]
    exact hagain

/-- Four registers are stored in the last four bytes of memory. -/
def savingAtEnd : Machine :=
  { ofSeed 0 with
    index := 0xFFC
    registers := Registers.zero.fill [1, 2, 3, 4, 5] }

/-- After other values have been loaded and added up, the four registers are again what they were,
and V4 is not. -/
theorem restore_after_store_end :
    let actions := [Action.execute (.loadByte 0 9), .execute (.add 3 4), .tick,
      .execute (.move 4 3)]
    savingAtEnd.index.toNat + (3 : UInt8).toNat < 4096 ∧
    ∃ stored restored, savingAtEnd.execute (.store 3) = .ok stored ∧ stored.Interlude actions ∧
      (stored.after actions).v 0 = 9 ∧
      (stored.after actions).execute (.restore 3) = .ok restored ∧
      restored.v 0 = 1 ∧ restored.v 3 = 4 ∧ restored.v 4 = 9 ∧
      restored.memory.get 0xFFF = 4 := by
  intro actions
  have hfits : savingAtEnd.index.toNat + (3 : UInt8).toNat < 4096 := by decide
  obtain ⟨⟨stored, hstored, hrestore⟩, -⟩ := restore_after_store (m := savingAtEnd) (x := 3)
    (by decide) hfits
  have hinterlude : stored.Interlude actions := by
    simp only [Interlude, actions, throughout_cons]
    exact ⟨Or.inr ⟨_, rfl, trivial⟩, Or.inr ⟨_, rfl, trivial⟩, Or.inl trivial,
      Or.inr ⟨_, rfl, trivial⟩, throughout_nil _ _⟩
  obtain ⟨restored, hrestored, hsaved, hothers, hmemory⟩ := hrestore actions hinterlude
  cases hstored.symm.trans (execute_store (by decide) hfits)
  refine ⟨hfits, _, restored, hstored, hinterlude, by decide +kernel, hrestored, ?_, ?_, ?_, ?_⟩
  · exact hsaved 0 (by decide)
  · exact hsaved 3 (by decide)
  · exact (hothers 4 (by decide) (by decide)).trans (by decide +kernel)
  · rw [hmemory]
    exact (Memory.get_write _ _ _ _ (by decide)).trans (by decide +kernel)

end Machine

end Chip8
