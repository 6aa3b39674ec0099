import Chip8.Proofs.Machine.Draw

/-!
# The periphery

The timers, the keypad and the random source are where a program meets the world outside. Only seven
instructions touch them. All others neither read nor change this part of the machine, and go on in
the same way whatever it holds.

## Shape of the proof

`execute_withPeriphery` is the one frame law: to exchange the periphery and then execute is the same
as to execute and then exchange it. Two machines are `Linked` by a relation if they differ at most
in their peripheries and the relation holds between these. The frame law settles all instructions
but the seven, so a proof that two linked machines step alike (`Linked.step`) is left with the few
of the seven that its relation is about.
-/

namespace Chip8

/-- The parts of a machine through which a program meets the world outside. -/
structure Periphery where
  delay : UInt8
  sound : UInt8
  keypad : Keypad
  random : RandomSource

/-- An instruction that reads or changes the periphery. -/
def Instruction.IsPeripheral : Instruction → Prop
  | random _ _ | skipKey _ | skipNotKey _ | getDelay _ | waitKey _ | setDelay _ | setSound _ => True
  | _ => False

namespace Machine

variable {m m' : Machine} {i : Instruction}

/-- The periphery of a machine. -/
def periphery (m : Machine) : Periphery :=
  ⟨m.delay, m.sound, m.keypad, m.random⟩

/-- The machine with another periphery. -/
def withPeriphery (m : Machine) (p : Periphery) : Machine :=
  { m with delay := p.delay, sound := p.sound, keypad := p.keypad, random := p.random }

@[simp] theorem withPeriphery_self (m : Machine) : m.withPeriphery m.periphery = m := rfl

@[simp] theorem periphery_withPeriphery (m : Machine) (p : Periphery) :
    (m.withPeriphery p).periphery = p := rfl

/-! ## The frame law

What an instruction tests before it changes anything is the same for every periphery. -/

/-- A call asks for a free slot. -/
theorem call_withPeriphery (m : Machine) (p : Periphery) (address : UInt16) :
    (m.withPeriphery p).call address = (m.call address).map (withPeriphery · p) := by
  have htest : (m.withPeriphery p).stack.push? (m.withPeriphery p).pc = m.stack.push? m.pc := rfl
  rw [call, call, htest]
  cases m.stack.push? m.pc <;> rfl

/-- A return asks for a slot in use. -/
theorem ret_withPeriphery (m : Machine) (p : Periphery) :
    (m.withPeriphery p).ret = m.ret.map (withPeriphery · p) := by
  have htest : (m.withPeriphery p).stack.pop? = m.stack.pop? := rfl
  rw [ret, ret, htest]
  cases m.stack.pop? <;> rfl

/-- A draw asks for the sprite. -/
theorem draw_withPeriphery (m : Machine) (p : Periphery) (x y n : UInt8) :
    (m.withPeriphery p).draw x y n = (m.draw x y n).map (withPeriphery · p) := by
  have htest : (m.withPeriphery p).sprite n = m.sprite n := rfl
  rw [draw_eq_map, draw_eq_map, htest]
  cases m.sprite n <;> rfl

/-- A store asks for room in memory. -/
theorem storeAtIndex_withPeriphery (m : Machine) (p : Periphery) (xs : List UInt8) :
    (m.withPeriphery p).storeAtIndex xs = (m.storeAtIndex xs).map (withPeriphery · p) := by
  have htest : Memory.span (m.withPeriphery p).index.toNat xs.length =
      Memory.span m.index.toNat xs.length := rfl
  rw [storeAtIndex, storeAtIndex, htest]
  cases Memory.span m.index.toNat xs.length <;> rfl

/-- A restore asks for bytes to read. -/
theorem restoreFromIndex_withPeriphery (m : Machine) (p : Periphery) (count : Nat) :
    (m.withPeriphery p).restoreFromIndex count =
      (m.restoreFromIndex count).map (withPeriphery · p) := by
  have htest : Memory.span (m.withPeriphery p).index.toNat count =
      Memory.span m.index.toNat count := rfl
  rw [restoreFromIndex, restoreFromIndex, htest]
  cases Memory.span m.index.toNat count <;> rfl

/-- All instructions but the peripheral ones go past the periphery. -/
theorem execute_withPeriphery (hi : ¬ i.IsPeripheral) (m : Machine) (p : Periphery) :
    (m.withPeriphery p).execute i = (m.execute i).map (withPeriphery · p) := by
  cases i
  case call address => exact m.call_withPeriphery p address
  case ret => exact m.ret_withPeriphery p
  case draw x y n => exact m.draw_withPeriphery p x y n
  case bcd x => exact m.storeAtIndex_withPeriphery p _
  case store x => exact m.storeAtIndex_withPeriphery p _
  case restore x => exact m.restoreFromIndex_withPeriphery p _
  case random | skipKey | skipNotKey | getDelay | waitKey | setDelay | setSound =>
    exact absurd trivial hi
  all_goals rfl

/-- All instructions but the peripheral ones leave the periphery as it is. -/
theorem periphery_of_execute (hi : ¬ i.IsPeripheral) (h : m.execute i = .ok m') :
    m'.periphery = m.periphery := by
  have hframe := execute_withPeriphery hi m m.periphery
  rw [withPeriphery_self, h] at hframe
  have hm : m' = m'.withPeriphery m.periphery := Except.ok.inj hframe
  rw [hm, periphery_withPeriphery]

/-! ## Peripheral instructions

They are never refused, so they are executed wherever they are fetched. -/

/-- A peripheral instruction is never refused. -/
theorem exists_execute_eq_ok (hi : i.IsPeripheral) (m : Machine) :
    ∃ m', m.execute i = .ok m' := by
  cases i
  case waitKey x =>
    rw [execute]
    split <;> exact ⟨_, rfl⟩
  case random | skipKey | skipNotKey | getDelay | setDelay | setSound => exact ⟨_, rfl⟩
  all_goals exact absurd hi id

/-- A step makes a peripheral instruction exactly if it finds its word. -/
theorem step_fst_eq_ok_iff (hi : i.IsPeripheral) :
    m.step.1 = .ok i ↔ ∃ word, m.fetch = .ok word ∧ Instruction.decode? word = some i := by
  constructor
  · intro h
    obtain ⟨word, hf, hd, -⟩ := step_eq_ok_iff.mp (Prod.ext h rfl : m.step = (.ok i, m.step.2))
    exact ⟨word, hf, hd⟩
  · rintro ⟨word, hf, hd⟩
    obtain ⟨m', he⟩ := exists_execute_eq_ok hi (m.record word)
    exact congrArg Prod.fst (step_of_execute_ok hf hd he)

/-! ## Linked machines -/

variable {r : Periphery → Periphery → Prop}

/-- The machines differ at most in their peripheries, and these are related. -/
structure Linked (r : Periphery → Periphery → Prop) (m m' : Machine) : Prop where
  eq_withPeriphery : m' = m.withPeriphery m'.periphery
  related : r m.periphery m'.periphery

/-- A machine is linked to itself with a related periphery. -/
theorem linked_withPeriphery {p : Periphery} (h : r m.periphery p) :
    Linked r m (m.withPeriphery p) := ⟨rfl, h⟩

theorem Linked.record (h : Linked r m m') (word : UInt16) :
    Linked r (m.record word) (m'.record word) :=
  ⟨congrArg (Machine.record · word) h.eq_withPeriphery, h.related⟩

/-- The same refusal, or linked machines. -/
inductive LinkedOutcomes (r : Periphery → Periphery → Prop) :
    Except Fault Machine → Except Fault Machine → Prop where
  | refused (fault : Fault) : LinkedOutcomes r (.error fault) (.error fault)
  | done {m m' : Machine} (linked : Linked r m m') : LinkedOutcomes r (.ok m) (.ok m')

/-- The instruction leads from linked machines to linked machines. -/
def Respects (r : Periphery → Periphery → Prop) (i : Instruction) : Prop :=
  ∀ m m', Linked r m m' → LinkedOutcomes r (m.execute i) (m'.execute i)

/-- What is not peripheral respects every relation. -/
theorem respects_of_not_isPeripheral (hi : ¬ i.IsPeripheral) : Respects r i := by
  intro m m' h
  rw [h.eq_withPeriphery, execute_withPeriphery hi]
  cases he : m.execute i with
  | error fault => exact .refused fault
  | ok m₁ =>
    refine .done (linked_withPeriphery ?_)
    rw [periphery_of_execute hi he]
    exact h.related

/-- Linked machines step alike if the next instruction respects the link. -/
theorem Linked.step (h : Linked r m m')
    (hi : ∀ i, m.step.1 = .ok i → i.IsPeripheral → Respects r i) :
    m'.step.1 = m.step.1 ∧ Linked r m.step.2 m'.step.2 := by
  have hfetch : m'.fetch = m.fetch := by
    rw [h.eq_withPeriphery]
    rfl
  have hpc : m'.pc = m.pc := by
    rw [h.eq_withPeriphery]
    rfl
  cases hf : m.fetch with
  | error fault =>
    rw [step_of_fetch_error hf, step_of_fetch_error (hfetch.trans hf)]
    exact ⟨rfl, h⟩
  | ok word =>
    cases hd : Instruction.decode? word with
    | none =>
      rw [step_of_decode?_none hf hd, step_of_decode?_none (hfetch.trans hf) hd, hpc]
      exact ⟨rfl, h.record word⟩
    | some i =>
      have hr : Respects r i := by
        by_cases hp : i.IsPeripheral
        · exact hi i ((step_fst_eq_ok_iff hp).mpr ⟨word, hf, hd⟩) hp
        · exact respects_of_not_isPeripheral hp
      -- both machines have put the same word on record before they execute
      have hout := hr _ _ (h.record word)
      generalize he : (m.record word).execute i = outcome at hout
      generalize he' : (m'.record word).execute i = outcome' at hout
      cases hout with
      | refused fault =>
        rw [step_of_execute_error hf hd he, step_of_execute_error (hfetch.trans hf) hd he']
        exact ⟨rfl, h.record word⟩
      | done linked =>
        rw [step_of_execute_ok hf hd he, step_of_execute_ok (hfetch.trans hf) hd he']
        exact ⟨rfl, linked⟩

end Machine

end Chip8
