import Chip8.Proofs.Instruction.Table
import Chip8.Proofs.Machine.Failure

/-!
# Waiting for a key

A machine that waits for a key has no mark of it but the program counter, which stands still. Every
step finds the same word again and leaves it there, until one of them finds a key down.

## Shape of the proof

Nothing that happens while no key is found touches the program counter or memory, so the machine
goes on waiting (`Awaits.perform`). `polled` gathers what the events meanwhile make of a machine,
from the number of ticks, the key events and whether there was a step at all. It is followed event
by event (`polled_step`, `polled_tick`, `polled_keyed`), and `after_eq_polled` is the induction on
the list.
-/

namespace Chip8.Machine

open Instruction

variable {m m' : Machine} {a : Action} {as actions : List Action} {x key : UInt8} {e : KeyEvent}

/-! ## The word that waits -/

/-- The program counter points at a word in memory that waits for a key to put in Vx. -/
structure Awaits (m : Machine) (x : UInt8) : Prop where
  x_lt : x.toNat < 16
  pc_lt : m.pc.toNat + 1 < 4096
  high_eq : m.memory.get m.pc.toNat = 0xF0 + x
  low_eq : m.memory.get (m.pc.toNat + 1) = 0x0A

namespace Awaits

/-- To wait is a matter of the program counter and memory. -/
theorem congr (h : m.Awaits x) (hpc : m'.pc = m.pc) (hmemory : m'.memory = m.memory) :
    m'.Awaits x where
  x_lt := h.x_lt
  pc_lt := hpc ▸ h.pc_lt
  high_eq := by rw [hpc, hmemory, h.high_eq]
  low_eq := by rw [hpc, hmemory, h.low_eq]

/-- The word that waits is fetched. -/
theorem fetch (h : m.Awaits x) : m.fetch = .ok (waitKey x).encode := by
  have hx := h.x_lt
  have hhigh : (0xF0 + x).toNat = 0xF0 + x.toNat := by
    have hbase : (0xF0 : UInt8).toNat = 0xF0 := rfl
    rw [UInt8.toNat_add, hbase]
    exact Nat.mod_eq_of_lt (by omega)
  have hword : Opcode.ofBytes (0xF0 + x) 0x0A = (waitKey x).encode := by
    apply UInt16.toNat.inj
    rw [Opcode.toNat_ofBytes, encode, toNat_registerByte (by decide), hhigh]
    omega
  rw [fetch_of_lt h.pc_lt, h.high_eq, h.low_eq, hword]

/-- As long as no key is down, a step leaves the word where it is. -/
theorem step_of_released (h : m.Awaits x) (hkeys : m.keypad = .released) :
    m.step = (.ok (.waitKey x), m.record (waitKey x).encode) := by
  have hnone : m.keypad.firstPressed? = none := Keypad.firstPressed?_eq_none_iff.mpr hkeys
  refine step_of_execute_ok h.fetch (decode?_encode h.x_lt) ?_
  rw [execute]
  simp only [record, hnone]

/-- If a key is down, a step takes the lowest one and goes on. -/
theorem step_of_firstPressed? (h : m.Awaits x) (hkey : m.keypad.firstPressed? = some key) :
    m.step = (.ok (.waitKey x), (m.record (waitKey x).encode).setV x key) := by
  refine step_of_execute_ok h.fetch (decode?_encode h.x_lt) ?_
  rw [execute]
  simp only [record, hkey]

end Awaits

/-! ## Polling -/

/-- Steps, ticks and key events, with no key down at any of the steps. -/
def Polling : Machine → List Action → Prop :=
  Throughout fun m a => a.IsAmbient ∨ a = .step ∧ m.keypad = .released

/-- Ticks and key events alone are polling, whatever keys are down. -/
theorem polling_of_isAmbient (h : ∀ a ∈ actions, a.IsAmbient) : m.Polling actions := by
  rintro before a rest rfl
  exact Or.inl (h a (by simp))

/-- What polling makes of a machine: the timers have run down by the ticks, the keypad has gone
through the key events, and if there was a step, the word is on record. -/
def polled (m : Machine) (x : UInt8) (actions : List Action) : Machine :=
  { m with
    opcode := if .step ∈ actions then (waitKey x).encode else m.opcode
    delay := UInt8.ofNat (m.delay.toNat - actions.count .tick)
    sound := UInt8.ofNat (m.sound.toNat - actions.count .tick)
    keypad := m.keypad.after (actions.filterMap Action.keyEvent?) }

theorem polled_nil (m : Machine) (x : UInt8) : m.polled x [] = m := by
  simp [polled]

/-- A step puts the word on record, once and for all. -/
theorem polled_step (m : Machine) (x : UInt8) (as : List Action) :
    (m.record (waitKey x).encode).polled x as = m.polled x (.step :: as) := by
  have hkey : Action.keyEvent? .step = none := rfl
  simp [polled, record, List.filterMap_cons_none hkey]

/-- A tick counts as one, before or after. -/
theorem polled_tick (m : Machine) (x : UInt8) (as : List Action) :
    m.tick.2.polled x as = m.polled x (.tick :: as) := by
  have hcount (timer : UInt8) : (countDown timer).toNat - as.count .tick =
      timer.toNat - (Action.tick :: as).count .tick := by
    rw [toNat_countDown, List.count_cons_self]
    omega
  have hkey : Action.keyEvent? .tick = none := rfl
  simp [polled, tick, hcount, List.filterMap_cons_none hkey]

/-- A key event is the first of those that the keypad goes through. -/
theorem polled_keyed (x : UInt8) (as : List Action) (h : a.keyEvent? = some e) :
    (m.perform a).2.polled x as = m.polled x (a :: as) := by
  rw [perform_of_keyEvent? h]
  cases a <;> cases h <;> simp [polled, Action.keyEvent?]

/-- What an action makes of a machine that waits, and that it goes on waiting. -/
theorem Awaits.perform (h : m.Awaits x) (ha : a.IsAmbient ∨ a = .step ∧ m.keypad = .released) :
    (m.perform a).2.Awaits x ∧ ∀ as, (m.perform a).2.polled x as = m.polled x (a :: as) := by
  rcases ha with ha | ⟨rfl, hkeys⟩
  · cases a with
    | tick => exact ⟨h.congr rfl rfl, polled_tick m x⟩
    | press | release =>
      refine ⟨?_, fun as => polled_keyed x as rfl⟩
      rw [perform_of_keyEvent? rfl]
      exact h.congr rfl rfl
    | _ => exact absurd ha id
  · rw [perform_step_snd, h.step_of_released hkeys]
    exact ⟨h.congr rfl rfl, polled_step m x⟩

/-- Polling leads to the machine that its events amount to, however they are interleaved. -/
theorem after_eq_polled (h : m.Awaits x) (hpolling : m.Polling actions) :
    m.after actions = m.polled x actions := by
  induction actions generalizing m with
  | nil => exact (polled_nil m x).symm
  | cons a as ih =>
    obtain ⟨hfirst, hrest⟩ := throughout_cons.mp hpolling
    obtain ⟨hawaits, hpolled⟩ := h.perform hfirst
    rw [after_cons, ih hawaits hrest, hpolled]

/-- And the machine waits still. -/
theorem Awaits.after (h : m.Awaits x) (hpolling : m.Polling actions) :
    (m.after actions).Awaits x := by
  rw [after_eq_polled h hpolling]
  exact h.congr rfl rfl

/-- A key that is pressed and released with no step in between makes no difference. -/
theorem Awaits.after_press_release (h : m.Awaits x) (hup : m.keypad.isDown key = false)
    (hambient : ∀ a ∈ actions, a.IsAmbient)
    (hother : ∀ a ∈ actions, ∀ e, a.keyEvent? = some e → e.key ≠ key) :
    m.after (.press key :: (actions ++ [.release key])) = m.after actions := by
  have hambient' : ∀ a ∈ Action.press key :: (actions ++ [.release key]), a.IsAmbient := by
    simp only [List.forall_mem_cons, List.forall_mem_append]
    exact ⟨trivial, hambient, trivial, fun _ h => (List.not_mem_nil h).elim⟩
  have hkeys : ∀ e ∈ actions.filterMap Action.keyEvent?, e.key ≠ key := by
    intro e he
    obtain ⟨a, ha, hae⟩ := List.mem_filterMap.mp he
    exact hother a ha e hae
  rw [after_eq_polled h (polling_of_isAmbient hambient'),
    after_eq_polled h (polling_of_isAmbient hambient), polled, polled]
  have hkeypad := Keypad.after_press_release hup hkeys
  simp [Action.keyEvent?, hkeypad]

/-- Waiting for a key is polling. While no step finds a key down, all steps succeed and only the
timers, the keypad and the word on record change. The first step that finds a key down puts the
lowest one in the register and goes on to the next word. What was pressed and released between two
steps is not seen. -/
theorem waitKey_polls (h : m.Awaits x) (hpolling : m.Polling actions) :
    let waiting := m.after actions
    waiting = m.polled x actions ∧
    (∀ before rest, actions = before ++ .step :: rest →
      ((m.after before).perform .step).1 = .executed (.waitKey x)) ∧
    (waiting.keypad ≠ .released → ∃ key, key.toNat < 16 ∧ waiting.keypad.isDown key = true ∧
      (∀ other < key, waiting.keypad.isDown other = false) ∧
      waiting.perform .step = (.executed (.waitKey x), { waiting with
        opcode := (waitKey x).encode
        registers := waiting.registers.set x key
        pc := waiting.pc + 2 })) ∧
    ∀ key between, waiting.keypad.isDown key = false →
      (∀ a ∈ between, a.IsAmbient ∧ ∀ e, a.keyEvent? = some e → e.key ≠ key) →
      waiting.after (.press key :: (between ++ [.release key])) = waiting.after between := by
  intro waiting
  have hwaiting : waiting.Awaits x := h.after hpolling
  refine ⟨after_eq_polled h hpolling, ?_, ?_, ?_⟩
  · rintro before rest rfl
    have hbefore : (m.after before).Awaits x := h.after (throughout_append.mp hpolling).1
    rcases hpolling before .step rest rfl with hambient | ⟨-, hkeys⟩
    · exact absurd hambient id
    · rw [Machine.perform, hbefore.step_of_released hkeys]
  · intro hkeys
    obtain ⟨key, hkey⟩ : ∃ key, waiting.keypad.firstPressed? = some key :=
      Option.ne_none_iff_exists'.mp fun hnone => hkeys (Keypad.firstPressed?_eq_none_iff.mp hnone)
    obtain ⟨hdown, hlowest⟩ := Keypad.firstPressed?_eq_some_iff.mp hkey
    refine ⟨key, Keypad.lt_of_isDown hdown, hdown, hlowest, ?_⟩
    rw [Machine.perform, hwaiting.step_of_firstPressed? hkey]
    rfl
  · intro key between hup hbetween
    exact hwaiting.after_press_release hup (fun a ha => (hbetween a ha).1)
      fun a ha => (hbetween a ha).2

/-- A machine that waits for a key to put in V3. -/
def waitingForV3 : Machine :=
  { ofSeed 0 with memory := Memory.zero.write 0x200 [0xF3, 0x0A], delay := 2 }

/-- C and then 7 are pressed between the second step and the third, which finds the lower of the
two. That 5 was down before is not seen. -/
theorem waitKey_polls_lowest :
    let actions := [Action.step, .press 0x5, .release 0x5, .tick, .step, .press 0xC, .press 0x7]
    let waiting := waitingForV3.after actions
    waitingForV3.Awaits 3 ∧ waitingForV3.Polling actions ∧ waiting.pc = 0x200 ∧
      waiting.delay = 1 ∧ waiting.keypad ≠ .released ∧
      (waiting.perform .step).2.pc = 0x202 ∧ (waiting.perform .step).2.v 3 = 0x7 := by
  intro actions waiting
  have hawaits : waitingForV3.Awaits 3 :=
    ⟨by decide, by decide, by decide +kernel, by decide +kernel⟩
  have hpolling : waitingForV3.Polling actions := by
    simp only [Polling, actions, throughout_cons, throughout_nil, Action.IsAmbient, true_or,
      false_or, true_and, and_true]
    decide +kernel
  obtain ⟨hpolled, -, hfound, -⟩ := waitKey_polls hawaits hpolling
  have hkeys : waiting.keypad ≠ .released := by decide +kernel
  obtain ⟨key, -, hdown, hlowest, hstep⟩ := hfound hkeys
  have hfirst : waiting.keypad.firstPressed? = some 0x7 := by decide +kernel
  have hkey : key = 0x7 :=
    Option.some.inj ((Keypad.firstPressed?_eq_some_iff.mpr ⟨hdown, hlowest⟩).symm.trans hfirst)
  refine ⟨hawaits, hpolling, ?_, ?_, hkeys, ?_, ?_⟩
  · exact congrArg pc hpolled
  · exact congrArg delay hpolled
  · rw [hstep]
    exact congrArg (pc · + 2) hpolled
  · rw [hstep, hkey]
    exact Registers.get_set_self _ _ _

end Chip8.Machine
