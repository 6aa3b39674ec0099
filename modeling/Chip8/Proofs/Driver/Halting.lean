import Chip8.Proofs.Driver.Attempts
import Chip8.Proofs.Machine.InPlace
import Mathlib.Data.List.Induction

/-!
# Halting

A frame makes its attempts one by one until they are used up or one of them fails for good. From
then on the driver stands still: a frame is nothing but its tick.

## Shape of the statements

`Course d k` describes a frame of which `k` attempts are made, each of them one of the three kinds
of `Attempted`. `Standstill d actions e` describes what frames and key events make of a halted
driver. `frame_course_standstill` says that every frame has such a course and that no history of a
halted driver does more.
-/

namespace Chip8

/-- What key events do to the keypad depends on the keypad alone. -/
theorem Machine.keypad_perform_of_keyEvent? {m m' : Machine} {a : Action} {e : KeyEvent}
    (ha : a.keyEvent? = some e) (h : m.keypad = m'.keypad) :
    (m.perform a).2.keypad = (m'.perform a).2.keypad := by
  rw [perform_of_keyEvent? ha, perform_of_keyEvent? ha, h]

namespace Driver

variable {d e : Driver}

/-! ## The course of a frame -/

/-- A frame of `d` of which `k` attempts are made. -/
structure Course (d : Driver) (k : Nat) : Prop where
  le : k ≤ d.options.stepsPerTick
  frame_eq : d.frame = (attempt^[k] d).tick
  running : ∀ j < k, (attempt^[j] d).halted = false
  attempted : ∀ j < k, Attempted (attempt^[j] d) (attempt^[j + 1] d)
  /-- Made in place, an attempt leaves the same machine behind and tells whether it halts. -/
  in_place : ∀ j < k,
    let outcome := (Procedure.attempt d.options.onUnknown).run (attempt^[j] d).machine
    outcome.result = .ok (attempt^[j + 1] d).halted ∧
      outcome.machine = (attempt^[j + 1] d).machine
  /-- Attempts are left out only if the driver has halted. -/
  halted_of_lt : k < d.options.stepsPerTick → d.frame.2.halted = true
  /-- No attempt follows one that fails for good. -/
  last_of_fails : ∀ j < k, (attempt^[j] d).FailsForGood → j + 1 = k
  halted_iff : d.frame.2.halted = true ↔
    d.halted = true ∨ ∃ j < k, (attempt^[j] d).FailsForGood

/-- Behind an attempt that fails for good the driver has halted. -/
theorem halted_iterate_succ_of_fails {j : Nat} (h : (attempt^[j] d).FailsForGood) :
    (attempt^[j + 1] d).halted = true := by
  rw [Function.iterate_succ_apply', attempt_of_failsForGood h]

/-- An attempt of a running driver, made in place. -/
theorem attempt_in_place {j : Nat} (hrun : (attempt^[j] d).halted = false) :
    let outcome := (Procedure.attempt d.options.onUnknown).run (attempt^[j] d).machine
    outcome.result = .ok (attempt^[j + 1] d).halted ∧
      outcome.machine = (attempt^[j + 1] d).machine := by
  obtain ⟨halts, hresult, hattempt⟩ := Procedure.attempt_agrees (attempt^[j] d)
  rw [options_iterate] at hresult hattempt
  rw [Function.iterate_succ_apply', hattempt, hrun, Bool.false_or]
  exact ⟨hresult, rfl⟩

/-- Every frame takes a course, whatever its driver. -/
theorem exists_course (d : Driver) : ∃ k, d.Course k := by
  obtain ⟨k, hk, running, ends⟩ := exists_attempts d.options.stepsPerTick d
  have frame_eq : d.frame = (attempt^[k] d).tick := by
    rw [frame, attempts_eq_iterate hk running ends]
  have halted_eq : d.frame.2.halted = (attempt^[k] d).halted := by
    rw [frame_eq]
    rfl
  have attempted : ∀ j, Attempted (attempt^[j] d) (attempt^[j + 1] d) := fun j => by
    rw [Function.iterate_succ_apply']
    exact attempted_attempt _
  refine ⟨k, hk, frame_eq, running, fun j _ => attempted j,
    fun j hj => attempt_in_place (running j hj), ?_, ?_, ?_⟩
  · intro hlt
    rw [halted_eq]
    exact ends hlt
  · intro j hj hfails
    by_contra hne
    have hrun := running (j + 1) (by omega)
    rw [halted_iterate_succ_of_fails hfails] at hrun
    cases hrun
  · rw [halted_eq]
    constructor
    · intro h
      cases k with
      | zero => exact Or.inl h
      | succ k =>
        exact Or.inr ⟨k, Nat.lt_succ_self k,
          (attempted k).failsForGood (running k (Nat.lt_succ_self k)) h⟩
    · rintro (h | ⟨j, hj, hfails⟩)
      · exact halted_iterate h k
      · exact halted_iterate_of_le hj (halted_iterate_succ_of_fails hfails)

/-! ## A halted driver -/

/-- All that a frame of a halted driver comes to is its tick. -/
theorem frame_of_halted (h : d.halted = true) : d.frame = d.tick := by
  rw [frame, attempts_of_halted h]

/-- The action of the host on the machine, if it is one. -/
def Action.host? : Action → Option Machine.Action
  | .frame => none
  | .host action => some action

/-- What frames and key events have made of a halted driver. -/
structure Standstill (d : Driver) (actions : List Action) (e : Driver) : Prop where
  halted : e.halted = true
  options_eq : e.options = d.options
  /-- Only the timers and the keypad have changed, the keypad by the key events alone. -/
  machine_eq : e.machine = { d.machine with
    delay := e.machine.delay
    sound := e.machine.sound
    keypad := (d.machine.after (actions.filterMap Action.host?)).keypad }
  delay_eq : e.machine.delay.toNat = d.machine.delay.toNat - actions.count .frame
  sound_eq : e.machine.sound.toNat = d.machine.sound.toNat - actions.count .frame

theorem standstill_nil (h : d.halted = true) : d.Standstill [] d :=
  ⟨h, rfl, rfl, rfl, rfl⟩

/-- A frame of a driver at a standstill counts the timers down and does nothing else. -/
theorem Standstill.frame {actions : List Action} (h : d.Standstill actions e) :
    d.Standstill (actions ++ [.frame]) e.frame.2 := by
  have hkeys : (actions ++ [Action.frame]).filterMap Action.host? =
      actions.filterMap Action.host? := by
    rw [List.filterMap_append]
    exact List.append_nil _
  rw [frame_of_halted h.halted]
  refine ⟨h.halted, h.options_eq, ?_, ?_, ?_⟩
  · have hm : e.tick.2.machine = { e.machine with
        delay := e.tick.2.machine.delay, sound := e.tick.2.machine.sound } := rfl
    rw [hkeys, hm]
    simp only
    rw [h.machine_eq]
  · have hd : e.tick.2.machine.delay.toNat = e.machine.delay.toNat - 1 :=
      Machine.toNat_countDown _
    rw [hd, h.delay_eq, List.count_append, List.count_singleton_self]
    omega
  · have hs : e.tick.2.machine.sound.toNat = e.machine.sound.toNat - 1 :=
      Machine.toNat_countDown _
    rw [hs, h.sound_eq, List.count_append, List.count_singleton_self]
    omega

/-- A key event moves keys and nothing else. -/
theorem Standstill.host {actions : List Action} {a : Machine.Action} {keypad : Keypad}
    (h : d.Standstill actions e)
    (hm : (e.machine.perform a).2 = { e.machine with keypad := keypad })
    (hk : (e.machine.perform a).2.keypad =
      ((d.machine.after (actions.filterMap Action.host?)).perform a).2.keypad) :
    d.Standstill (actions ++ [.host a]) (e.perform (.host a)).2 := by
  have hmachine : (e.perform (.host a)).2.machine = { e.machine with keypad := keypad } := hm
  have hcount : (actions ++ [Action.host a]).count .frame = actions.count .frame := by
    simp
  have hkeypad : (d.machine.after ((actions ++ [Action.host a]).filterMap Action.host?)).keypad =
      keypad := by
    rw [List.filterMap_append, Machine.after_append]
    refine Eq.trans hk.symm ?_
    rw [hm]
  refine ⟨h.halted, h.options_eq, ?_, ?_, ?_⟩
  · rw [hkeypad, hmachine]
    simp only
    rw [h.machine_eq]
  · rw [hmachine, hcount]
    exact h.delay_eq
  · rw [hmachine, hcount]
    exact h.sound_eq

/-- Frames and key events, in any order, leave a halted driver at a standstill. -/
theorem standstill_after (h : d.halted = true) {actions : List Action}
    (ha : ∀ a ∈ actions, a.IsFrameOrKey) : d.Standstill actions (d.after actions) := by
  induction actions using List.reverseRecOn with
  | nil => exact standstill_nil h
  | append_singleton as a ih =>
    have hs := ih fun b hb => ha b (List.mem_append_left _ hb)
    have hlast : a.IsFrameOrKey := ha a (by simp)
    have hkeypad : (d.after as).machine.keypad =
        (d.machine.after (as.filterMap Action.host?)).keypad := by rw [hs.machine_eq]
    rw [after_append]
    cases a with
    | frame => exact hs.frame
    | host action =>
      cases action with
      | press | release =>
        exact hs.host (Machine.perform_of_keyEvent? rfl)
          (Machine.keypad_perform_of_keyEvent? rfl hkeypad)
      | _ => exact absurd hlast id

/-- The tone of a frame at a standstill is that of its tick: it sounds when the sound timer, counted
from the halt, runs out. -/
theorem Standstill.tone {actions : List Action} (h : d.Standstill actions e) :
    e.frame.1 = decide (d.machine.sound.toNat = actions.count .frame + 1) := by
  have hs := h.sound_eq
  have hone : e.machine.sound = 1 ↔ e.machine.sound.toNat = 1 :=
    ⟨fun he => by rw [he]; rfl, fun he => UInt8.toNat.inj he⟩
  rw [frame_of_halted h.halted]
  show (e.machine.sound == 1) = _
  rw [Bool.eq_iff_iff, beq_iff_eq, decide_eq_true_eq, hone]
  omega

/-- A frame makes its attempts one by one, each a step that is made, a word that is stepped over or
the fault that halts the driver, after which none follows; made in place, each comes to the same. A
halted driver stays halted, and frames and key events change nothing but timers and keys; each frame
then reports the tone of its tick. -/
theorem frame_course_standstill (d : Driver) :
    (∃ k, d.Course k) ∧
    (d.halted = true → ∀ actions : List Action, (∀ a ∈ actions, a.IsFrameOrKey) →
      d.Standstill actions (d.after actions) ∧
      (d.after actions).frame = (d.after actions).tick ∧
      (d.after actions).frame.1 = decide (d.machine.sound.toNat = actions.count .frame + 1)) := by
  refine ⟨exists_course d, ?_⟩
  intro h actions ha
  have hs := standstill_after h ha
  exact ⟨hs, frame_of_halted hs.halted, hs.tone⟩

/-- A driver that was to make five attempts a frame: it has stepped over an unknown word, halted at
a return without a call, and counted its sound timer down to one. -/
def deadEnd : Driver :=
  (start { Machine.ofSeed 0 with
      memory := Memory.zero.write 0x200 [0x01, 0x23, 0x00, 0xEE], sound := 2 }
    { RunOptions.standard with stepsPerTick := 5 }).after [.frame]

/-- After a key event the next frame reports the tone that was still to come. -/
theorem frame_course_standstill_deadEnd :
    deadEnd.halted = true ∧ deadEnd.machine.pc = 0x202 ∧
      (∀ a ∈ [Action.host (.press 3)], a.IsFrameOrKey) ∧
      deadEnd.Standstill [.host (.press 3)] (deadEnd.after [.host (.press 3)]) ∧
      (deadEnd.after [.host (.press 3)]).frame.1 = true := by
  have h : deadEnd.halted = true := by decide +kernel
  have ha : ∀ a ∈ [Action.host (.press 3)], a.IsFrameOrKey := by simp [Action.IsFrameOrKey]
  obtain ⟨hs, -, htone⟩ := (frame_course_standstill deadEnd).2 h _ ha
  exact ⟨h, by decide +kernel, ha, hs, htone.trans (by decide +kernel)⟩

end Driver

end Chip8
