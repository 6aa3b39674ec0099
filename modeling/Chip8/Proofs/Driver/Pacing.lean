import Chip8.Proofs.Driver.Attempts
import Chip8.Proofs.Machine.Timers

/-!
# Pacing

How many attempts go with a tick makes no difference to a program that never looks at the delay
timer: only the total number of attempts counts.

## Shape of the proof

Two drivers are alike if they agree on everything but the timers and the length of a frame. Attempts
that do not read the delay timer keep drivers alike, and a tick changes nothing that counts. So a
number of frames is alike to their attempts in one go (`alike_frames`), and two numbers of frames
with the same total are alike to each other. That no attempt reads the delay timer (`Quiet`) needs
to be known of one of the two runs only, since the other makes the same attempts.
-/

namespace Chip8.Driver

variable {d e : Driver} {m n : Nat}

/-! ## Alike drivers -/

/-- The drivers agree on all but the timers and the number of attempts that go with a tick. -/
structure Alike (d e : Driver) : Prop where
  untimed_eq : d.machine.untimed = e.machine.untimed
  halted_eq : d.halted = e.halted
  policy_eq : d.options.onUnknown = e.options.onUnknown

theorem Alike.symm (h : Alike d e) : Alike e d :=
  ⟨h.untimed_eq.symm, h.halted_eq.symm, h.policy_eq.symm⟩

/-- Drivers that are alike to the same one are alike. -/
theorem Alike.trans {f : Driver} (h : Alike d e) (h' : Alike e f) : Alike d f :=
  ⟨h.untimed_eq.trans h'.untimed_eq, h.halted_eq.trans h'.halted_eq,
    h.policy_eq.trans h'.policy_eq⟩

/-- A tick changes timers only. -/
theorem alike_tick (d : Driver) : Alike d.tick.2 d := ⟨rfl, rfl, rfl⟩

/-- An attempt that does not read the delay timer keeps drivers alike. -/
theorem Alike.attempt (h : Alike d e) (hd : ¬ d.machine.ReadsDelay) :
    Alike d.attempt e.attempt := by
  obtain ⟨hanswer, hmachine⟩ := Machine.step_congr_untimed h.untimed_eq hd
  rcases hs : d.machine.step with ⟨answer, m⟩
  rcases hs' : e.machine.step with ⟨answer', m'⟩
  rw [hs, hs'] at hanswer hmachine
  obtain rfl : answer' = answer := hanswer
  have hm : m.untimed = m'.untimed := hmachine.symm
  simp only [Driver.attempt, hs, hs', h.policy_eq]
  cases answer' with
  | ok i => exact ⟨hm, h.halted_eq, h.policy_eq⟩
  | error fault =>
    simp only
    split
    · exact ⟨Machine.untimed_skip hm, h.halted_eq, h.policy_eq⟩
    · exact ⟨hm, rfl, h.policy_eq⟩

/-! ## Quiet runs -/

/-- None of the first `n` attempts that are made reads the delay timer. -/
def Quiet (n : Nat) (d : Driver) : Prop :=
  ∀ e, Tries n d e → ¬ e.machine.ReadsDelay

/-- A halted driver is quiet, since it makes no attempt. -/
theorem quiet_of_halted (h : d.halted = true) : Quiet n d := by
  rintro e ⟨j, -, rfl, hrun⟩
  rw [halted_iterate h] at hrun
  cases hrun

theorem quiet_zero (d : Driver) : Quiet 0 d := by
  rintro e ⟨j, hj, -⟩
  omega

/-- A run is quiet if its first attempt is and what follows it is. -/
theorem quiet_succ_of_running (h : d.halted = false) :
    Quiet (n + 1) d ↔ ¬ d.machine.ReadsDelay ∧ Quiet n d.attempt := by
  constructor
  · intro hq
    exact ⟨hq d (tries_self h), fun e he => hq e he.of_attempt⟩
  · rintro ⟨hd, hq⟩ e ⟨_ | j, hj, rfl, hrun⟩
    · exact hd
    · exact hq _ ⟨j, Nat.lt_of_succ_lt_succ hj, rfl, hrun⟩

/-- A run is quiet if both its parts are. -/
theorem quiet_add : Quiet (m + n) d ↔ Quiet m d ∧ Quiet n (attempts m d) := by
  induction m generalizing d with
  | zero => simp [quiet_zero, attempts]
  | succ m ih =>
    rw [Nat.succ_add]
    cases hd : d.halted with
    | true => simp [quiet_of_halted hd, attempts_of_halted hd]
    | false =>
      rw [quiet_succ_of_running hd, quiet_succ_of_running hd, ih, attempts_succ_of_running hd,
        and_assoc]

/-- Alike drivers make the same attempts, as far as these do not read the delay timer. -/
theorem Alike.attempts (h : Alike d e) (hq : Quiet n d) :
    Alike (attempts n d) (attempts n e) ∧ Quiet n e := by
  induction n generalizing d e with
  | zero => exact ⟨h, quiet_zero e⟩
  | succ n ih =>
    cases hd : d.halted with
    | true =>
      have he : e.halted = true := h.halted_eq.symm.trans hd
      rw [attempts_of_halted hd, attempts_of_halted he]
      exact ⟨h, quiet_of_halted he⟩
    | false =>
      have he : e.halted = false := h.halted_eq.symm.trans hd
      obtain ⟨hread, hrest⟩ := (quiet_succ_of_running hd).mp hq
      rw [attempts_succ_of_running hd, attempts_succ_of_running he, quiet_succ_of_running he]
      obtain ⟨halike, hquiet⟩ := ih (h.attempt hread) hrest
      exact ⟨halike, mt (Machine.readsDelay_congr h.untimed_eq).mpr hread, hquiet⟩

/-! ## Frames -/

/-- A number of frames one after the other. -/
abbrev framesOnly (j : Nat) : List Action :=
  List.replicate j .frame

section

variable {steps j : Nat}

/-- A frame is alike to its attempts without the tick. -/
theorem Alike.frame (h : Alike d e) (hsteps : d.options.stepsPerTick = steps)
    (hq : Quiet steps d) : Alike d.frame.2 (Driver.attempts steps e) := by
  subst hsteps
  exact (alike_tick _).trans (h.attempts hq).1

/-- Frames without reads of the delay timer are alike to their attempts in one go, which do not read
it either. -/
theorem alike_frames (h : Alike d e) (hsteps : d.options.stepsPerTick = steps)
    (hq : ∀ i < j, Quiet steps (d.after (framesOnly i))) :
    Alike (d.after (framesOnly j)) (attempts (steps * j) e) ∧ Quiet (steps * j) e := by
  induction j generalizing d e with
  | zero => exact ⟨h, quiet_zero e⟩
  | succ j ih =>
    have hfirst : Quiet steps d := hq 0 (Nat.succ_pos j)
    have hrest : ∀ i < j, Quiet steps (d.frame.2.after (framesOnly i)) :=
      fun i hi => hq (i + 1) (Nat.succ_lt_succ hi)
    have hsteps' : d.frame.2.options.stepsPerTick = steps := by rw [options_frame, hsteps]
    obtain ⟨halike, hquiet⟩ := ih (h.frame hsteps hfirst) hsteps' hrest
    rw [Nat.mul_succ, Nat.add_comm (steps * j), attempts_add, quiet_add]
    exact ⟨halike, (h.attempts hfirst).2, hquiet⟩

/-- Attempts in one go that do not read the delay timer are alike to frames of the same total. -/
theorem frames_alike (h : Alike d e) (hsteps : d.options.stepsPerTick = steps)
    (hq : Quiet (steps * j) e) :
    Alike (d.after (framesOnly j)) (attempts (steps * j) e) := by
  induction j generalizing d e with
  | zero => exact h
  | succ j ih =>
    rw [Nat.mul_succ, Nat.add_comm (steps * j), quiet_add] at hq
    have hfirst : Quiet steps d := (h.symm.attempts hq.1).2
    have hsteps' : d.frame.2.options.stepsPerTick = steps := by rw [options_frame, hsteps]
    rw [Nat.mul_succ, Nat.add_comm (steps * j), attempts_add]
    exact ih (h.frame hsteps hfirst) hsteps' hq.2

end

/-- The driver with another number of attempts in a frame. -/
def withSteps (d : Driver) (steps : Nat) : Driver :=
  { d with options := { d.options with stepsPerTick := steps } }

/-- Two drivers that differ in the number of attempts in a frame are the same but for their timers
after frames with the same number of attempts in all, unless an attempt reads the delay timer. -/
theorem after_framesOnly_withSteps (d : Driver) (a b j k : Nat) (hab : a * j = b * k)
    (hquiet : ∀ i < j, Quiet a ((d.withSteps a).after (framesOnly i))) :
    let first := (d.withSteps a).after (framesOnly j)
    let second := (d.withSteps b).after (framesOnly k)
    second.halted = first.halted ∧
      second.machine = { first.machine with
        delay := second.machine.delay, sound := second.machine.sound } := by
  intro first second
  have hfirst : Alike (d.withSteps a) d := ⟨rfl, rfl, rfl⟩
  have hsecond : Alike (d.withSteps b) d := ⟨rfl, rfl, rfl⟩
  obtain ⟨halike, hflat⟩ := alike_frames hfirst rfl hquiet
  have hab' : (d.withSteps a).options.stepsPerTick * j = b * k := hab
  rw [hab'] at halike hflat
  have hboth : Alike first second := halike.trans (frames_alike hsecond rfl hflat).symm
  exact ⟨hboth.halted_eq.symm, Machine.untimed_eq_iff.mp hboth.untimed_eq⟩

/-- A driver in front of a program that starts the delay timer and does not look at it. -/
def timed : Driver :=
  start { Machine.ofSeed 0 with
    memory := Memory.zero.write 0x200 [0x60, 0x05, 0xF0, 0x15, 0x61, 0x01] } .standard

/-- Three short frames and one long frame lead to the same machine, although the delay timers
differ. -/
theorem after_framesOnly_withSteps_timed :
    (∀ i < 3, Quiet 1 ((timed.withSteps 1).after (framesOnly i))) ∧
      ((timed.withSteps 1).after (framesOnly 3)).machine.delay = 3 ∧
      ((timed.withSteps 3).after (framesOnly 1)).machine.delay = 4 ∧
      ((timed.withSteps 3).after (framesOnly 1)).machine =
        { ((timed.withSteps 1).after (framesOnly 3)).machine with
          delay := ((timed.withSteps 3).after (framesOnly 1)).machine.delay
          sound := ((timed.withSteps 3).after (framesOnly 1)).machine.sound } := by
  have hrun : ∀ i < 3, ((timed.withSteps 1).after (framesOnly i)).halted = false := by
    decide +kernel
  have hquiet : ∀ i < 3, Quiet 1 ((timed.withSteps 1).after (framesOnly i)) := by
    intro i hi
    refine (quiet_succ_of_running (hrun i hi)).mpr ⟨?_, quiet_zero _⟩
    rintro ⟨x, hx⟩
    obtain rfl | rfl | rfl : i = 0 ∨ i = 1 ∨ i = 2 := by omega
    · have hload : ((timed.withSteps 1).after (framesOnly 0)).machine.step.1 =
          .ok (.loadByte 0 5) := by decide +kernel
      cases hload.symm.trans hx
    · have hset : ((timed.withSteps 1).after (framesOnly 1)).machine.step.1 =
          .ok (.setDelay 0) := by decide +kernel
      cases hset.symm.trans hx
    · have hload : ((timed.withSteps 1).after (framesOnly 2)).machine.step.1 =
          .ok (.loadByte 1 1) := by decide +kernel
      cases hload.symm.trans hx
  have hagree := after_framesOnly_withSteps timed 1 3 3 1 rfl hquiet
  exact ⟨hquiet, by decide +kernel, by decide +kernel, hagree.2⟩

end Chip8.Driver
