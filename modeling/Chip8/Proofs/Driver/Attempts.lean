import Chip8.Driver.Basic
import Chip8.Proofs.Machine.History
import Chip8.Proofs.Machine.Step
import Mathlib.Logic.Function.Iterate

/-!
# Attempts of a driver

What an attempt makes of a driver, and which attempts a frame consists of.

## Shape of a frame

The loop of a frame ends early once the driver has halted. Without that exit it is a plain iteration
of `attempt`, and `attempts_eq_iterate` says how far it goes: up to the first point where the driver
has halted or the count is used up. `Tries n d e` names the drivers in front of the attempts that
are really made, and `TriesIn` those of a whole history; what is asked of "every attempt" is asked
of these.
-/

namespace Chip8.Driver

variable {d e : Driver} {n : Nat}

/-! ## One attempt -/

/-- The next step fails, and not at a word that the driver would step over. -/
def FailsForGood (d : Driver) : Prop :=
  ∃ fault, d.machine.step.1 = .error fault ∧
    ¬ (d.options.onUnknown = .skip ∧ ∃ word address, fault = .unknownOpcode word address)

/-- What an attempt makes of a driver. -/
inductive Attempted (d : Driver) : Driver → Prop where
  /-- The step is made. -/
  | made {i : Instruction} {m : Machine} (step : d.machine.step = (.ok i, m)) :
      Attempted d { d with machine := m }
  /-- A word that is no instruction is stepped over. -/
  | passed {word address : UInt16}
      (step : d.machine.step.1 = .error (.unknownOpcode word address))
      (policy : d.options.onUnknown = .skip) :
      Attempted d { d with machine := { d.machine with opcode := word, pc := d.machine.pc + 2 } }
  /-- Any other fault halts the driver. -/
  | stopped (fails : d.FailsForGood) :
      Attempted d { d with
        machine := { d.machine with opcode := d.machine.lastWord }, halted := true }

/-- Only the policy to skip tolerates a fault, and only that of an unknown word. -/
theorem tolerates_iff {policy : UnknownPolicy} {fault : Fault} :
    tolerates policy fault = true ↔
      policy = .skip ∧ ∃ word address, fault = .unknownOpcode word address := by
  cases fault <;> simp [tolerates]

/-- A step that is made is all there is to the attempt. -/
theorem attempt_of_ok {i : Instruction} {m : Machine} (h : d.machine.step = (.ok i, m)) :
    d.attempt = { d with machine := m } := by
  rw [attempt, h]

/-- A tolerated word is stepped over. -/
theorem attempt_of_unknown {word address : UInt16}
    (h : d.machine.step.1 = .error (.unknownOpcode word address))
    (policy : d.options.onUnknown = .skip) :
    d.attempt = { d with machine := d.machine.step.2.skip } := by
  rw [attempt, (Prod.ext h rfl : d.machine.step = (_, d.machine.step.2))]
  simp only [tolerates_iff.mpr ⟨policy, word, address, rfl⟩, if_true]

/-- Any other fault halts the driver. -/
theorem attempt_of_failsForGood (h : d.FailsForGood) :
    d.attempt = { d with machine := d.machine.step.2, halted := true } := by
  obtain ⟨fault, hstep, hfault⟩ := h
  have ht : tolerates d.options.onUnknown fault = false :=
    Bool.eq_false_iff.mpr (mt tolerates_iff.mp hfault)
  rw [attempt, (Prod.ext hstep rfl : d.machine.step = (_, d.machine.step.2))]
  simp only [ht, Bool.false_eq_true, if_false]

/-- Every attempt is one of the three. -/
theorem attempted_attempt (d : Driver) : Attempted d d.attempt := by
  rcases hs : d.machine.step with ⟨answer, m⟩
  cases answer with
  | ok i =>
    rw [attempt_of_ok hs]
    exact .made hs
  | error fault =>
    have hfault : d.machine.step.1 = .error fault := congrArg Prod.fst hs
    by_cases ht : d.options.onUnknown = .skip ∧
        ∃ word address, fault = .unknownOpcode word address
    · obtain ⟨policy, word, address, rfl⟩ := ht
      have hface := (Machine.step_eq_unknownOpcode_iff.mp hfault).1
      rw [attempt_of_unknown hfault policy, Machine.step_of_facesUnknown hface]
      exact .passed hfault policy
    · have hfails : d.FailsForGood := ⟨fault, hfault, ht⟩
      obtain ⟨-, hm⟩ := Machine.step_eq_error_iff.mp hs
      rw [attempt_of_failsForGood hfails, hs, hm]
      exact .stopped hfails

/-- No attempt touches the options. -/
theorem Attempted.options_eq (h : Attempted d e) : e.options = d.options := by
  cases h <;> rfl

/-- No attempt wakes a halted driver. -/
theorem Attempted.halted_eq (h : Attempted d e) (hd : d.halted = true) : e.halted = true := by
  cases h
  case stopped => rfl
  all_goals exact hd

/-- A driver that runs halts at a fault and nothing else. -/
theorem Attempted.failsForGood (h : Attempted d e) (hd : d.halted = false)
    (he : e.halted = true) : d.FailsForGood := by
  cases h
  case stopped fails => exact fails
  all_goals exact absurd (hd.symm.trans he) Bool.false_ne_true

/-! ## Iterated attempts -/

/-- However many attempts, the options stay. -/
@[simp] theorem options_iterate (n : Nat) (d : Driver) : (attempt^[n] d).options = d.options := by
  induction n with
  | zero => rfl
  | succ n ih => rw [Function.iterate_succ_apply', (attempted_attempt _).options_eq, ih]

/-- Nothing takes the mark of a halt back. -/
theorem halted_iterate (h : d.halted = true) (n : Nat) : (attempt^[n] d).halted = true := by
  induction n with
  | zero => exact h
  | succ n ih =>
    rw [Function.iterate_succ_apply']
    exact (attempted_attempt _).halted_eq ih

/-- What has halted by some attempt has halted by every later one. -/
theorem halted_iterate_of_le {j k : Nat} (hjk : j ≤ k) (h : (attempt^[j] d).halted = true) :
    (attempt^[k] d).halted = true := by
  obtain ⟨n, rfl⟩ := Nat.exists_eq_add_of_le' hjk
  rw [Function.iterate_add_apply]
  exact halted_iterate h n

/-- A driver that runs has run all the time. -/
theorem running_iterate_of_le {j k : Nat} (hjk : j ≤ k) (h : (attempt^[k] d).halted = false) :
    (attempt^[j] d).halted = false :=
  Bool.eq_false_iff.mpr fun hj =>
    Bool.false_ne_true (h.symm.trans (halted_iterate_of_le hjk hj))

/-- A halted driver makes no attempts. -/
theorem attempts_of_halted (h : d.halted = true) (n : Nat) : attempts n d = d := by
  cases n with
  | zero => rfl
  | succ n => rw [attempts, if_pos h]

/-- A running driver makes one attempt, and then the others. -/
theorem attempts_succ_of_running (h : d.halted = false) (n : Nat) :
    attempts (n + 1) d = attempts n d.attempt := by
  rw [attempts, if_neg (by simp [h])]

/-- Attempts can be made in two goes. -/
theorem attempts_add (m n : Nat) (d : Driver) :
    attempts (m + n) d = attempts n (attempts m d) := by
  induction m generalizing d with
  | zero => rw [Nat.zero_add, attempts]
  | succ m ih =>
    rw [Nat.succ_add]
    cases hd : d.halted with
    | true => simp only [attempts_of_halted hd]
    | false => rw [attempts_succ_of_running hd, attempts_succ_of_running hd, ih]

/-- The loop makes `k` attempts if the driver runs before each of them, and has halted after the
last unless the count is used up. -/
theorem attempts_eq_iterate {k : Nat} (hk : k ≤ n)
    (running : ∀ j < k, (attempt^[j] d).halted = false)
    (ends : k < n → (attempt^[k] d).halted = true) : attempts n d = attempt^[k] d := by
  induction n generalizing d k with
  | zero =>
    obtain rfl := Nat.le_zero.mp hk
    rfl
  | succ n ih =>
    cases k with
    | zero => exact attempts_of_halted (ends (Nat.succ_pos n)) _
    | succ k =>
      have hd : d.halted = false := running 0 (Nat.succ_pos k)
      rw [attempts_succ_of_running hd, Function.iterate_succ_apply]
      exact ih (Nat.le_of_succ_le_succ hk) (fun j hj => running (j + 1) (Nat.succ_lt_succ hj))
        fun hlt => ends (Nat.succ_lt_succ hlt)

/-- There always is such a number. -/
theorem exists_attempts (n : Nat) (d : Driver) :
    ∃ k ≤ n, (∀ j < k, (attempt^[j] d).halted = false) ∧
      (k < n → (attempt^[k] d).halted = true) := by
  induction n generalizing d with
  | zero => exact ⟨0, Nat.le_refl 0, by omega, by omega⟩
  | succ n ih =>
    cases hd : d.halted with
    | true => exact ⟨0, Nat.zero_le _, by omega, fun _ => hd⟩
    | false =>
      obtain ⟨k, hk, running, ends⟩ := ih d.attempt
      refine ⟨k + 1, Nat.succ_le_succ hk, ?_, fun hlt => ends (Nat.lt_of_succ_lt_succ hlt)⟩
      intro j hj
      cases j with
      | zero => exact hd
      | succ j => exact running j (Nat.lt_of_succ_lt_succ hj)

/-! ## The attempts that are made -/

/-- `e` is `d` right before one of the first `n` attempts that are made. -/
def Tries (n : Nat) (d e : Driver) : Prop :=
  ∃ j < n, e = attempt^[j] d ∧ e.halted = false

theorem tries_self (h : d.halted = false) : Tries (n + 1) d d :=
  ⟨0, Nat.succ_pos n, rfl, h⟩

/-- An attempt that follows the first one is one of those made. -/
theorem Tries.of_attempt (h : Tries n d.attempt e) : Tries (n + 1) d e := by
  obtain ⟨j, hj, rfl, hrun⟩ := h
  exact ⟨j + 1, Nat.succ_lt_succ hj, rfl, hrun⟩

/-! ## Histories -/

/-- The driver after a list of actions. -/
def after (d : Driver) (actions : List Action) : Driver :=
  (d.performAll actions).2

@[simp] theorem after_nil (d : Driver) : d.after [] = d := rfl

@[simp] theorem after_cons (d : Driver) (a : Action) (as : List Action) :
    d.after (a :: as) = (d.perform a).2.after as := rfl

/-- A history leads from where an earlier part of it has led. -/
theorem after_append (d : Driver) (first second : List Action) :
    d.after (first ++ second) = (d.after first).after second := by
  induction first generalizing d with
  | nil => rfl
  | cons a as ih => exact ih (d.perform a).2

/-- A frame or a key event, which are what happens while a program runs under a driver. -/
def Action.IsFrameOrKey : Action → Prop
  | .frame | .host (.press _) | .host (.release _) => True
  | _ => False

/-- A frame leaves the options alone. -/
@[simp] theorem options_frame (d : Driver) : d.frame.2.options = d.options := by
  obtain ⟨k, hk, running, ends⟩ := exists_attempts d.options.stepsPerTick d
  rw [frame, attempts_eq_iterate hk running ends]
  exact options_iterate k d

@[simp] theorem options_perform (d : Driver) (a : Action) :
    (d.perform a).2.options = d.options := by
  cases a with
  | frame => exact options_frame d
  | host action => rfl

@[simp] theorem options_after (d : Driver) (actions : List Action) :
    (d.after actions).options = d.options := by
  induction actions generalizing d with
  | nil => rfl
  | cons a as ih => rw [after_cons, ih, options_perform]

/-- `e` is the driver right before one of the attempts that `d` makes in a history. -/
def TriesIn (d : Driver) (actions : List Action) (e : Driver) : Prop :=
  ∃ before rest, actions = before ++ .frame :: rest ∧
    Tries d.options.stepsPerTick (d.after before) e

/-- An attempt in what follows an action is an attempt in the whole history. -/
theorem TriesIn.of_cons {a : Action} {as : List Action} (h : (d.perform a).2.TriesIn as e) :
    d.TriesIn (a :: as) e := by
  obtain ⟨before, rest, rfl, ht⟩ := h
  rw [options_perform] at ht
  exact ⟨a :: before, rest, rfl, ht⟩

/-- The attempts of a frame are attempts of a history that begins with it. -/
theorem triesIn_frame {as : List Action} (h : Tries d.options.stepsPerTick d e) :
    d.TriesIn (.frame :: as) e :=
  ⟨[], as, rfl, h⟩

end Chip8.Driver
