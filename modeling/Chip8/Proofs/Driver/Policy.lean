import Chip8.Proofs.Driver.Attempts
import Mathlib.Data.Nat.Find

/-!
# Skipping and halting

Two drivers that differ only in what they do at an unknown word do the same until they meet one.

## Shape of the proof

An attempt reads the policy only when its step fails at an unknown word, so it commutes with a
change of policy everywhere else (`attempt_withPolicy`), and with it the attempts of a frame, the
frame and the history. In the frame that meets the first unknown word both drivers make the same
attempts up to it; there the one steps over it (`FirstUnknown.skips`), and the other stops with the
machine that the first is about to move on (`FirstUnknown.halts`).
-/

namespace Chip8.Driver

variable {d e : Driver} {n : Nat}

/-- The driver with another policy. -/
def withPolicy (d : Driver) (policy : UnknownPolicy) : Driver :=
  { d with options := { d.options with onUnknown := policy } }

/-- The machine of a driver has a word in front of it that is an instruction, or none at all. -/
def FacesKnown (d : Driver) : Prop :=
  ∀ word, ¬ d.machine.FacesUnknown word

/-- A word that can be decoded is known. -/
theorem facesKnown_of_fetch {word : UInt16} (hfetch : d.machine.fetch = .ok word)
    (hdecode : Instruction.decode? word ≠ none) : d.FacesKnown := by
  rintro other ⟨hother, hnone⟩
  cases hfetch.symm.trans hother
  exact hdecode hnone

/-- Away from unknown words the policy makes no difference to an attempt. -/
theorem attempt_withPolicy (h : d.FacesKnown) (policy : UnknownPolicy) :
    (d.withPolicy policy).attempt = d.attempt.withPolicy policy := by
  rcases hs : d.machine.step with ⟨answer, m⟩
  cases answer with
  | ok i =>
    have hs' : (d.withPolicy policy).machine.step = (.ok i, m) := hs
    rw [attempt_of_ok hs, attempt_of_ok hs']
    rfl
  | error fault =>
    have hfault : d.machine.step.1 = .error fault := congrArg Prod.fst hs
    have hknown : ¬ ∃ word address, fault = .unknownOpcode word address := by
      rintro ⟨word, address, rfl⟩
      exact h word (Machine.step_eq_unknownOpcode_iff.mp hfault).1
    have hfails : d.FailsForGood := ⟨fault, hfault, fun hf => hknown hf.2⟩
    have hfails' : (d.withPolicy policy).FailsForGood := ⟨fault, hfault, fun hf => hknown hf.2⟩
    rw [attempt_of_failsForGood hfails, attempt_of_failsForGood hfails']
    rfl

/-- The attempts up to the first unknown word are the same under every policy. -/
theorem iterate_withPolicy (h : ∀ j < n, (attempt^[j] d).FacesKnown) (policy : UnknownPolicy) :
    attempt^[n] (d.withPolicy policy) = (attempt^[n] d).withPolicy policy := by
  induction n with
  | zero => rfl
  | succ n ih =>
    rw [Function.iterate_succ_apply', ih fun j hj => h j (Nat.lt_succ_of_lt hj),
      attempt_withPolicy (h n (Nat.lt_succ_self n)), ← Function.iterate_succ_apply' attempt]

/-- So is the loop of a frame, with its early exit. -/
theorem attempts_withPolicy (h : ∀ e, Tries n d e → e.FacesKnown) (policy : UnknownPolicy) :
    attempts n (d.withPolicy policy) = (attempts n d).withPolicy policy := by
  induction n generalizing d with
  | zero => rfl
  | succ n ih =>
    cases hd : d.halted with
    | true =>
      have hd' : (d.withPolicy policy).halted = true := hd
      rw [attempts_of_halted hd, attempts_of_halted hd']
    | false =>
      have hd' : (d.withPolicy policy).halted = false := hd
      rw [attempts_succ_of_running hd, attempts_succ_of_running hd',
        attempt_withPolicy (h d (tries_self hd))]
      exact ih fun e he => h e he.of_attempt

/-- A frame without unknown words is the same under every policy, tone and all. -/
theorem frame_withPolicy (h : ∀ e, Tries d.options.stepsPerTick d e → e.FacesKnown)
    (policy : UnknownPolicy) :
    (d.withPolicy policy).frame = (d.frame.1, d.frame.2.withPolicy policy) := by
  have hattempts := attempts_withPolicy h policy
  rw [frame, frame]
  exact congrArg tick hattempts

/-- An action asks for the policy in a frame that meets an unknown word, and nowhere else. -/
theorem perform_withPolicy {a : Action}
    (h : a = .frame → ∀ e, Tries d.options.stepsPerTick d e → e.FacesKnown)
    (policy : UnknownPolicy) :
    (d.withPolicy policy).perform a = ((d.perform a).1, (d.perform a).2.withPolicy policy) := by
  cases a with
  | frame =>
    rw [perform, frame_withPolicy (h rfl)]
    rfl
  | host action => rfl

/-- A history without unknown words is the same under any policy. -/
theorem performAll_withPolicy {actions : List Action}
    (h : ∀ e, d.TriesIn actions e → e.FacesKnown) (policy : UnknownPolicy) :
    (d.withPolicy policy).performAll actions =
      ((d.performAll actions).1, (d.after actions).withPolicy policy) := by
  induction actions generalizing d with
  | nil => rfl
  | cons a as ih =>
    have hfirst : (d.withPolicy policy).perform a =
        ((d.perform a).1, (d.perform a).2.withPolicy policy) := by
      refine perform_withPolicy ?_ policy
      rintro rfl e he
      exact h e (triesIn_frame he)
    have hrest : ∀ e, (d.perform a).2.TriesIn as e → e.FacesKnown := fun e he =>
      h e he.of_cons
    rw [performAll, hfirst]
    simp only [ih hrest]
    rfl

/-! ## The first unknown word -/

/-- The first unknown word of the next frame is met by the attempt after `n` others. -/
structure FirstUnknown (d : Driver) (n : Nat) (word : UInt16) : Prop where
  lt : n < d.options.stepsPerTick
  running : (attempt^[n] d).halted = false
  faces : (attempt^[n] d).machine.FacesUnknown word
  known : ∀ j < n, (attempt^[j] d).FacesKnown

/-- If some attempt meets an unknown word, there is a first. -/
theorem exists_firstUnknown {word : UInt16} (he : Tries d.options.stepsPerTick d e)
    (hword : e.machine.FacesUnknown word) : ∃ n word, d.FirstUnknown n word := by
  have hmeets : ∃ n, n < d.options.stepsPerTick ∧ (attempt^[n] d).halted = false ∧
      ∃ word, (attempt^[n] d).machine.FacesUnknown word := by
    obtain ⟨n, hn, rfl, hrun⟩ := he
    exact ⟨n, hn, hrun, word, hword⟩
  classical
  obtain ⟨hlt, hrun, first, hfirst⟩ := Nat.find_spec hmeets
  refine ⟨Nat.find hmeets, first, hlt, hrun, hfirst, fun j hj earlier hearlier => ?_⟩
  have hrun' := running_iterate_of_le (Nat.le_of_lt hj) hrun
  exact Nat.find_min hmeets hj ⟨by omega, hrun', earlier, hearlier⟩

/-- The driver that skips the first unknown word goes on with the machine of the failed step, which
has the word on record and is otherwise as before. -/
theorem FirstUnknown.skips {word : UInt16} (h : d.FirstUnknown n word)
    (policy : d.options.onUnknown = .skip) :
    (attempt^[n] d).machine.step.2 = { (attempt^[n] d).machine with opcode := word } ∧
      (attempt^[n + 1] d).machine = (attempt^[n] d).machine.step.2.skip := by
  have hstep := Machine.step_of_facesUnknown h.faces
  refine ⟨by rw [hstep]; rfl, ?_⟩
  rw [Function.iterate_succ_apply', attempt_of_unknown (congrArg Prod.fst hstep)]
  rw [options_iterate, policy]

/-- The driver that halts at the first unknown word stops with the same machine, and ticks it. -/
theorem FirstUnknown.halts {word : UInt16} (h : d.FirstUnknown n word) :
    (d.withPolicy .halt).frame = tick { d.withPolicy .halt with
      machine := (attempt^[n] d).machine.step.2, halted := true } := by
  have hfails : ((attempt^[n] d).withPolicy .halt).FailsForGood := by
    refine ⟨_, congrArg Prod.fst (Machine.step_of_facesUnknown h.faces), ?_⟩
    rintro ⟨hpolicy, -⟩
    cases hpolicy
  have hlast : attempt^[n + 1] (d.withPolicy .halt) = { d.withPolicy .halt with
      machine := (attempt^[n] d).machine.step.2, halted := true } := by
    rw [Function.iterate_succ_apply', iterate_withPolicy h.known, attempt_of_failsForGood hfails]
    simp only [withPolicy, options_iterate]
  have hrunning : ∀ j < n + 1, (attempt^[j] (d.withPolicy .halt)).halted = false := by
    intro j hj
    rw [iterate_withPolicy fun r hr => h.known r (by omega)]
    exact running_iterate_of_le (Nat.le_of_lt_succ hj) h.running
  have hloop := attempts_eq_iterate (n := d.options.stepsPerTick) h.lt hrunning fun _ => by
    rw [hlast]
  rw [frame, ← hlast, ← hloop]
  rfl

/-- As long as no attempt meets an unknown word, a skipping and a halting driver give the same
replies and are the same but for their policy. In the first frame that meets one, the skipping
driver steps over it with a machine that has it on record, and the halting driver stops with just
this machine and ticks it. -/
theorem withPolicy_agree_until_unknown (d : Driver) (actions : List Action)
    (h : ∀ e, (d.withPolicy .skip).TriesIn actions e → e.FacesKnown) :
    let skipping := (d.withPolicy .skip).after actions
    let halting := (d.withPolicy .halt).after actions
    ((d.withPolicy .halt).performAll actions).1 = ((d.withPolicy .skip).performAll actions).1 ∧
    halting = skipping.withPolicy .halt ∧
    ((∃ e word, Tries d.options.stepsPerTick skipping e ∧ e.machine.FacesUnknown word) →
      ∃ n word machine, skipping.FirstUnknown n word ∧
        machine = { (attempt^[n] skipping).machine with opcode := word } ∧
        (attempt^[n + 1] skipping).machine = machine.skip ∧
        halting.frame =
          (machine.tick.1, { halting with machine := machine.tick.2, halted := true })) := by
  intro skipping halting
  have hagree : (d.withPolicy .halt).performAll actions =
      (((d.withPolicy .skip).performAll actions).1, skipping.withPolicy .halt) :=
    performAll_withPolicy h .halt
  have heq : halting = skipping.withPolicy .halt := congrArg (fun r => r.2) hagree
  refine ⟨by rw [hagree], heq, ?_⟩
  rintro ⟨e, word, he, hword⟩
  have hoptions : skipping.options = (d.withPolicy .skip).options := options_after _ _
  have he' : Tries skipping.options.stepsPerTick skipping e := by
    rw [hoptions]
    exact he
  -- the frame may meet several unknown words; the two drivers part at the first
  obtain ⟨n, first, hfirst⟩ := exists_firstUnknown he' hword
  obtain ⟨hmachine, hskip⟩ := hfirst.skips (by rw [hoptions]; rfl)
  refine ⟨n, first, _, hfirst, hmachine, hskip, ?_⟩
  rw [heq, hfirst.halts]
  rfl

/-- A driver that is to make two attempts a frame, in front of three loads and an unknown word. -/
def slip : Driver :=
  start { Machine.ofSeed 0 with
      memory := Memory.zero.write 0x200 [0x60, 0x05, 0x61, 0x06, 0x62, 0x07, 0x01, 0x23] }
    { RunOptions.standard with stepsPerTick := 2 }

/-- The first frame and a key event are the same under both policies. The second frame meets the
unknown word, and the halting driver ends with what the skipping driver had before its skip. -/
theorem withPolicy_agree_until_unknown_slip :
    (∀ e, (slip.withPolicy .skip).TriesIn [.frame, .host (.press 3)] e → e.FacesKnown) ∧
      (slip.withPolicy .halt).after [.frame, .host (.press 3)] =
        ((slip.withPolicy .skip).after [.frame, .host (.press 3)]).withPolicy .halt ∧
      ∃ (n : Nat) (word : UInt16) (machine : Machine),
        ((slip.withPolicy .skip).after [.frame, .host (.press 3)]).FirstUnknown n word ∧
        machine.opcode = word ∧
        ((slip.withPolicy .halt).after [.frame, .host (.press 3)]).frame.2.machine =
          machine.tick.2 := by
  have h : ∀ e, (slip.withPolicy .skip).TriesIn [.frame, .host (.press 3)] e → e.FacesKnown := by
    rintro e ⟨_ | ⟨b, before⟩, rest, hsplit, j, hj, rfl, -⟩
    · have hj' : j < 2 := hj
      obtain rfl | rfl : j = 0 ∨ j = 1 := by omega
      · have hfetch : (slip.withPolicy .skip).machine.fetch = .ok 0x6005 := by decide +kernel
        exact facesKnown_of_fetch hfetch (by decide)
      · have hfetch : (attempt^[1] ((slip.withPolicy .skip).after [])).machine.fetch =
            .ok 0x6106 := by decide +kernel
        exact facesKnown_of_fetch hfetch (by decide)
    · -- there is only one frame, and it comes first
      have hmem : Action.frame ∈ [Action.host (.press 3)] := by
        rw [(List.cons.inj hsplit).2]
        simp
      simp at hmem
  obtain ⟨-, hagree, hmeets⟩ := withPolicy_agree_until_unknown slip _ h
  have htries : Tries 2 ((slip.withPolicy .skip).after [.frame, .host (.press 3)])
      (attempt^[1] ((slip.withPolicy .skip).after [.frame, .host (.press 3)])) :=
    ⟨1, by decide, rfl, by decide +kernel⟩
  obtain ⟨n, word, machine, hfirst, hmachine, -, hframe⟩ :=
    hmeets ⟨_, 0x0123, htries, by decide +kernel, by decide⟩
  exact ⟨h, hagree, n, word, machine, hfirst, by rw [hmachine], by rw [hframe]⟩

end Chip8.Driver
