import Chip8.Proofs.Driver.Pacing
import Chip8.Proofs.Driver.Trace

/-!
# Running off the end of memory

A driver that skips unknown words, and has nothing else in front of it, comes to the end of memory.
The program counter does not go around to low memory there: no word is left to be fetched, and the
driver halts.

## Shape of the proof

`Slid d k e` describes what `k` attempts make of such a driver `d`, with ticks in between them. What
goes down is the number of words ahead (`Machine.wordsAhead`): as long as there are any, an attempt
skips one (`Slid.attempt_eq_skip`), and then it finds none and halts (`Slid.attempt_eq_halt`). One
more attempt keeps the description (`Slid.attempt`), and so do the attempts of a frame and any
number of frames (`Slid.frames`). The steps and skips are counted along the way.
-/

namespace Chip8

namespace Machine

variable {m m' m'' : Machine}

/-- The number of words in memory from the program counter on, one after the other. -/
def wordsAhead (m : Machine) : Nat :=
  (0xFFE - m.pc.toNat) / 2 + 1

/-- The machine has done nothing but move on, put words on record and count its timers down. -/
def Idled (m m' : Machine) : Prop :=
  m' = { m with pc := m'.pc, opcode := m'.opcode, delay := m'.delay, sound := m'.sound }

/-- Two idle stretches make one. -/
theorem Idled.trans (h : m.Idled m') (h' : m'.Idled m'') : m.Idled m'' :=
  calc m'' = { m' with
          pc := m''.pc, opcode := m''.opcode, delay := m''.delay, sound := m''.sound } := h'
    _ = { m with
          pc := m''.pc, opcode := m''.opcode, delay := m''.delay, sound := m''.sound } := by rw [h]

theorem idled_skip_record (m : Machine) (word : UInt16) : m.Idled (m.record word).skip := rfl

theorem idled_tick (m : Machine) : m.Idled m.tick.2 := rfl

end Machine

namespace Driver

variable {d e : Driver} {k : Nat}

/-- A running driver skips unknown words, and each word from its program counter to the end of
memory is one. -/
structure OnlyUnknownAhead (d : Driver) : Prop where
  running : d.halted = false
  policy : d.options.onUnknown = .skip
  pc_le : d.machine.pc.toNat ≤ 0xFFE
  unknown : ∀ k, d.machine.pc.toNat + 2 * k ≤ 0xFFE → ∃ word,
    d.machine.memory.word (d.machine.pc.toNat + 2 * k) = .ok word ∧
      Instruction.decode? word = none

/-- What `k` attempts, and ticks between them, have made of a driver with only unknown words
ahead. -/
structure Slid (d : Driver) (k : Nat) (e : Driver) : Prop where
  options_eq : e.options = d.options
  halted_eq : e.halted = decide (d.machine.wordsAhead < k)
  pc_eq : e.machine.pc.toNat = d.machine.pc.toNat + 2 * min k d.machine.wordsAhead
  idled : d.machine.Idled e.machine

/-- At the start no word has been used up. -/
theorem OnlyUnknownAhead.slid (h : d.OnlyUnknownAhead) : d.Slid 0 d := by
  refine ⟨rfl, ?_, ?_, rfl⟩
  · rw [h.running]
    rfl
  · rw [Nat.zero_min]
    rfl

/-! ## One attempt -/

/-- As long as there are words ahead, the next one is unknown. -/
theorem Slid.exists_facesUnknown (hs : d.Slid k e) (h : d.OnlyUnknownAhead)
    (hk : k < d.machine.wordsAhead) : ∃ word, e.machine.FacesUnknown word := by
  have hpc := h.pc_le
  obtain ⟨word, hword, hnone⟩ := h.unknown k (by rw [Machine.wordsAhead] at hk; omega)
  have hmemory : e.machine.memory = d.machine.memory := by rw [hs.idled]
  refine ⟨word, ?_, hnone⟩
  rw [Machine.fetch, hmemory, hs.pc_eq, Nat.min_eq_left (Nat.le_of_lt hk)]
  exact hword

/-- Where there are none left, the second byte of the next one would lie outside of memory. -/
theorem Slid.fetch_eq_error (hs : d.Slid k e) (h : d.OnlyUnknownAhead)
    (hk : d.machine.wordsAhead ≤ k) :
    e.machine.fetch =
      .error (.outOfMemory (d.machine.pc.toNat + 2 * d.machine.wordsAhead + 1)) := by
  have hpc := h.pc_le
  have hend := hs.pc_eq
  rw [Nat.min_eq_right hk] at hend
  rw [← hend]
  refine Machine.fetch_of_le ?_
  rw [hend, Machine.wordsAhead]
  omega

/-- As long as there are words ahead, an attempt steps over one. -/
theorem Slid.attempt_eq_skip (hs : d.Slid k e) (h : d.OnlyUnknownAhead)
    (hk : k < d.machine.wordsAhead) :
    e.attempt = { e with machine := e.machine.step.2.skip } := by
  obtain ⟨word, hface⟩ := hs.exists_facesUnknown h hk
  refine attempt_of_unknown (congrArg Prod.fst (Machine.step_of_facesUnknown hface)) ?_
  rw [hs.options_eq, h.policy]

/-- Where there are none left, an attempt halts the driver and changes nothing else. -/
theorem Slid.attempt_eq_halt (hs : d.Slid k e) (h : d.OnlyUnknownAhead)
    (hk : d.machine.wordsAhead ≤ k) : e.attempt = { e with halted := true } := by
  have hstep := Machine.step_of_fetch_error (hs.fetch_eq_error h hk)
  have hfails : e.FailsForGood := by
    refine ⟨_, congrArg Prod.fst hstep, ?_⟩
    rintro ⟨-, word, address, hfault⟩
    cases hfault
  rw [attempt_of_failsForGood hfails, hstep]

/-- One more attempt: it uses up a word, or halts for want of one. -/
theorem Slid.attempt (hs : d.Slid k e) (h : d.OnlyUnknownAhead) : d.Slid (k + 1) e.attempt := by
  have hpc := h.pc_le
  have hend := hs.pc_eq
  by_cases hk : k < d.machine.wordsAhead
  · obtain ⟨word, hface⟩ := hs.exists_facesUnknown h hk
    rw [hs.attempt_eq_skip h hk, Machine.step_of_facesUnknown hface]
    refine ⟨hs.options_eq, ?_, ?_, hs.idled.trans (Machine.idled_skip_record _ word)⟩
    · rw [hs.halted_eq]
      exact decide_eq_decide.mpr (by omega)
    · -- the word lies in memory, so the program counter is far from the end of its type
      have hmoved : (e.machine.pc + 2).toNat = e.machine.pc.toNat + 2 := by
        rw [UInt16.toNat_add]
        refine Nat.mod_eq_of_lt ?_
        rw [Machine.wordsAhead] at hk hend
        have htwo : (2 : UInt16).toNat = 2 := rfl
        omega
      refine hmoved.trans ?_
      omega
  · have hle : d.machine.wordsAhead ≤ k := Nat.le_of_not_lt hk
    rw [hs.attempt_eq_halt h hle]
    refine ⟨hs.options_eq, ?_, ?_, hs.idled⟩
    · exact (decide_eq_true (Nat.lt_succ_of_le hle)).symm
    · simp only
      omega

/-- Any number of attempts, one after the other. -/
theorem Slid.iterate (hs : d.Slid k e) (h : d.OnlyUnknownAhead) (j : Nat) :
    d.Slid (k + j) (Driver.attempt^[j] e) := by
  induction j with
  | zero => exact hs
  | succ j ih =>
    rw [Function.iterate_succ_apply']
    exact ih.attempt h

/-! ## Frames -/

/-- A halted driver makes no more attempts, and more of them would change nothing. -/
theorem Slid.attempts (hs : d.Slid k e) (h : d.OnlyUnknownAhead) (s : Nat) :
    d.Slid (k + s) (attempts s e) := by
  obtain ⟨j, hj, running, ends⟩ := exists_attempts s e
  have hslid := hs.iterate h j
  rw [attempts_eq_iterate hj running ends]
  obtain hlt | rfl := Nat.lt_or_eq_of_le hj
  · -- the attempts that are left out would come after the halt
    have hover : d.machine.wordsAhead < k + j :=
      of_decide_eq_true (hslid.halted_eq.symm.trans (ends hlt))
    refine ⟨hslid.options_eq, ?_, ?_, hslid.idled⟩
    · rw [hslid.halted_eq]
      exact decide_eq_decide.mpr (by omega)
    · rw [hslid.pc_eq]
      omega
  · exact hslid

theorem Slid.tick (hs : d.Slid k e) : d.Slid k e.tick.2 :=
  ⟨hs.options_eq, hs.halted_eq, hs.pc_eq, hs.idled.trans (Machine.idled_tick _)⟩

/-- As long as there are words ahead, an attempt is a step and a skip. -/
theorem Slid.attemptTrace_of_lt (hs : d.Slid k e) (h : d.OnlyUnknownAhead)
    (hk : k < d.machine.wordsAhead) : e.attemptTrace = [.step, .skip] := by
  obtain ⟨word, hface⟩ := hs.exists_facesUnknown h hk
  rw [attemptTrace, Machine.step_of_facesUnknown hface]
  exact if_pos (tolerates_iff.mpr ⟨by rw [hs.options_eq, h.policy], _, _, rfl⟩)

/-- Where there are none left, it is a step in vain. -/
theorem Slid.attemptTrace_of_le (hs : d.Slid k e) (h : d.OnlyUnknownAhead)
    (hk : d.machine.wordsAhead ≤ k) : e.attemptTrace = [.step] := by
  rw [attemptTrace, Machine.step_of_fetch_error (hs.fetch_eq_error h hk)]
  exact if_neg Bool.false_ne_true

/-- The attempts after the first `k` make the skips that are left, and one step more than that. -/
theorem Slid.count_attemptsTrace (hs : d.Slid k e) (h : d.OnlyUnknownAhead) (s : Nat) :
    (attemptsTrace s e).count .skip + min k d.machine.wordsAhead =
        min (k + s) d.machine.wordsAhead ∧
      (attemptsTrace s e).count .step + min k (d.machine.wordsAhead + 1) =
        min (k + s) (d.machine.wordsAhead + 1) := by
  induction s generalizing k e with
  | zero => exact ⟨Nat.zero_add _, Nat.zero_add _⟩
  | succ s ih =>
    have hhalted := hs.halted_eq
    rw [attemptsTrace]
    split
    next hd =>
      have hover : d.machine.wordsAhead < k := of_decide_eq_true (hhalted.symm.trans hd)
      rw [List.count_nil, List.count_nil]
      omega
    next hd =>
      have hmore : ¬ d.machine.wordsAhead < k := fun hover =>
        hd (hhalted.trans (decide_eq_true hover))
      obtain ⟨hskips, hsteps⟩ := ih (hs.attempt h)
      rw [List.count_append, List.count_append]
      by_cases hk : k < d.machine.wordsAhead
      · rw [hs.attemptTrace_of_lt h hk]
        have hskip : [Machine.Action.step, .skip].count .skip = 1 := rfl
        have hstep : [Machine.Action.step, .skip].count .step = 1 := rfl
        omega
      · -- the step that finds no word is not followed by a skip
        rw [hs.attemptTrace_of_le h (Nat.le_of_not_lt hk)]
        have hskip : [Machine.Action.step].count .skip = 0 := rfl
        have hstep : [Machine.Action.step].count .step = 1 := rfl
        omega

/-- Any number of frames. -/
theorem Slid.frames (hs : d.Slid k e) (h : d.OnlyUnknownAhead) (f : Nat) :
    d.Slid (k + d.options.stepsPerTick * f) (e.after (framesOnly f)) ∧
      (e.trace (framesOnly f)).count .skip + min k d.machine.wordsAhead =
        min (k + d.options.stepsPerTick * f) d.machine.wordsAhead ∧
      (e.trace (framesOnly f)).count .step + min k (d.machine.wordsAhead + 1) =
        min (k + d.options.stepsPerTick * f) (d.machine.wordsAhead + 1) := by
  induction f generalizing k e with
  | zero => exact ⟨hs, Nat.zero_add _, Nat.zero_add _⟩
  | succ f ih =>
    have hfirst : d.Slid (k + d.options.stepsPerTick) e.frame.2 := by
      rw [frame, hs.options_eq]
      exact (hs.attempts h _).tick
    obtain ⟨hslid, hskips, hsteps⟩ := ih hfirst
    obtain ⟨hskips', hsteps'⟩ := hs.count_attemptsTrace h d.options.stepsPerTick
    have hsum : k + d.options.stepsPerTick * (f + 1) =
        k + d.options.stepsPerTick + d.options.stepsPerTick * f := by
      rw [Nat.mul_succ]
      omega
    have htrace : e.trace (framesOnly (f + 1)) =
        attemptsTrace d.options.stepsPerTick e ++ [.tick] ++ e.frame.2.trace (framesOnly f) := by
      rw [← hs.options_eq]
      rfl
    have hskip : [Machine.Action.tick].count .skip = 0 := rfl
    have hstep : [Machine.Action.tick].count .step = 0 := rfl
    rw [hsum, htrace]
    simp only [List.count_append]
    refine ⟨hslid, ?_, ?_⟩ <;> omega

/-- A driver with only unknown words ahead skips all of them, however many attempts there are in a
frame, and the attempt after that halts it: the program counter is at or right before the end of
memory then and stays there, and the fetch names the byte that is missing. Nothing but the program
counter, the word on record and the timers ever changes. -/
theorem frames_run_off (h : d.OnlyUnknownAhead) (hsteps : 0 < d.options.stepsPerTick) :
    let p := d.machine.pc.toNat
    let steps := d.options.stepsPerTick
    let words := (0xFFE - p) / 2 + 1
    let last := if p % 2 = 0 then 0x1000 else 0xFFF
    (∀ i, ∀ j < steps,
      let e := attempt^[j] (d.after (framesOnly i))
      let made := steps * i + j
      d.machine.Idled e.machine ∧ e.machine.pc.toNat = min (p + 2 * made) last ∧
      (made < words → e.halted = false ∧ (∃ word, e.machine.FacesUnknown word) ∧
        e.attempt = { e with machine := e.machine.step.2.skip }) ∧
      (made = words → e.halted = false ∧
        e.machine.fetch = .error (.outOfMemory (last + 1)) ∧
        e.attempt = { e with halted := true }) ∧
      (words < made → e.halted = true)) ∧
    ∀ f,
      let e := d.after (framesOnly f)
      let made := steps * f
      d.machine.Idled e.machine ∧ e.machine.pc.toNat = min (p + 2 * made) last ∧
      (d.trace (framesOnly f)).count .skip = min made words ∧
      (d.trace (framesOnly f)).count .step = min made (words + 1) ∧
      (e.halted = true ↔ words < made) ∧ (words < f → e.halted = true) := by
  intro p steps words last
  have hpc : p ≤ 0xFFE := h.pc_le
  have hlast : last = p + 2 * words := by
    simp only [last, words]
    split <;> omega
  refine ⟨fun i j _ => ?_, fun f => ?_⟩
  · intro e made
    -- `Slid` counts the attempts, wherever in a frame they are made
    have hslid : d.Slid made e := by
      have hframes := (h.slid.frames h i).1
      rw [Nat.zero_add] at hframes
      exact hframes.iterate h j
    have hend : e.machine.pc.toNat = p + 2 * min made words := hslid.pc_eq
    have hhalted : e.halted = decide (words < made) := hslid.halted_eq
    refine ⟨hslid.idled, by omega, fun hmade => ?_, fun hmade => ?_, fun hmade => ?_⟩
    · have hrunning : e.halted = false := hhalted.trans (decide_eq_false (by omega))
      exact ⟨hrunning, hslid.exists_facesUnknown h hmade, hslid.attempt_eq_skip h hmade⟩
    · have hrunning : e.halted = false := hhalted.trans (decide_eq_false (by omega))
      have hle : words ≤ made := Nat.le_of_eq hmade.symm
      rw [hlast]
      exact ⟨hrunning, hslid.fetch_eq_error h hle, hslid.attempt_eq_halt h hle⟩
    · exact hhalted.trans (decide_eq_true hmade)
  · intro e made
    obtain ⟨hslid, hskips, hstepped⟩ := h.slid.frames h f
    rw [Nat.zero_add] at hslid hskips hstepped
    rw [Nat.zero_min, Nat.add_zero] at hskips hstepped
    have hend : e.machine.pc.toNat = p + 2 * min made words := hslid.pc_eq
    have hhalted : e.halted = true ↔ words < made := by
      rw [hslid.halted_eq]
      exact decide_eq_true_iff
    refine ⟨hslid.idled, by omega, hskips, hstepped, hhalted, fun hf => hhalted.mpr ?_⟩
    exact Nat.lt_of_lt_of_le hf (Nat.le_mul_of_pos_left f hsteps)

/-- A driver that is to make two attempts a frame, in front of two unknown words at odd addresses
and half a word. -/
def atOddEnd : Driver :=
  start { Machine.ofSeed 0 with
      pc := 0xFFB
      memory := Memory.zero.write 0xFFB [0x01, 0x23, 0x04, 0x56, 0x07] }
    { RunOptions.standard with stepsPerTick := 2 }

/-- The first frame skips both words, and the second halts at the last byte of memory, which is only
the first half of a word. -/
theorem frames_run_off_atOddEnd :
    atOddEnd.OnlyUnknownAhead ∧ 0 < atOddEnd.options.stepsPerTick ∧
      (atOddEnd.after (framesOnly 1)).halted = false ∧
      (atOddEnd.after (framesOnly 1)).machine.pc.toNat = 0xFFF ∧
      (atOddEnd.after (framesOnly 1)).machine.fetch = .error (.outOfMemory 0x1000) ∧
      (atOddEnd.after (framesOnly 2)).halted = true ∧
      (atOddEnd.after (framesOnly 2)).machine.pc.toNat = 0xFFF ∧
      (atOddEnd.trace (framesOnly 2)).count .skip = 2 ∧
      (atOddEnd.trace (framesOnly 2)).count .step = 3 := by
  have honly : atOddEnd.OnlyUnknownAhead := by
    refine ⟨rfl, rfl, by decide, fun k hk => ?_⟩
    have hpc : atOddEnd.machine.pc.toNat = 0xFFB := rfl
    obtain rfl | rfl : k = 0 ∨ k = 1 := by omega
    · exact ⟨0x0123, by decide +kernel, by decide⟩
    · exact ⟨0x0456, by decide +kernel, by decide⟩
  have hsteps : 0 < atOddEnd.options.stepsPerTick := by decide
  obtain ⟨hattempts, hframes⟩ := frames_run_off honly hsteps
  obtain ⟨-, hpc, -, hmade, -⟩ := hattempts 1 0 hsteps
  obtain ⟨hrunning, hfetch, -⟩ := hmade rfl
  obtain ⟨-, hend, hskips, hstepped, hhalted, -⟩ := hframes 2
  exact ⟨honly, hsteps, hrunning, hpc, hfetch, hhalted.mpr (by decide), hend, hskips, hstepped⟩

end Driver

end Chip8
