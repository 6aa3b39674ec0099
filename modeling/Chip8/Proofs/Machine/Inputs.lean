import Chip8.Proofs.Machine.Effect
import Chip8.Proofs.Machine.Outcome
import Chip8.Proofs.Machine.Periphery

/-!
# What a program can notice of its inputs

Keys and random bytes come into a machine from outside. Three instructions ask for keys, and one
takes random bytes, of which its mask may let nothing through. A program that executes none of them
goes on in the same way whatever the keypad and the random source hold.

## Shape of the proof

The two inputs are kept apart. `Periphery.AgreeOn keys chance` links machines with the same timers,
which have the same keypad if `keys` holds and the same random source if `chance` holds. An
instruction respects the link if it asks only for what is linked (`respects_agreeOn`), and so does
every action (`Linked.perform`) and every history (`Linked.performAll`). Nothing linked, this is the
independence of both inputs; with the keys linked, it is the independence of the seed.
-/

namespace Chip8

namespace Instruction

/-- Whether the instruction does one thing or another according to the keys. -/
def asksKeys : Instruction → Bool
  | skipKey _ | skipNotKey _ | waitKey _ => true
  | _ => false

/-- Whether the instruction lets some bit of a random byte through. -/
def asksRandom : Instruction → Bool
  | random _ nn => nn != 0
  | _ => false

end Instruction

/-- The peripheries have the same timers, and those of the two inputs that are asked for. -/
structure Periphery.AgreeOn (keys chance : Prop) (p p' : Periphery) : Prop where
  delay_eq : p'.delay = p.delay
  sound_eq : p'.sound = p.sound
  keypad_eq : keys → p'.keypad = p.keypad
  random_eq : chance → p'.random = p.random

namespace Machine

variable {m m' : Machine} {i : Instruction} {a : Action} {keys chance : Prop}

/-- A machine is linked to itself with another keypad and random source, as far as these are not
asked to agree. -/
theorem linked_agreeOn {keypad : Keypad} {random : RandomSource} (hk : keys → keypad = m.keypad)
    (hr : chance → random = m.random) :
    Linked (Periphery.AgreeOn keys chance) m { m with keypad := keypad, random := random } :=
  ⟨rfl, rfl, rfl, hk, hr⟩

/-- Linked machines differ at most in the two inputs. -/
theorem Linked.exists_inputs (h : Linked (Periphery.AgreeOn keys chance) m m') :
    ∃ keypad random, m' = { m with keypad := keypad, random := random } ∧
      (keys → keypad = m.keypad) ∧ (chance → random = m.random) := by
  obtain ⟨heq, hdelay, hsound, hkeypad, hrandom⟩ := h
  refine ⟨m'.keypad, m'.random, ?_, hkeypad, hrandom⟩
  rw [heq, withPeriphery, hdelay, hsound]
  rfl

/-! ## Instructions -/

/-- A mask that asks for a random byte lets the same through on both machines, and any other mask
lets nothing through. -/
theorem masked_congr {random random' : RandomSource} {nn : UInt8}
    (h : nn ≠ 0 → random' = random) : random'.next.1 &&& nn = random.next.1 &&& nn := by
  by_cases hn : nn = 0
  · rw [hn, UInt8.and_zero, UInt8.and_zero]
  · rw [h hn]

/-- An instruction respects the inputs that it asks for. -/
theorem respects_agreeOn (hk : i.asksKeys = true → keys) (hr : i.asksRandom = true → chance) :
    Respects (Periphery.AgreeOn keys chance) i := by
  by_cases hp : i.IsPeripheral
  · intro m m' h
    obtain ⟨keypad, random, rfl, hkeypad, hrandom⟩ := h.exists_inputs
    cases i
    case skipKey | skipNotKey =>
      obtain rfl : keypad = m.keypad := hkeypad (hk rfl)
      exact .done (linked_agreeOn hkeypad hrandom)
    case waitKey x =>
      obtain rfl : keypad = m.keypad := hkeypad (hk rfl)
      rw [execute, execute]
      cases m.keypad.firstPressed? <;> exact .done (linked_agreeOn hkeypad hrandom)
    case random x nn =>
      have hmasked : random.next.1 &&& nn = m.random.next.1 &&& nn :=
        masked_congr fun hn => hrandom (hr (bne_iff_ne.mpr hn))
      have hnext : chance → random.next.2 = m.random.next.2 := fun hc =>
        congrArg (fun source => source.next.2) (hrandom hc)
      simp only [execute, hmasked]
      exact .done (linked_agreeOn hkeypad hnext)
    case getDelay | setDelay | setSound => exact .done (linked_agreeOn hkeypad hrandom)
    all_goals exact absurd hp id
  · exact respects_of_not_isPeripheral hp

/-! ## Actions -/

/-- A key event is accepted or refused whatever keys are down, and does the same to equal
keypads. -/
theorem Linked.move (h : Linked (Periphery.AgreeOn keys chance) m m') (key : UInt8)
    (isPressed : Bool) :
    let moved (m : Machine) := m.settle
      ((m.keypad.move key isPressed).map fun keypad => { m with keypad := keypad })
    (moved m').1 = (moved m).1 ∧
      Linked (Periphery.AgreeOn keys chance) (moved m).2 (moved m').2 := by
  intro moved
  obtain ⟨keypad, random, rfl, hkeypad, hrandom⟩ := h.exists_inputs
  by_cases hkey : key.toNat < 16
  · have hmove : ∀ k : Keypad, k.move key isPressed = .ok ⟨k.down.set key.toNat isPressed⟩ :=
      fun k => dif_pos hkey
    simp only [moved, hmove]
    have hmoved : keys → (⟨keypad.down.set key.toNat isPressed⟩ : Keypad) =
        ⟨m.keypad.down.set key.toNat isPressed⟩ := fun hk => by rw [hkeypad hk]
    exact ⟨rfl, linked_agreeOn hmoved hrandom⟩
  · have hmove : ∀ k : Keypad, k.move key isPressed = .error (.invalidKey key) :=
      fun k => dif_neg hkey
    simp only [moved, hmove]
    exact ⟨rfl, linked_agreeOn hkeypad hrandom⟩

/-- Linked machines answer alike and stay linked, unless the action executes an instruction that
asks for more than is linked. -/
theorem Linked.perform (h : Linked (Periphery.AgreeOn keys chance) m m')
    (hi : ∀ i, m.executed? a = some i →
      (i.asksKeys = true → keys) ∧ (i.asksRandom = true → chance)) :
    (m'.perform a).1 = (m.perform a).1 ∧
      Linked (Periphery.AgreeOn keys chance) (m.perform a).2 (m'.perform a).2 := by
  cases a with
  | step =>
    -- no other instruction than a peripheral one reads what may differ
    have hrespects : ∀ i, m.step.1 = .ok i → i.IsPeripheral →
        Respects (Periphery.AgreeOn keys chance) i := by
      intro i hs _
      obtain ⟨hk, hr⟩ := hi i (executed?_step_of_ok (Prod.ext hs rfl))
      exact respects_agreeOn hk hr
    obtain ⟨hanswer, hlinked⟩ := h.step hrespects
    rcases hs : m.step with ⟨answer, m₁⟩
    rcases hs' : m'.step with ⟨answer', m₁'⟩
    rw [hs, hs'] at hanswer hlinked
    obtain rfl : answer' = answer := hanswer
    rw [Machine.perform, Machine.perform, hs, hs']
    cases answer' <;> exact ⟨rfl, hlinked⟩
  | execute i =>
    have hrespects : Respects (Periphery.AgreeOn keys chance) i := by
      by_cases hp : i.IsPeripheral
      · -- such an instruction never fails, so `hi` speaks of it
        obtain ⟨m₁, he⟩ := exists_execute_eq_ok hp m
        obtain ⟨hk, hr⟩ := hi i (executed?_execute_of_ok he)
        exact respects_agreeOn hk hr
      · exact respects_of_not_isPeripheral hp
    have hout := hrespects m m' h
    rw [Machine.perform, Machine.perform]
    generalize m.execute i = outcome at hout ⊢
    generalize m'.execute i = outcome' at hout ⊢
    cases hout with
    | refused fault => exact ⟨rfl, h⟩
    | done linked => exact ⟨rfl, linked⟩
  | press key => exact h.move key true
  | release key => exact h.move key false
  | load image =>
    obtain ⟨keypad, random, rfl, hkeypad, hrandom⟩ := h.exists_inputs
    by_cases hle : image.length ≤ 3584
    · simp only [Machine.perform, load_of_le hle]
      exact ⟨rfl, linked_agreeOn hkeypad hrandom⟩
    · simp only [Machine.perform, load_of_lt (Nat.not_le.mp hle)]
      exact ⟨rfl, linked_agreeOn hkeypad hrandom⟩
  | reset | skip | tick | clearScreen | takeFrame =>
    obtain ⟨keypad, random, rfl, hkeypad, hrandom⟩ := h.exists_inputs
    exact ⟨rfl, linked_agreeOn hkeypad hrandom⟩

/-- Only the host moves keys. -/
theorem keypad_perform (ha : ¬ a.MovesKey) : (m.perform a).2.keypad = m.keypad := by
  have heffect := effect_perform m a
  generalize (m.perform a).2 = m' at heffect ⊢
  cases heffect with
  | executed word _ execute_eq =>
    have hkeypad : m'.keypad = (m.record word).keypad := keypad_of_execute execute_eq
    exact hkeypad
  | keyed moves => exact absurd moves ha
  | _ => rfl

/-! ## Histories -/

/-- Linked machines answer alike along a history that asks for no more than is linked. -/
theorem Linked.performAll (h : Linked (Periphery.AgreeOn keys chance) m m')
    (actions : List Action)
    (hi : ∀ i ∈ m.executedIn actions,
      (i.asksKeys = true → keys) ∧ (i.asksRandom = true → chance)) :
    (m'.performAll actions).1 = (m.performAll actions).1 ∧
      Linked (Periphery.AgreeOn keys chance) (m.after actions) (m'.after actions) := by
  induction actions generalizing m m' with
  | nil => exact ⟨rfl, h⟩
  | cons a as ih =>
    rw [executedIn] at hi
    obtain ⟨hreply, hlinked⟩ := h.perform fun i ha =>
      hi i (List.mem_append_left _ (Option.mem_toList.mpr ha))
    obtain ⟨hreplies, hafter⟩ := ih hlinked fun i hmem => hi i (List.mem_append_right _ hmem)
    exact ⟨congrArg₂ List.cons hreply hreplies, hafter⟩

/-- The machines agree on everything but the keypad and the random source. -/
def AgreeInside (m m' : Machine) : Prop :=
  m' = { m with keypad := m'.keypad, random := m'.random }

/-- New machines agree inside, whatever they are connected to. -/
theorem agreeInside_fresh (random random' : RandomSource) (keypad keypad' : Keypad) :
    (fresh random keypad).AgreeInside (fresh random' keypad') := rfl

/-- Machines that agree on everything but their inputs answer alike and go on agreeing, as long as
no executed instruction asks for keys or lets a random byte through. If only random bytes are not
let through, a program runs the same for every seed. No action but a key event changes the
keypad. -/
theorem performAll_of_no_input :
    (∀ (m m' : Machine) (actions : List Action), m.AgreeInside m' →
      (∀ i ∈ m.executedIn actions, i.asksKeys = false ∧ i.asksRandom = false) →
      (m'.performAll actions).1 = (m.performAll actions).1 ∧
        (m.after actions).AgreeInside (m'.after actions)) ∧
    (∀ (seed seed' : UInt64) (actions : List Action),
      (∀ i ∈ (ofSeed seed).executedIn actions, i.asksRandom = false) →
      ((ofSeed seed').performAll actions).1 = ((ofSeed seed).performAll actions).1 ∧
        (ofSeed seed').after actions =
          { (ofSeed seed).after actions with random := ((ofSeed seed').after actions).random }) ∧
    (∀ (m : Machine) (a : Action), ¬ a.MovesKey → (m.perform a).2.keypad = m.keypad) := by
  refine ⟨?_, ?_, fun m a ha => keypad_perform ha⟩
  · intro m m' actions h hi
    have hlinked : Linked (Periphery.AgreeOn False False) m m' := by
      rw [h]
      exact linked_agreeOn False.elim False.elim
    obtain ⟨hreplies, hafter⟩ := hlinked.performAll actions fun i hmem => by
      obtain ⟨hk, hr⟩ := hi i hmem
      simp [hk, hr]
    obtain ⟨keypad, random, heq, -, -⟩ := hafter.exists_inputs
    refine ⟨hreplies, ?_⟩
    rw [heq, AgreeInside]
  · intro seed seed' actions hi
    have hlinked : Linked (Periphery.AgreeOn True False) (ofSeed seed) (ofSeed seed') :=
      linked_agreeOn (fun _ => rfl) False.elim
    obtain ⟨hreplies, hafter⟩ := hlinked.performAll actions fun i hmem => by
      simp [hi i hmem]
    obtain ⟨keypad, random, heq, hkeypad, -⟩ := hafter.exists_inputs
    refine ⟨hreplies, ?_⟩
    rw [heq, hkeypad trivial]

/-- A machine with another seed and all keys down answers alike while a program masks a random byte,
draws a glyph and comes to an unknown word. -/
theorem performAll_of_no_input_masked :
    let other := fresh (.ofSeed 2) ⟨Vector.replicate 16 true⟩
    let actions := [Action.load [0xC0, 0x00, 0xD1, 0x15, 0x01, 0x23], .step, .step, .takeFrame,
      .step, .skip, .tick, .reset]
    (ofSeed 1).AgreeInside other ∧
      (ofSeed 1).executedIn actions = [.random 0 0, .draw 1 1 5] ∧
      (other.performAll actions).1 = ((ofSeed 1).performAll actions).1 ∧
      ((ofSeed 1).after actions).AgreeInside (other.after actions) := by
  intro other actions
  have hagree : (ofSeed 1).AgreeInside other := agreeInside_fresh _ _ _ _
  have hexecuted : (ofSeed 1).executedIn actions = [.random 0 0, .draw 1 1 5] := by decide +kernel
  refine ⟨hagree, hexecuted, performAll_of_no_input.1 _ _ _ hagree ?_⟩
  rw [hexecuted]
  decide

end Machine

end Chip8
