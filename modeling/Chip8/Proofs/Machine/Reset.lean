import Chip8.Proofs.Machine.Inputs
import Chip8.Proofs.Machine.Procedure
import Mathlib.Logic.Function.Basic
import Mathlib.Logic.Function.Iterate

/-!
# As good as new

A reset leaves nothing of a history but two things that are not the machine's own: the keypad, which
is as the key events have left it, and the random source, which has given as many bytes as were
asked of it.

## Shape of the proof

The reset machine is a new one around these two (`reset_eq_fresh`), and so goes on like one for
good. What they are is followed along the history: only an instruction that takes a random byte
moves the source (`random_after`), and only a key event moves a key (`keypad_after`).

Clients reach a keypad through a handle, and so does the machine: in a `Wired` machine the handle is
a field like the others, which a reset leaves as it is (`Wired.handle_reset`) and a new machine
sets. A `Desk` has several keypads and such a machine. Seen from the machine, a history at a desk is
a history of its own, in which the events through other handles do not occur (`Desk.machine_after`),
until another machine takes its place; a reset is as good as that (`Desk.perform_reset`).
-/

namespace Chip8

/-- The source after a number of bytes. -/
def RandomSource.drop (s : RandomSource) (count : Nat) : RandomSource :=
  (fun s => s.next.2)^[count] s

/-- Bytes can be given in two goes. -/
theorem RandomSource.drop_add (s : RandomSource) (m n : Nat) :
    s.drop (m + n) = (s.drop m).drop n := by
  rw [drop, Nat.add_comm, Function.iterate_add_apply]
  rfl

/-- Whether the instruction takes a byte from the random source. -/
def Instruction.takesRandom : Instruction → Bool
  | random _ _ => true
  | _ => false

namespace Machine

variable {m m' : Machine} {i : Instruction} {a : Action}

/-! ## What a reset leaves -/

/-- A reset machine is a new one around the old random source and keypad. -/
theorem reset_eq_fresh (m : Machine) : m.reset = fresh m.random m.keypad := rfl

/-! ## The random source and the keypad along a history -/

/-- An instruction takes one random byte or none. -/
theorem random_of_execute (h : m.execute i = .ok m') :
    m'.random = m.random.drop (if i.takesRandom then 1 else 0) := by
  by_cases hp : i.IsPeripheral
  · cases i
    case waitKey x =>
      rw [execute] at h
      split at h <;> cases h <;> rfl
    case random | skipKey | skipNotKey | getDelay | setDelay | setSound =>
      cases h
      rfl
    all_goals exact absurd hp id
  · have hrandom : m'.random = m.random := congrArg Periphery.random (periphery_of_execute hp h)
    rw [hrandom]
    cases i
    case random => exact absurd trivial hp
    all_goals rfl

/-- An action takes as many as the instruction that it executes, if it executes one. -/
theorem random_perform (m : Machine) (a : Action) :
    (m.perform a).2.random =
      m.random.drop ((m.executed? a).toList.countP Instruction.takesRandom) := by
  cases hx : m.executed? a with
  | some i =>
    obtain ⟨word, he⟩ := execute_of_executed? hx
    rw [random_of_execute he, Option.toList_some, List.countP_singleton]
    rfl
  | none =>
    have heffect := effect_perform m a
    generalize (m.perform a).2 = m' at heffect ⊢
    cases heffect with
    | executed word executed_eq => cases hx.symm.trans executed_eq
    | _ => rfl

/-- The random source has given a byte to every executed instruction that takes one. -/
theorem random_after (m : Machine) (actions : List Action) :
    (m.after actions).random =
      m.random.drop ((m.executedIn actions).countP Instruction.takesRandom) := by
  induction actions generalizing m with
  | nil => rfl
  | cons a as ih =>
    rw [after_cons, ih, random_perform, executedIn, List.countP_append, RandomSource.drop_add]

/-- The keypad has gone through the key events, whatever else has happened to the machine. -/
theorem keypad_after (m : Machine) (actions : List Action) :
    (m.after actions).keypad = m.keypad.after (actions.filterMap Action.keyEvent?) := by
  induction actions generalizing m with
  | nil => rfl
  | cons a as ih =>
    rw [after_cons, ih]
    cases he : a.keyEvent? with
    | some e => rw [perform_of_keyEvent? he, List.filterMap_cons_some he, Keypad.after_cons]
    | none =>
      have ha : ¬ a.MovesKey := by
        cases a <;> first | exact id | cases he
      rw [keypad_perform ha, List.filterMap_cons_none he]

end Machine

/-! ## Handles -/

/-- The key event as an action on a machine. -/
def KeyEvent.action : KeyEvent → Machine.Action
  | press key => .press key
  | release key => .release key

/-- A machine as its host holds it, with the handle of its keypad among its fields. -/
@[ext]
structure Wired (ι : Type) extends Machine where
  handle : ι

namespace Wired

variable {ι : Type} (w : Wired ι)

/-- A machine that has just been switched on, wired to one of a number of keypads. -/
def fresh (random : RandomSource) (keypads : ι → Keypad) (handle : ι) : Wired ι :=
  { Machine.fresh random (keypads handle) with handle := handle }

/-- Everything as at the start but the random source and the keypad with its handle, which go on as
they are. -/
def reset : Wired ι :=
  { w with
    pc := 0x200
    index := 0
    stack := .empty
    opcode := 0
    memory := .initial
    registers := .zero
    delay := 0
    sound := 0
    screen := w.screen.clear }

/-- The wired machine after an action on it. -/
def perform : Machine.Action → Wired ι
  | .reset => w.reset
  | action => { w with toMachine := (w.toMachine.perform action).2 }

/-- But for the handle, it is the machine that is reset. -/
theorem toMachine_reset : w.reset.toMachine = w.toMachine.reset := rfl

/-- The handle is not among the fields that a reset sets. -/
theorem handle_reset : w.reset.handle = w.handle := rfl

/-- An action does to a wired machine what it does to the machine by itself. -/
theorem toMachine_perform (a : Machine.Action) :
    (w.perform a).toMachine = (w.toMachine.perform a).2 := by
  cases a with
  | reset => exact w.toMachine_reset
  | _ => rfl

/-- No action on a machine exchanges its keypad, and a reset does not either. -/
theorem handle_perform (a : Machine.Action) : (w.perform a).handle = w.handle := by
  cases a with
  | reset => exact w.handle_reset
  | _ => rfl

/-- Without a key event the keys stay as they are. -/
theorem keypad_perform {a : Machine.Action} (keyless : ¬ a.MovesKey) :
    (w.perform a).keypad = w.keypad := by
  rw [toMachine_perform]
  exact Machine.keypad_perform keyless

end Wired

/-- A number of keypads, each with its handle, and a machine that is wired to one of them. -/
@[ext]
structure Desk (ι : Type) where
  keypads : ι → Keypad
  machine : Wired ι
  /-- The machine sees the keys of the keypad that it is wired to. -/
  plugged : machine.keypad = keypads machine.handle

namespace Desk

/-- What happens at a desk. -/
inductive Action (ι : Type) where
  /-- An action on the machine. -/
  | machine (action : Machine.Action) (keyless : ¬ action.MovesKey)
  /-- A key event through some handle. -/
  | key (handle : ι) (event : KeyEvent)
  /-- A new machine, wired to a keypad of choice, takes the place of the old one. -/
  | replace (random : RandomSource) (handle : ι)

variable {ι : Type} [DecidableEq ι] {a : Action ι}

/-- The action puts another machine on the desk. -/
def Action.Replaces : Action ι → Prop
  | .replace _ _ => True
  | _ => False

/-- The desk after an action. -/
def perform (d : Desk ι) : Action ι → Desk ι
  | .machine action keyless => { d with
      machine := d.machine.perform action
      plugged := by
        rw [d.machine.keypad_perform keyless, d.machine.handle_perform]
        exact d.plugged }
  | .key handle event =>
    let keypad := d.keypads handle
    let keypads := Function.update d.keypads handle (keypad.orUnchanged (event.apply keypad))
    { keypads := keypads
      machine := { d.machine with keypad := keypads d.machine.handle }
      plugged := rfl }
  | .replace random handle => { d with
      machine := .fresh random d.keypads handle
      plugged := rfl }

/-- The desk after a list of actions. -/
def after (d : Desk ι) (actions : List (Action ι)) : Desk ι :=
  actions.foldl perform d

theorem after_append (d : Desk ι) (first second : List (Action ι)) :
    d.after (first ++ second) = (d.after first).after second :=
  List.foldl_append

/-- The action as the machine sees it that is wired to a keypad. -/
def Action.seenFrom (handle : ι) : Action ι → Option Machine.Action
  | .machine action _ => some action
  | .key other event => if other = handle then some event.action else none
  | .replace _ _ => none

/-- The actions that the machine sees, as long as it is not replaced. -/
def seen (d : Desk ι) (actions : List (Action ι)) : List Machine.Action :=
  actions.filterMap (Action.seenFrom d.machine.handle)

/-- The key events through a handle, in order. -/
def eventsThrough (handle : ι) (actions : List (Action ι)) : List KeyEvent :=
  actions.filterMap fun
    | .key other event => if other = handle then some event else none
    | _ => none

/-- The machine stays wired as it is unless another one takes its place. -/
theorem handle_perform (d : Desk ι) (ha : ¬ a.Replaces) :
    (d.perform a).machine.handle = d.machine.handle := by
  cases a with
  | machine action _ => exact d.machine.handle_perform action
  | key => rfl
  | replace => exact absurd trivial ha

/-- Also over a history, resets and all. -/
theorem handle_after (d : Desk ι) {actions : List (Action ι)} (ha : ∀ a ∈ actions, ¬ a.Replaces) :
    (d.after actions).machine.handle = d.machine.handle := by
  induction actions generalizing d with
  | nil => rfl
  | cons a as ih =>
    have hrest := ih (d.perform a) fun b hb => ha b (List.mem_cons_of_mem a hb)
    exact hrest.trans (d.handle_perform (ha a List.mem_cons_self))

/-- Key events move the keypad of their own handle. -/
theorem machine_perform (d : Desk ι) (ha : ¬ a.Replaces) :
    (d.perform a).machine.toMachine = d.machine.toMachine.after (d.seen [a]) := by
  cases a with
  | machine action _ => exact d.machine.toMachine_perform action
  | key handle event =>
    by_cases h : handle = d.machine.handle
    · subst h
      have hseen : d.seen [.key d.machine.handle event] = [event.action] := by
        simp [seen, Action.seenFrom]
      have hevent : event.action.keyEvent? = some event := by
        cases event <;> rfl
      rw [hseen, Machine.after_cons, Machine.after_nil, Machine.perform_of_keyEvent? hevent,
        d.plugged, perform]
      simp
    · have hseen : d.seen [.key handle event] = [] := by
        simp [seen, Action.seenFrom, h]
      rw [hseen, Machine.after_nil, perform]
      simp [Ne.symm h, ← d.plugged]
  | replace => exact absurd trivial ha

/-- A machine at a desk goes through what it sees of the history. -/
theorem machine_after (d : Desk ι) {actions : List (Action ι)}
    (ha : ∀ a ∈ actions, ¬ a.Replaces) :
    (d.after actions).machine.toMachine = d.machine.toMachine.after (d.seen actions) := by
  induction actions generalizing d with
  | nil => rfl
  | cons a as ih =>
    have hfirst : ¬ a.Replaces := ha a List.mem_cons_self
    have hrest : (d.perform a).seen as = d.seen as := by
      rw [seen, seen, handle_perform d hfirst]
    have hsplit : d.seen (a :: as) = d.seen [a] ++ d.seen as :=
      List.filterMap_append (l := [a])
    rw [hsplit, Machine.after_append, ← machine_perform d hfirst, ← hrest]
    exact ih (d.perform a) fun b hb => ha b (List.mem_cons_of_mem a hb)

/-- All key events that the machine sees come through its own handle. -/
theorem keyEvents_seen (d : Desk ι) (actions : List (Action ι)) :
    (d.seen actions).filterMap Machine.Action.keyEvent? =
      eventsThrough d.machine.handle actions := by
  rw [seen, eventsThrough, List.filterMap_filterMap]
  refine List.filterMap_congr fun a _ => ?_
  cases a with
  | machine action keyless => cases action <;> first | rfl | exact absurd trivial keyless
  | key other event =>
    by_cases h : other = d.machine.handle
    · simp only [Action.seenFrom, if_pos h]
      cases event <;> rfl
    · simp only [Action.seenFrom, if_neg h, Option.bind_none]
  | replace => rfl

/-- A machine is reset to what would take its place if it were replaced by a new one around its
random source, wired to its own keypad. -/
theorem perform_reset (d : Desk ι) :
    d.perform (.machine .reset id) = d.perform (.replace d.machine.random d.machine.handle) := by
  refine Desk.ext rfl ?_
  show d.machine.reset = .fresh d.machine.random d.keypads d.machine.handle
  rw [Wired.fresh, ← d.plugged]
  rfl

end Desk

/-! ## As good as new -/

namespace Machine

open Desk KeyEvent

/-- A machine that is reset after any history goes on like a new one around its random source and
its keypad, reply by reply. Of the history these two show how many random bytes were taken and what
the key events were, and nothing else. And the keypad is the same one: the reset machine is wired
like the used one, as a new machine at its keypad would be, and clients that hold the handle of that
keypad move the keys of the reset machine, and no others do. -/
theorem performAll_reset :
    (∀ (m : Machine) (history later : List Action),
      let used := m.after history
      let new := fresh used.random used.keypad
      used.reset = new ∧ (Procedure.reset.run used).machine = new ∧
      used.random = m.random.drop ((m.executedIn history).countP Instruction.takesRandom) ∧
      used.keypad = m.keypad.after (history.filterMap Action.keyEvent?) ∧
      m.performAll (history ++ .reset :: later) =
        ((m.performAll history).1 ++ .done :: (new.performAll later).1, (new.performAll later).2)) ∧
    ∀ (ι : Type) [DecidableEq ι] (d : Desk ι) (history later : List (Desk.Action ι)),
      let used := d.after history
      let again := d.after (history ++ .machine .reset id :: later)
      again = d.after (history ++ .replace used.machine.random used.machine.handle :: later) ∧
      ((∀ a ∈ history, ¬ a.Replaces) → used.machine.handle = d.machine.handle) ∧
      ((∀ a ∈ later, ¬ a.Replaces) → again.machine.handle = used.machine.handle ∧
        again.machine.toMachine =
          (fresh used.machine.random used.machine.keypad).after (used.seen later) ∧
        ∀ key : UInt8, key.toNat < 16 → again.machine.keypad.isDown key =
          ((lastOn key (eventsThrough used.machine.handle later)).map isPress).getD
            (used.machine.keypad.isDown key)) := by
  refine ⟨?_, ?_⟩
  · intro m history later used new
    have hreset : used.reset = new := reset_eq_fresh used
    refine ⟨hreset, rfl, random_after m history, keypad_after m history, ?_⟩
    have hlater : used.performAll (.reset :: later) =
        (.done :: (new.performAll later).1, (new.performAll later).2) := by
      rw [← hreset]
      rfl
    have hmachine : used.after (.reset :: later) = new.after later :=
      congrArg (fun m => m.after later) hreset
    refine Prod.ext ?_ ?_
    · rw [performAll_append_fst, hlater]
    · exact (after_append m history _).trans hmachine
  · intro ι _ d history later used again
    have hagain : again = (used.perform (.machine .reset id)).after later :=
      Desk.after_append d history _
    refine ⟨?_, Desk.handle_after d, fun hlater => ?_⟩
    · rw [hagain, Desk.perform_reset, Desk.after_append]
      rfl
    · -- the handle is what the clients of both histories share
      have hhandle : (used.perform (.machine .reset id)).machine.handle = used.machine.handle :=
        used.handle_perform id
      have hmachine : again.machine.toMachine =
          (fresh used.machine.random used.machine.keypad).after (used.seen later) := by
        rw [hagain, Desk.machine_after _ hlater, seen, hhandle]
        rfl
      refine ⟨?_, hmachine, fun key hkey => ?_⟩
      · rw [hagain, Desk.handle_after _ hlater, hhandle]
      · rw [hmachine, keypad_after, keyEvents_seen, Keypad.isDown_after _ _ hkey]
        rfl

/-- Two keypads, and a machine that is wired to the first. -/
def twoKeypads : Desk Bool where
  keypads := fun _ => .released
  machine := .fresh (.ofSeed 0) (fun _ => .released) true
  plugged := rfl

/-- A program takes a random byte and starts the sound timer, while 3 is pressed on one keypad and 9
on the other. After a reset another program waits for a key. It finds 7, which was pressed through
the old handle after 3 was released. -/
theorem performAll_reset_oldHandle :
    let history : List (Desk.Action Bool) :=
      [.machine (.load [0xC0, 0xFF, 0x61, 0x09, 0xF1, 0x18]) id, .key true (.press 3),
        .machine .step id, .machine .step id, .machine .step id, .key false (.press 9)]
    let later : List (Desk.Action Bool) :=
      [.machine (.load [0xF5, 0x0A]) id, .key true (.release 3), .key false (.press 1),
        .key true (.press 7), .machine .step id]
    let used := twoKeypads.after history
    let again := twoKeypads.after (history ++ .machine .reset id :: later)
    used.machine.sound = 9 ∧
      used.machine.random = (RandomSource.ofSeed 0).drop 1 ∧
      used.machine.toMachine.reset = fresh ((RandomSource.ofSeed 0).drop 1) used.machine.keypad ∧
      again.machine.handle = true ∧ again.machine.sound = 0 ∧ again.machine.v 5 = 7 ∧
      again.machine.keypad.isDown 3 = false ∧ again.machine.keypad.isDown 9 = false := by
  intro history later used again
  obtain ⟨hplain, hdesk⟩ := performAll_reset
  have hhistory : ∀ a ∈ history, ¬ a.Replaces := by simp [history, Desk.Action.Replaces]
  have hlater : ∀ a ∈ later, ¬ a.Replaces := by simp [later, Desk.Action.Replaces]
  have hused : used.machine.toMachine = (ofSeed 0).after (twoKeypads.seen history) :=
    Desk.machine_after twoKeypads hhistory
  obtain ⟨hreset, -, hrandom, -⟩ := hplain (ofSeed 0) (twoKeypads.seen history) []
  have hcount :
      ((ofSeed 0).executedIn (twoKeypads.seen history)).countP Instruction.takesRandom = 1 := by
    decide +kernel
  rw [hcount, ← hused] at hrandom
  rw [← hused, hrandom] at hreset
  obtain ⟨-, hwired, hagain⟩ := hdesk Bool twoKeypads history later
  obtain ⟨hhandle, hmachine, hkeys⟩ := hagain hlater
  refine ⟨?_, hrandom, hreset, hhandle.trans (hwired hhistory), ?_, ?_, ?_, ?_⟩
  · decide +kernel
  · rw [hmachine]
    decide +kernel
  · rw [hmachine]
    decide +kernel
  · exact hkeys 3 (by decide)
  · exact hkeys 9 (by decide)

end Machine

end Chip8
