import Chip8.Proofs.Keypad.Readers
import Mathlib.Data.List.Induction

/-!
# Key events

Presses and releases, one after the other. A key is down if the last event that named it was a press
(`isDown_after_released`), so the keypad that a history leads to is known by the events of every key
by itself (`after_congr`).
-/

namespace Chip8

/-- A press or a release of a key. The number may name no key. -/
inductive KeyEvent where
  | press (key : UInt8)
  | release (key : UInt8)
deriving DecidableEq

namespace KeyEvent

/-- The key that an event names. -/
def key : KeyEvent → UInt8
  | press key | release key => key

/-- Whether an event is a press. -/
def isPress : KeyEvent → Bool
  | press _ => true
  | release _ => false

@[simp] theorem key_press (key : UInt8) : (press key).key = key := rfl

@[simp] theorem key_release (key : UInt8) : (release key).key = key := rfl

theorem eq_press_iff {e : KeyEvent} {key : UInt8} :
    e = press key ↔ e.key = key ∧ e.isPress = true := by
  cases e <;> simp [KeyEvent.key, isPress]

/-- The keypad after an event, unless the event names no key. -/
def apply (k : Keypad) : KeyEvent → Except Fault Keypad
  | press key => k.press key
  | release key => k.release key

/-- Either kind of event is a move. -/
theorem apply_eq_move (k : Keypad) (e : KeyEvent) : e.apply k = k.move e.key e.isPress := by
  cases e <;> rfl

/-- An event is accepted if it names a key of the keypad. Any other is refused by its number and
changes nothing. -/
inductive Settles (k : Keypad) (e : KeyEvent) : Keypad → Prop where
  | accepted {k' : Keypad} (key_lt : e.key.toNat < 16) (apply_eq : e.apply k = .ok k') :
      Settles k e k'
  | refused (le_key : 16 ≤ e.key.toNat) (apply_eq : e.apply k = .error (.invalidKey e.key)) :
      Settles k e k

/-- Every event settles, one way or the other. -/
theorem settles_orUnchanged (k : Keypad) (e : KeyEvent) :
    Settles k e (k.orUnchanged (e.apply k)) := by
  by_cases hkey : e.key.toNat < 16
  · obtain ⟨k', happly⟩ : ∃ k', e.apply k = .ok k' := ⟨_, (apply_eq_move k e).trans (dif_pos hkey)⟩
    rw [happly]
    exact .accepted hkey happly
  · have happly : e.apply k = .error (.invalidKey e.key) :=
      (apply_eq_move k e).trans (dif_neg hkey)
    rw [happly]
    exact .refused (Nat.not_lt.mp hkey) happly

/-- The events that name a key, in order. -/
def on (key : UInt8) (events : List KeyEvent) : List KeyEvent :=
  events.filter fun e => e.key == key

/-- The last event that names a key. -/
def lastOn (key : UInt8) (events : List KeyEvent) : Option KeyEvent :=
  (on key events).getLast?

/-- One more event is the last one on its own key, and makes no difference to the others. -/
theorem lastOn_append_singleton (key : UInt8) (events : List KeyEvent) (e : KeyEvent) :
    lastOn key (events ++ [e]) = if e.key = key then some e else lastOn key events := by
  rw [lastOn, on, List.filter_append, List.getLast?_append, lastOn, on]
  by_cases h : e.key = key <;> simp [h]

/-- The last event on a key names that key. -/
theorem key_of_lastOn {key : UInt8} {events : List KeyEvent} {e : KeyEvent}
    (h : lastOn key events = some e) : e.key = key := by
  have hmem := List.mem_filter.mp (List.mem_of_getLast? h)
  exact beq_iff_eq.mp hmem.2

end KeyEvent

namespace Keypad

open KeyEvent

variable {k : Keypad} {key : UInt8} {events : List KeyEvent}

/-- The keypad after a list of events. An event that is refused changes nothing. -/
def after (k : Keypad) (events : List KeyEvent) : Keypad :=
  events.foldl (fun k e => k.orUnchanged (e.apply k)) k

@[simp] theorem after_nil (k : Keypad) : k.after [] = k := rfl

@[simp] theorem after_cons (k : Keypad) (e : KeyEvent) (es : List KeyEvent) :
    k.after (e :: es) = (k.orUnchanged (e.apply k)).after es := rfl

theorem after_append (k : Keypad) (first second : List KeyEvent) :
    k.after (first ++ second) = (k.after first).after second :=
  List.foldl_append

/-- A keypad is shown by the last event that named the key, if there was one. -/
theorem isDown_after (k : Keypad) (events : List KeyEvent) (h : key.toNat < 16) :
    (k.after events).isDown key = ((lastOn key events).map isPress).getD (k.isDown key) := by
  induction events using List.reverseRecOn with
  | nil => rfl
  | append_singleton es e ih =>
    rw [after_append, after_cons, after_nil, apply_eq_move, isDown_orUnchanged_move,
      lastOn_append_singleton]
    by_cases he : e.key = key
    · rw [if_pos ⟨he, h⟩, if_pos he]
      rfl
    · rw [if_neg fun hand => he hand.1, if_neg he, ih]

/-- From a keypad with all keys up, a key is down exactly if the last event that named it was a
press. -/
theorem isDown_after_released :
    (released.after events).isDown key = true ↔
      key.toNat < 16 ∧ lastOn key events = some (.press key) := by
  by_cases hkey : key.toNat < 16
  · rw [isDown_after _ _ hkey, isDown_released]
    cases hlast : lastOn key events with
    | none => simp
    | some e =>
      have he := key_of_lastOn hlast
      simp [hkey, eq_press_iff, he]
  · rw [isDown_of_le (Nat.not_lt.mp hkey)]
    simp [hkey]

/-- Histories with the same events for every key lead to the same keypad. -/
theorem after_congr {events' : List KeyEvent}
    (h : ∀ key, key.toNat < 16 → on key events = on key events') :
    k.after events = k.after events' := by
  refine ext_isDown fun key hkey => ?_
  rw [isDown_after _ _ hkey, isDown_after _ _ hkey, lastOn, lastOn, h key hkey]

/-- A key that is pressed and then released leaves no trace, whatever the other keys do
meanwhile. -/
theorem after_press_release (hup : k.isDown key = false) (h : ∀ e ∈ events, e.key ≠ key) :
    k.after (.press key :: (events ++ [.release key])) = k.after events := by
  refine ext_isDown fun other hother => ?_
  rw [isDown_after _ _ hother, isDown_after _ _ hother, ← List.cons_append, lastOn_append_singleton]
  by_cases heq : key = other
  · subst heq
    have hnone : lastOn key events = none := by
      rw [lastOn, on, List.filter_eq_nil_iff.mpr fun e he => by simpa using h e he]
      rfl
    rw [key_release, if_pos rfl, hnone]
    exact hup.symm
  · have hlast : lastOn other (.press key :: events) = lastOn other events :=
      congrArg List.getLast? (List.filter_cons_of_neg (by simpa using heq))
    rw [key_release, if_neg heq, hlast]

end Keypad

end Chip8
