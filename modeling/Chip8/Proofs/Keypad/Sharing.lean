import Chip8.Proofs.Keypad.Mask
import Mathlib.Logic.Function.Basic

/-!
# A shared keypad

Clients press and release the keys of one keypad, each in an order of its own and all of them in any
interleaving. Whatever the interleaving, the keypad is the set of the keys whose last event was a
press.

## Shape of the proof

A step takes the next event of some client and carries it out at once. So a run is nothing but the
list of events in the order in which they were taken (`Run.keypad_eq`), and in this order every
client finds its own events in its own order (`Run.todo_eq`). Any order of that kind is a run
(`exists_run`). What a list of events makes of a keypad is known key by key, so only the order of
the events of one key matters; if all of them come from one client, that is the order of this client
(`on_events_of_owner`).
-/

namespace Chip8

open KeyEvent

/-- A keypad and its clients, each with the events that it has still to bring about. -/
structure SharedKeypad (ι : Type) where
  keypad : Keypad
  todo : ι → List KeyEvent

namespace SharedKeypad

variable {ι : Type} [DecidableEq ι] {s s' : SharedKeypad ι} {client : ι} {key : UInt8}
  {entry : ι × KeyEvent} {log : List (ι × KeyEvent)}

/-- A new keypad that no client has used. -/
def start (clients : ι → List KeyEvent) : SharedKeypad ι :=
  ⟨.released, clients⟩

/-- The keypad with one more event, after which a client has the rest to do. -/
def perform (s : SharedKeypad ι) (client : ι) (e : KeyEvent) (rest : List KeyEvent) :
    SharedKeypad ι :=
  ⟨s.keypad.orUnchanged (e.apply s.keypad), Function.update s.todo client rest⟩

/-- A client that has brought an event about is left with the rest. -/
theorem todo_perform_self {e : KeyEvent} {rest : List KeyEvent} :
    (s.perform client e rest).todo client = rest :=
  Function.update_self _ _ _

theorem todo_perform_of_ne {other : ι} (h : other ≠ client) {e : KeyEvent}
    {rest : List KeyEvent} : (s.perform client e rest).todo other = s.todo other :=
  Function.update_of_ne h _ _

/-- One client brings about its next event, in one step. -/
inductive Step : SharedKeypad ι → ι × KeyEvent → SharedKeypad ι → Prop where
  | take {s : SharedKeypad ι} {client : ι} {e : KeyEvent} {rest : List KeyEvent}
      (next : s.todo client = e :: rest) : Step s (client, e) (s.perform client e rest)

/-- Steps one after the other, with a log of who did what. -/
inductive Run : SharedKeypad ι → List (ι × KeyEvent) → SharedKeypad ι → Prop where
  | refl (s : SharedKeypad ι) : Run s [] s
  | step {s s₁ s' : SharedKeypad ι} {entry : ι × KeyEvent} {log : List (ι × KeyEvent)}
      (first : Step s entry s₁) (rest : Run s₁ log s') : Run s (entry :: log) s'

/-- The events of a log, in order. -/
def events (log : List (ι × KeyEvent)) : List KeyEvent :=
  log.map Prod.snd

/-- The events of one client, in order. -/
def eventsOf (client : ι) (log : List (ι × KeyEvent)) : List KeyEvent :=
  events (log.filter fun entry => entry.1 = client)

/-- An entry at the head of a log is the first event of its client, and none of the others'. -/
theorem eventsOf_cons (client : ι) (entry : ι × KeyEvent) (log : List (ι × KeyEvent)) :
    eventsOf client (entry :: log) =
      if entry.1 = client then entry.2 :: eventsOf client log else eventsOf client log := by
  by_cases h : entry.1 = client <;> simp [eventsOf, events, h]

/-- Every entry of a log is among the events of its client. -/
theorem mem_eventsOf (h : entry ∈ log) : entry.2 ∈ eventsOf entry.1 log :=
  List.mem_map_of_mem (List.mem_filter.mpr ⟨h, decide_eq_true rfl⟩)

/-- A step accepts or refuses its event and does nothing else to the keypad. -/
theorem Step.settles (h : Step s entry s') : Settles s.keypad entry.2 s'.keypad := by
  cases h with
  | take next => exact settles_orUnchanged s.keypad _

/-! ## Runs -/

/-- A run leaves the keypad that its events lead to, whoever has brought them about. -/
theorem Run.keypad_eq (h : Run s log s') : s'.keypad = s.keypad.after (events log) := by
  induction h with
  | refl => rfl
  | step first rest ih =>
    cases first with
    | take next => exact ih

/-- What a client had to do is what it has done and then what it has still to do. -/
theorem Run.todo_eq (h : Run s log s') (client : ι) :
    s.todo client = eventsOf client log ++ s'.todo client := by
  induction h with
  | refl => rfl
  | @step s s₁ s' entry log first rest ih =>
    cases first with
    | @take other e todo next =>
      rw [eventsOf_cons]
      by_cases hc : other = client
      · subst hc
        rw [todo_perform_self] at ih
        rw [if_pos rfl, next, ih, List.cons_append]
      · rw [todo_perform_of_ne (Ne.symm hc)] at ih
        rw [if_neg hc, ih]

/-- Any order of events that keeps the order of every client is a run. -/
theorem exists_run (h : ∀ client, eventsOf client log <+: s.todo client) : ∃ s', Run s log s' := by
  induction log generalizing s with
  | nil => exact ⟨s, .refl s⟩
  | cons entry log ih =>
    obtain ⟨client, e⟩ := entry
    have hfirst := h client
    rw [eventsOf_cons, if_pos rfl] at hfirst
    obtain ⟨rest, hrest⟩ := hfirst
    have hlog : ∀ other, eventsOf other log <+:
        (s.perform client e (eventsOf client log ++ rest)).todo other := by
      intro other
      by_cases hc : client = other
      · subst hc
        rw [todo_perform_self]
        exact List.prefix_append _ _
      · have hother := h other
        rw [eventsOf_cons, if_neg hc] at hother
        rwa [todo_perform_of_ne (Ne.symm hc)]
    obtain ⟨s', hrun⟩ := ih hlog
    exact ⟨s', .step (.take hrest.symm) hrun⟩

/-- If only one client names a key, all the events of this key are events of that client. -/
theorem on_events_of_owner (h : ∀ entry ∈ log, entry.2.key = key → entry.1 = client) :
    on key (events log) = on key (eventsOf client log) := by
  rw [on, on, eventsOf, events, events, List.filter_map, List.filter_map, List.filter_filter]
  refine congrArg _ (List.filter_congr fun entry hentry => ?_)
  by_cases hkey : entry.2.key = key
  · simp [hkey, h entry hentry hkey]
  · simp [hkey]

/-! ## The keypad as a set -/

/-- A keypad shows the keys whose last event was a press, and all its readers agree on them. So do
those of a mask that has gone through the same events. -/
structure ShowsLast (events : List KeyEvent) (k : Keypad) : Prop where
  isDown_iff : ∀ key, k.isDown key = true ↔
    key.toNat < 16 ∧ lastOn key events = some (.press key)
  mem_pressedKeys : ∀ key, key ∈ k.pressedKeys ↔ k.isDown key = true
  ascending : k.pressedKeys.Pairwise (· < ·)
  first_eq : k.firstPressed? = k.pressedKeys.head?
  first_eq_none : k.firstPressed? = none ↔ k.pressedKeys = []
  mask_isDown : ∀ key, (KeyMask.empty.after events).isDown key = k.isDown key
  mask_pressedKeys : (KeyMask.empty.after events).pressedKeys = k.pressedKeys
  mask_first : (KeyMask.empty.after events).firstPressed? = k.firstPressed?

/-- A keypad shows of every key the last event that named it. -/
theorem showsLast_after (events : List KeyEvent) :
    ShowsLast events (Keypad.released.after events) := by
  have hmask : (KeyMask.empty.after events).keypad = Keypad.released.after events := by
    rw [KeyMask.keypad_after, KeyMask.keypad_empty]
  exact {
    isDown_iff := fun _ => Keypad.isDown_after_released
    mem_pressedKeys := fun _ => Keypad.mem_pressedKeys
    ascending := Keypad.pressedKeys_ascending _
    first_eq := Keypad.firstPressed?_eq_head? _
    first_eq_none := by rw [Keypad.firstPressed?_eq_head?, List.head?_eq_none_iff]
    mask_isDown := fun key => by rw [KeyMask.isDown_eq, hmask]
    mask_pressedKeys := by rw [KeyMask.pressedKeys_eq, hmask]
    mask_first := by rw [KeyMask.firstPressed?_eq, hmask] }

/-- In every interleaving, the keypad shows the last event of every key. Each event is accepted, or
it names no key, is refused and changes nothing; on a mask it is one change of the word. Runs with
the same order of events for every key end with the same keypad, and a key that one client alone
uses shows the last event of that client. -/
theorem run_showsLast {clients : ι → List KeyEvent} (h : Run (start clients) log s) :
    ShowsLast (events log) s.keypad ∧
    (∀ (s₁ : SharedKeypad ι) entry s₂, Step s₁ entry s₂ →
      Settles s₁.keypad entry.2 s₂.keypad ∧
        ∀ mask : KeyMask, mask.keypad = s₁.keypad →
          (mask.apply entry.2).map KeyMask.keypad = entry.2.apply s₁.keypad) ∧
    (∀ (ι' : Type) [DecidableEq ι'] (clients' : ι' → List KeyEvent) log' s',
      Run (start clients') log' s' →
      (∀ key, key.toNat < 16 → on key (events log') = on key (events log)) →
        s'.keypad = s.keypad) ∧
    ∀ client key, (∀ other, other ≠ client → ∀ e ∈ clients other, e.key ≠ key) →
      ∃ done, clients client = done ++ s.todo client ∧
        (s.keypad.isDown key = true ↔ key.toNat < 16 ∧ lastOn key done = some (.press key)) := by
  have hkeypad : s.keypad = Keypad.released.after (events log) := h.keypad_eq
  refine ⟨?_, ?_, ?_, ?_⟩
  · rw [hkeypad]
    exact showsLast_after _
  · intro s₁ entry s₂ hstep
    refine ⟨hstep.settles, fun mask hmask => ?_⟩
    rw [← hmask]
    exact KeyMask.map_keypad_apply mask entry.2
  · intro ι' _ clients' log' s' h' hsame
    rw [hkeypad]
    exact h'.keypad_eq.trans (Keypad.after_congr hsame)
  · intro client key halone
    refine ⟨eventsOf client log, h.todo_eq client, ?_⟩
    -- an event of the key in the log was on the list of some client, so of this one
    have howner : ∀ entry ∈ log, entry.2.key = key → entry.1 = client := by
      intro entry hentry hkey
      by_contra hother
      have htodo : clients entry.1 = eventsOf entry.1 log ++ s.todo entry.1 := h.todo_eq entry.1
      have hmem : entry.2 ∈ clients entry.1 := by
        rw [htodo]
        exact List.mem_append_left _ (mem_eventsOf hentry)
      exact halone entry.1 hother entry.2 hmem hkey
    rw [hkeypad, Keypad.isDown_after_released, lastOn, lastOn, on_events_of_owner howner]

/-- One client presses 5 and then a number that names no key, the other presses and releases 4. -/
def neighbours : Fin 2 → List KeyEvent
  | 0 => [.press 0x5, .press 0x15, .press 0x6]
  | 1 => [.press 0x4, .release 0x4]

/-- With the two clients taking turns, 5 stays down when its neighbour is released. -/
theorem run_showsLast_neighbours :
    ∃ s, Run (start neighbours)
        [(0, .press 0x5), (1, .press 0x4), (0, .press 0x15), (1, .release 0x4)] s ∧
      s.keypad.isDown 0x5 = true ∧ s.keypad.isDown 0x4 = false ∧
      s.keypad.isDown 0x15 = false := by
  obtain ⟨s, hrun⟩ : ∃ s, Run (start neighbours)
      [(0, .press 0x5), (1, .press 0x4), (0, .press 0x15), (1, .release 0x4)] s :=
    exists_run (by decide)
  obtain ⟨hshows, -⟩ := run_showsLast hrun
  refine ⟨s, hrun, (hshows.isDown_iff 0x5).mpr (by decide), ?_, ?_⟩
  · exact Bool.eq_false_iff.mpr fun h => absurd ((hshows.isDown_iff 0x4).mp h) (by decide)
  · exact Bool.eq_false_iff.mpr fun h => absurd ((hshows.isDown_iff 0x15).mp h) (by decide)

end SharedKeypad

end Chip8
