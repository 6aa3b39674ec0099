import Chip8.Proofs.Keypad.Readers

/-!
# Forwarding the keyboard

A layout puts every key of the pad on a key of the keyboard of its own. So forwarding moves every
pad key by its keyboard key alone, and it does not matter in which order the entries of the layout
are gone through.

## Shape of the proof

`isDown_forwardEntries` follows one pad key through a list of entries that names every pad key at
most once: the entry of the key moves it, and all others pass it by. Nothing else is asked of the
list, so the law holds for every permutation of a layout (`isDown_forwardEntries_of_perm`).
`Layout.update` is what becomes of a single key, and forwarding by several layouts is the
composition of their updates.
-/

namespace Chip8

/-! ## Layouts -/

namespace Layout

variable {layout : Layout}

/-- No two entries of a layout name the same pad key. -/
theorem nodup_keys (layout : Layout) : (layout.entries.map Prod.snd).Nodup := by
  cases layout <;> decide

/-- The keyboard key of a pad key is the one that its entry names. -/
theorem code?_of_mem {entry : KeyCode × UInt8} (h : entry ∈ layout.entries) :
    layout.code? entry.2 = some entry.1 := by
  have hall : ∀ entry ∈ layout.entries, layout.code? entry.2 = some entry.1 := by
    cases layout <;> decide
  exact hall entry h

/-- The pad key of a keyboard key is the one that its entry names. -/
theorem key?_of_mem {entry : KeyCode × UInt8} (h : entry ∈ layout.entries) :
    layout.key? entry.1 = some entry.2 := by
  have hall : ∀ entry ∈ layout.entries, layout.key? entry.1 = some entry.2 := by
    cases layout <;> decide
  exact hall entry h

/-- Every key of the pad lies somewhere on the keyboard. -/
theorem exists_entry (layout : Layout) {key : UInt8} (h : key.toNat < 16) :
    ∃ code, (code, key) ∈ layout.entries := by
  have hall : Keypad.keys ⊆ layout.entries.map Prod.snd := by
    cases layout <;> decide
  obtain ⟨⟨code, _⟩, hmem, rfl⟩ := List.mem_map.mp (hall (Keypad.mem_keys h))
  exact ⟨code, hmem⟩

/-- The entries name keys of the pad and no others. -/
theorem lt_of_mem {entry : KeyCode × UInt8} (h : entry ∈ layout.entries) : entry.2.toNat < 16 := by
  have hall : ∀ entry ∈ layout.entries, entry.2.toNat < 16 := by
    cases layout <;> decide
  exact hall entry h

end Layout

/-! ## One entry -/

/-- Whether a pad key is down after its keyboard key was pressed or released or neither. A press
wins over a release. -/
def moved (pressed released down : Bool) : Bool :=
  if pressed then true else if released then false else down

/-- What becomes of a pad key by what was pressed and released on the keyboard. -/
def Layout.update (layout : Layout) (pressed released : KeyCode → Bool) (key : UInt8)
    (down : Bool) : Bool :=
  match layout.code? key with
  | some code => moved (pressed code) (released code) down
  | none => down

namespace Keypad

variable {pad : Keypad} {pressed released : KeyCode → Bool} {layout : Layout} {key : UInt8}
  {entry : KeyCode × UInt8} {entries : List (KeyCode × UInt8)}

/-- A key that an entry names may be pressed and released. -/
theorem exists_press_release (h : entry.2.toNat < 16) :
    (∃ pad', pad.press entry.2 = .ok pad') ∧ ∃ pad', pad.release entry.2 = .ok pad' :=
  ⟨⟨_, dif_pos h⟩, ⟨_, dif_pos h⟩⟩

/-- An entry moves its own key and leaves the others. -/
theorem isDown_forwardEntry :
    (forwardEntry pressed released pad entry).isDown key =
      if entry.2 = key ∧ key.toNat < 16 then
        moved (pressed entry.1) (released entry.1) (pad.isDown key)
      else
        pad.isDown key := by
  unfold forwardEntry moved
  split
  · exact isDown_orUnchanged_move pad entry.2 true key
  · split
    · exact isDown_orUnchanged_move pad entry.2 false key
    · rw [ite_self]

/-! ## Lists of entries -/

/-- Entries for other keys leave a key alone. -/
theorem isDown_forwardEntries_of_notMem (h : key ∉ entries.map Prod.snd) :
    (pad.forwardEntries pressed released entries).isDown key = pad.isDown key := by
  induction entries generalizing pad with
  | nil => rfl
  | cons entry rest ih =>
    rw [List.map_cons, List.mem_cons, not_or] at h
    have hne : ¬ (entry.2 = key ∧ key.toNat < 16) := fun hand => h.1 hand.1.symm
    exact (ih h.2).trans (isDown_forwardEntry.trans (if_neg hne))

/-- Entries that name every key at most once move a key by the entry that names it. -/
theorem isDown_forwardEntries (hnodup : (entries.map Prod.snd).Nodup) (hmem : entry ∈ entries)
    (hkey : entry.2.toNat < 16) :
    (pad.forwardEntries pressed released entries).isDown entry.2 =
      moved (pressed entry.1) (released entry.1) (pad.isDown entry.2) := by
  induction entries generalizing pad with
  | nil => cases hmem
  | cons first rest ih =>
    rw [List.map_cons, List.nodup_cons] at hnodup
    rcases List.mem_cons.mp hmem with rfl | hrest
    · have hfirst : (forwardEntry pressed released pad entry).isDown entry.2 =
          moved (pressed entry.1) (released entry.1) (pad.isDown entry.2) :=
        isDown_forwardEntry.trans (if_pos ⟨rfl, hkey⟩)
      exact (isDown_forwardEntries_of_notMem hnodup.1).trans hfirst
    · have hne : ¬ (first.2 = entry.2 ∧ entry.2.toNat < 16) := by
        rintro ⟨heq, -⟩
        exact hnodup.1 (heq ▸ List.mem_map_of_mem hrest)
      have hfirst : (forwardEntry pressed released pad first).isDown entry.2 =
          pad.isDown entry.2 :=
        isDown_forwardEntry.trans (if_neg hne)
      rw [← hfirst]
      exact ih hnodup.2 hrest

/-- The entries of a layout, in any order, update every key by itself. -/
theorem isDown_forwardEntries_of_perm (h : entries.Perm layout.entries) (key : UInt8) :
    (pad.forwardEntries pressed released entries).isDown key =
      layout.update pressed released key (pad.isDown key) := by
  by_cases hkey : key.toNat < 16
  · obtain ⟨code, hmem⟩ := layout.exists_entry hkey
    have hnodup : (entries.map Prod.snd).Nodup := (h.map Prod.snd).nodup_iff.mpr layout.nodup_keys
    rw [Layout.update, Layout.code?_of_mem hmem]
    exact isDown_forwardEntries hnodup (h.mem_iff.mpr hmem) hkey
  · have hcode : layout.code? key = none := by
      cases hfind : layout.entries.find? fun entry => entry.2 == key with
      | none => rw [Layout.code?, hfind, Option.map_none]
      | some entry =>
        have heq := List.find?_some hfind
        rw [beq_iff_eq] at heq
        exact absurd (heq ▸ Layout.lt_of_mem (List.mem_of_find?_eq_some hfind)) hkey
    rw [Layout.update, hcode, isDown_of_le (Nat.not_lt.mp hkey), isDown_of_le (Nat.not_lt.mp hkey)]

/-- In whatever order the entries of a layout come, forwarding leaves a pad key down if its keyboard
key was pressed, up if that was released and not pressed, and as it was otherwise. No other keyboard
key matters, no entry is ever rejected, and layouts one after the other compose their updates. -/
theorem forwardEntries_of_perm (h : entries.Perm layout.entries) (pad : Keypad)
    (pressed released : KeyCode → Bool) :
    let after := pad.forwardEntries pressed released entries
    (∀ key, key.toNat < 16 → ∃ code, layout.code? key = some code ∧ layout.key? code = some key ∧
      (pressed code = true → after.isDown key = true) ∧
      (pressed code = false → released code = true → after.isDown key = false) ∧
      (pressed code = false → released code = false → after.isDown key = pad.isDown key)) ∧
    after = pad.forward layout pressed released ∧
    (∀ pressed' released' : KeyCode → Bool,
      (∀ code key, layout.key? code = some key →
        pressed' code = pressed code ∧ released' code = released code) →
      pad.forwardEntries pressed' released' entries = after) ∧
    (∀ entry ∈ entries, ∀ met : Keypad,
      (∃ pad', met.press entry.2 = .ok pad') ∧ ∃ pad', met.release entry.2 = .ok pad') ∧
    ∀ (layout' : Layout) entries' pressed' released', entries'.Perm layout'.entries → ∀ key,
      (after.forwardEntries pressed' released' entries').isDown key =
        layout'.update pressed' released' key
          (layout.update pressed released key (pad.isDown key)) := by
  intro after
  have hafter : ∀ key, after.isDown key = layout.update pressed released key (pad.isDown key) :=
    isDown_forwardEntries_of_perm h
  refine ⟨?_, ?_, ?_, ?_, ?_⟩
  · intro key hkey
    obtain ⟨code, hmem⟩ := layout.exists_entry hkey
    have hcode := Layout.code?_of_mem hmem
    refine ⟨code, hcode, Layout.key?_of_mem hmem, ?_, ?_, ?_⟩
    all_goals
      intros
      simp only [hafter, Layout.update, hcode]
      simp [moved, *]
  · refine ext_isDown fun key _ => ?_
    rw [hafter]
    exact (isDown_forwardEntries_of_perm (List.Perm.refl _) key).symm
  · -- every pad key asks for its own keyboard key only
    intro pressed' released' hsame
    refine ext_isDown fun key hkey => ?_
    obtain ⟨code, hmem⟩ := layout.exists_entry hkey
    obtain ⟨hpressed, hreleased⟩ := hsame code key (Layout.key?_of_mem hmem)
    rw [hafter, isDown_forwardEntries_of_perm h]
    simp only [Layout.update, Layout.code?_of_mem hmem, hpressed, hreleased]
  · intro entry hentry met
    exact exists_press_release (Layout.lt_of_mem (h.mem_iff.mp hentry))
  · intro layout' entries' pressed' released' h' key
    rw [isDown_forwardEntries_of_perm h', hafter]

/-- From the last entry to the first, with B pressed and released and 5 released only: B is down,
and 5 goes up. -/
theorem forwardEntries_of_perm_reversed :
    ∃ entries pad, entries.Perm Layout.hex.entries ∧ isDown pad 0x5 = true ∧
      let after := pad.forwardEntries (· = .letter 'B') (fun c => c = .letter 'B' ∨ c = .digit 5)
        entries
      after.isDown 0xB = true ∧ after.isDown 0x5 = false := by
  have hperm : Layout.hex.entries.reverse.Perm Layout.hex.entries := List.reverse_perm _
  let pad := Keypad.released.orUnchanged (Keypad.released.press 0x5)
  refine ⟨_, pad, hperm, by decide, ?_⟩
  obtain ⟨hkeys, -⟩ := forwardEntries_of_perm hperm pad (· = .letter 'B')
    (fun c => c = .letter 'B' ∨ c = .digit 5)
  constructor
  · obtain ⟨code, hcode, -, hdown, -⟩ := hkeys 0xB (by decide)
    cases hcode
    exact hdown (by decide)
  · obtain ⟨code, hcode, -, -, hup, -⟩ := hkeys 0x5 (by decide)
    cases hcode
    exact hup (by decide) (by decide)

end Keypad

end Chip8
