import Chip8.Keyboard
import Mathlib.Logic.Basic

/-!
# Reading a keypad

A keypad is known by the keys that are down (`ext_isDown`). Its three readers tell of the same keys:
`pressedKeys` lists them in ascending order, and `firstPressed?` is the head of that list.
-/

namespace Chip8.Keypad

variable {k k' : Keypad} {key other : UInt8}

/-- Numbers above fifteen name no key, so none of them is down. -/
theorem isDown_of_le (h : 16 ≤ key.toNat) : k.isDown key = false :=
  dif_neg (Nat.not_lt.mpr h)

/-- What is down is a key. -/
theorem lt_of_isDown (h : k.isDown key = true) : key.toNat < 16 := by
  refine Nat.lt_of_not_le fun hle => ?_
  rw [isDown_of_le hle] at h
  cases h

/-- Keypads with the same keys down are equal. -/
theorem ext_isDown (h : ∀ key, key.toNat < 16 → k.isDown key = k'.isDown key) : k = k' := by
  obtain ⟨down⟩ := k
  obtain ⟨down'⟩ := k'
  refine congrArg mk (Vector.ext fun n hn => ?_)
  have hkey : (UInt8.ofNat n).toNat = n := by
    rw [UInt8.toNat_ofNat']
    omega
  have hdown := h (UInt8.ofNat n) (hkey.symm ▸ hn)
  unfold isDown at hdown
  rw [dif_pos (by omega), dif_pos (by omega)] at hdown
  simpa only [hkey] using hdown

/-- On a released keypad no key is down. -/
theorem isDown_released (key : UInt8) : released.isDown key = false := by
  unfold isDown
  split
  · exact Vector.getElem_replicate _
  · rfl

/-- A keypad on which no key is down is a released one. -/
theorem eq_released_iff : k = released ↔ ∀ key, k.isDown key = false := by
  constructor
  · rintro rfl key
    exact isDown_released key
  · intro h
    exact ext_isDown fun key _ => (h key).trans (isDown_released key).symm

/-! ## The readers -/

/-- The list of keys has all of them. -/
theorem mem_keys (h : key.toNat < 16) : key ∈ keys :=
  List.mem_map.mpr ⟨key.toNat, List.mem_range.mpr h, UInt8.ofNat_toNat⟩

/-- The keys are listed in the order of their numbers. -/
theorem keys_ascending : keys.Pairwise (· < ·) := by decide

/-- The pressed keys are the keys that are down. -/
theorem mem_pressedKeys : key ∈ k.pressedKeys ↔ k.isDown key = true := by
  rw [pressedKeys, List.mem_filter]
  exact ⟨And.right, fun h => ⟨mem_keys (lt_of_isDown h), h⟩⟩

/-- The pressed keys are listed in the order of their numbers. -/
theorem pressedKeys_ascending (k : Keypad) : k.pressedKeys.Pairwise (· < ·) :=
  keys_ascending.filter _

/-- The lowest key that is down heads the list of them. -/
theorem firstPressed?_eq_head? (k : Keypad) : k.firstPressed? = k.pressedKeys.head? :=
  List.head?_filter.symm

/-- There is a lowest key that is down unless all keys are up. -/
theorem firstPressed?_eq_none_iff : k.firstPressed? = none ↔ k = released := by
  rw [firstPressed?_eq_head?, List.head?_eq_none_iff, List.eq_nil_iff_forall_not_mem,
    eq_released_iff]
  simp only [mem_pressedKeys, Bool.not_eq_true]

/-- The first of the keys that are down has no key below it that is down. -/
theorem firstPressed?_eq_some_iff :
    k.firstPressed? = some key ↔ k.isDown key = true ∧ ∀ other < key, k.isDown other = false := by
  have lowest : ∀ {key}, k.firstPressed? = some key →
      k.isDown key = true ∧ ∀ other < key, k.isDown other = false := by
    intro key h
    rw [firstPressed?_eq_head?, List.head?_eq_some_iff] at h
    obtain ⟨rest, hlist⟩ := h
    have hascending := k.pressedKeys_ascending
    rw [hlist, List.pairwise_cons] at hascending
    refine ⟨mem_pressedKeys.mp (hlist ▸ List.mem_cons_self), fun other hlt => ?_⟩
    refine Bool.eq_false_iff.mpr fun hdown => ?_
    have hmem := mem_pressedKeys.mpr hdown
    rw [hlist, List.mem_cons] at hmem
    rcases hmem with rfl | hmem
    · exact absurd hlt (UInt8.lt_irrefl _)
    · exact absurd hlt (UInt8.lt_asymm (hascending.1 other hmem))
  refine ⟨lowest, ?_⟩
  rintro ⟨hdown, hbelow⟩
  cases hfirst : k.firstPressed? with
  | none =>
    rw [firstPressed?_eq_none_iff.mp hfirst, isDown_released] at hdown
    cases hdown
  | some first =>
    -- of two lowest keys neither is below the other
    obtain ⟨hdown', hbelow'⟩ := lowest hfirst
    refine congrArg some (UInt8.le_antisymm ?_ ?_)
    · refine UInt8.not_lt.mp fun hlt => ?_
      rw [hbelow' key hlt] at hdown
      cases hdown
    · refine UInt8.not_lt.mp fun hlt => ?_
      rw [hbelow first hlt] at hdown'
      cases hdown'

/-! ## Moving a key -/

/-- A move, or the refusal of one, sets its own key if there is such a key, and leaves the
others. -/
theorem isDown_orUnchanged_move (k : Keypad) (key : UInt8) (isPressed : Bool) (other : UInt8) :
    (k.orUnchanged (k.move key isPressed)).isDown other =
      if key = other ∧ other.toNat < 16 then isPressed else k.isDown other := by
  by_cases hkey : key.toNat < 16
  · obtain ⟨k', hmove⟩ : ∃ k', k.move key isPressed = .ok k' := ⟨_, dif_pos hkey⟩
    have hiff : key = other ↔ key = other ∧ other.toNat < 16 :=
      ⟨fun h => ⟨h, h ▸ hkey⟩, And.left⟩
    rw [hmove, orUnchanged, isDown_move hmove]
    exact if_congr hiff rfl rfl
  · have hmove : k.move key isPressed = .error (.invalidKey key) := dif_neg hkey
    have hother : ¬ (key = other ∧ other.toNat < 16) := by
      rintro ⟨rfl, hlt⟩
      exact hkey hlt
    rw [hmove, orUnchanged, if_neg hother]

end Chip8.Keypad
