import Chip8.Fault

/-!
# The keypad

The sixteen keys `0` to `F`, each up or down. Numbers above fifteen name no key: pressing or
releasing one is refused, and it is never down.

## Shape of the laws

`isDown_move` says what an accepted event does to every key.
-/

namespace Chip8

/-- Which of the sixteen keys are down. -/
structure Keypad where
  down : Vector Bool 16
deriving DecidableEq

namespace Keypad

/-- The number of keys. -/
abbrev keyCount : Nat := 16

/-- The numbers of the keys, ascending. -/
def keys : List UInt8 :=
  (List.range 16).map UInt8.ofNat

/-- Every key up. -/
def released : Keypad :=
  ⟨Vector.replicate 16 false⟩

/-- The keypad with one key moved. -/
def move (k : Keypad) (key : UInt8) (isPressed : Bool) : Except Fault Keypad :=
  if h : key.toNat < 16 then
    .ok ⟨k.down.set key.toNat isPressed⟩
  else
    .error (.invalidKey key)

/-- The keypad with one key pressed. -/
def press (k : Keypad) (key : UInt8) : Except Fault Keypad :=
  k.move key true

/-- The keypad with one key released. -/
def release (k : Keypad) (key : UInt8) : Except Fault Keypad :=
  k.move key false

/-- Whether a key is down. -/
def isDown (k : Keypad) (key : UInt8) : Bool :=
  if h : key.toNat < 16 then k.down[key.toNat] else false

/-- The keys that are down, ascending. -/
def pressedKeys (k : Keypad) : List UInt8 :=
  keys.filter k.isDown

/-- The lowest key that is down. -/
def firstPressed? (k : Keypad) : Option UInt8 :=
  keys.find? k.isDown

/-- An accepted move sets its own key and leaves the others. -/
theorem isDown_move {k k' : Keypad} {key : UInt8} {isPressed : Bool}
    (h : k.move key isPressed = .ok k') (other : UInt8) :
    k'.isDown other = if key = other then isPressed else k.isDown other := by
  unfold move at h
  split at h
  next hk =>
    rw [← Except.ok.inj h]
    by_cases ho : key = other
    · subst ho
      simp [isDown, hk]
    · have hne : key.toNat ≠ other.toNat := fun e => ho (UInt8.toNat.inj e)
      simp only [isDown, if_neg ho]
      by_cases hl : other.toNat < 16
      · rw [dif_pos hl, dif_pos hl, Vector.getElem_set_ne _ _ hne]
      · rw [dif_neg hl, dif_neg hl]
  next => exact absurd h (by simp)

end Keypad

end Chip8
