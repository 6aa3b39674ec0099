import Chip8.Proofs.Keypad.Events

/-!
# The keypad as a mask

The sixteen keys in one word, with a bit for each. A press sets its bit by an or, a release clears
it by an and with the complement; each is a single change of the word, which other clients see as a
whole or not at all.

## Shape of the proof

`keypad` reads a word as a keypad. It goes with every operation (`map_keypad_apply`) and every
reader of a mask says what the keypad says. All of them come down to one bit of the word: the test
of a key (`and_bit_ne_zero`), and the count of trailing zeros by the two laws that the lowest set
bit is set and that none below it is.
-/

namespace Chip8

/-- The sixteen keys as the bits of a word. -/
structure KeyMask where
  bits : BitVec 16
deriving DecidableEq

namespace KeyMask

/-- All keys up. -/
def empty : KeyMask := ⟨0#16⟩

/-- The bit of a key, unless there is no such key. -/
def bit (key : UInt8) : Except Fault (BitVec 16) :=
  if key.toNat < 16 then .ok (1#16 <<< key.toNat) else .error (.invalidKey key)

/-- The mask with one key pressed. -/
def press (m : KeyMask) (key : UInt8) : Except Fault KeyMask :=
  (bit key).map fun bit => ⟨m.bits ||| bit⟩

/-- The mask with one key released. -/
def release (m : KeyMask) (key : UInt8) : Except Fault KeyMask :=
  (bit key).map fun bit => ⟨m.bits &&& ~~~bit⟩

/-- Whether a key is down. -/
def isDown (m : KeyMask) (key : UInt8) : Bool :=
  match bit key with
  | .ok bit => m.bits &&& bit != 0#16
  | .error _ => false

/-- The keys that are down, ascending. -/
def pressedKeys (m : KeyMask) : List UInt8 :=
  Keypad.keys.filter fun key => m.bits &&& (1#16 <<< key.toNat) != 0#16

/-- The lowest key that is down: as many as the word has trailing zeros. -/
def firstPressed? (m : KeyMask) : Option UInt8 :=
  if m.bits = 0#16 then none else some (UInt8.ofNat m.bits.ctz.toNat)

/-- The mask after an event, unless the event names no key. -/
def apply (m : KeyMask) : KeyEvent → Except Fault KeyMask
  | .press key => m.press key
  | .release key => m.release key

/-- The mask after a list of events. An event that is refused changes nothing. -/
def after (m : KeyMask) (events : List KeyEvent) : KeyMask :=
  events.foldl (fun m e => (m.apply e).toOption.getD m) m

/-- The keypad that a mask stands for. -/
def keypad (m : KeyMask) : Keypad :=
  ⟨Vector.ofFn fun n => m.bits.getLsbD n⟩

variable {m : KeyMask} {key : UInt8}

/-! ## Bits -/

/-- A key of the pad has the bit of its number. -/
theorem bit_of_lt (h : key.toNat < 16) : bit key = .ok (1#16 <<< key.toNat) :=
  if_pos h

/-- A number that names no key has no bit. -/
theorem bit_of_le (h : 16 ≤ key.toNat) : bit key = .error (.invalidKey key) :=
  if_neg (Nat.not_lt.mpr h)

/-- The bit of a key is a single one. -/
theorem getLsbD_one_shiftLeft {n : Nat} (hn : n < 16) (i : Nat) :
    (1#16 <<< n).getLsbD i = decide (n = i) := by
  rw [← BitVec.twoPow_eq, BitVec.getLsbD_twoPow, decide_eq_true hn, Bool.true_and]

/-- A word has a bit in common with a single bit exactly if it has that bit. -/
theorem and_bit_ne_zero (bits : BitVec 16) (n : Nat) :
    (bits &&& (1#16 <<< n) != 0#16) = bits.getLsbD n := by
  rw [← BitVec.twoPow_eq, BitVec.and_twoPow]
  by_cases hbit : bits.getLsbD n = true
  · have hn := BitVec.lt_of_getLsbD hbit
    have hset : (BitVec.twoPow 16 n).getLsbD n = true := by
      simp [hn]
    have hne : BitVec.twoPow 16 n ≠ 0#16 := by
      intro hzero
      rw [hzero, BitVec.getLsbD_zero] at hset
      cases hset
    rw [if_pos hbit, hbit]
    exact bne_iff_ne.mpr hne
  · rw [if_neg hbit, Bool.eq_false_iff.mpr hbit]
    exact bne_self_eq_false _

/-- A key of the pad is down exactly if its bit is set. -/
theorem isDown_keypad (m : KeyMask) (key : UInt8) :
    m.keypad.isDown key = m.bits.getLsbD key.toNat := by
  unfold Keypad.isDown
  split
  next h => exact Vector.getElem_ofFn h
  next h => exact (BitVec.getLsbD_of_ge _ _ (Nat.not_lt.mp h)).symm

/-! ## Operations -/

/-- The empty word is the pad with all keys up. -/
theorem keypad_empty : empty.keypad = .released := by
  refine Keypad.ext_isDown fun key _ => ?_
  rw [isDown_keypad, Keypad.isDown_released]
  exact BitVec.getLsbD_zero

/-- To press a key is to set its bit. -/
theorem map_keypad_press (m : KeyMask) (key : UInt8) :
    (m.press key).map keypad = m.keypad.press key := by
  by_cases hkey : key.toNat < 16
  · obtain ⟨k, hk⟩ : ∃ k, m.keypad.press key = .ok k := ⟨_, dif_pos hkey⟩
    rw [hk, press, bit_of_lt hkey]
    refine congrArg Except.ok (Keypad.ext_isDown fun other _ => ?_)
    rw [Keypad.isDown_move hk, isDown_keypad, isDown_keypad, BitVec.getLsbD_or,
      getLsbD_one_shiftLeft hkey]
    by_cases h : key = other
    · simp [h]
    · have hne : key.toNat ≠ other.toNat := fun e => h (UInt8.toNat.inj e)
      simp [h, hne]
  · have hk : m.keypad.press key = .error (.invalidKey key) := dif_neg hkey
    rw [hk, press, bit_of_le (Nat.not_lt.mp hkey)]
    rfl

/-- To release a key is to clear its bit, and no other. -/
theorem map_keypad_release (m : KeyMask) (key : UInt8) :
    (m.release key).map keypad = m.keypad.release key := by
  by_cases hkey : key.toNat < 16
  · obtain ⟨k, hk⟩ : ∃ k, m.keypad.release key = .ok k := ⟨_, dif_pos hkey⟩
    rw [hk, release, bit_of_lt hkey]
    refine congrArg Except.ok (Keypad.ext_isDown fun other hother => ?_)
    rw [Keypad.isDown_move hk, isDown_keypad, isDown_keypad, BitVec.getLsbD_and,
      BitVec.getLsbD_not, getLsbD_one_shiftLeft hkey]
    by_cases h : key = other
    · simp [h]
    · have hne : key.toNat ≠ other.toNat := fun e => h (UInt8.toNat.inj e)
      simp [h, hne, hother]
  · have hk : m.keypad.release key = .error (.invalidKey key) := dif_neg hkey
    rw [hk, release, bit_of_le (Nat.not_lt.mp hkey)]
    rfl

/-- An event does the same to a mask and to the keypad that the mask is read as. -/
theorem map_keypad_apply (m : KeyMask) (e : KeyEvent) :
    (m.apply e).map keypad = e.apply m.keypad := by
  cases e with
  | press key => exact map_keypad_press m key
  | release key => exact map_keypad_release m key

/-- The mask and the keypad go through the same events alike. -/
theorem keypad_after (m : KeyMask) (events : List KeyEvent) :
    (m.after events).keypad = m.keypad.after events := by
  induction events generalizing m with
  | nil => rfl
  | cons e es ih =>
    have hstep : ((m.apply e).toOption.getD m).keypad =
        m.keypad.orUnchanged (e.apply m.keypad) := by
      rw [← map_keypad_apply]
      cases m.apply e <;> rfl
    rw [Keypad.after_cons, ← hstep]
    exact ih _

/-! ## Readers -/

/-- A mask and its keypad agree on every key. -/
theorem isDown_eq (m : KeyMask) (key : UInt8) : m.isDown key = m.keypad.isDown key := by
  unfold isDown
  by_cases hkey : key.toNat < 16
  · rw [bit_of_lt hkey, isDown_keypad]
    exact and_bit_ne_zero _ _
  · rw [bit_of_le (Nat.not_lt.mp hkey), Keypad.isDown_of_le (Nat.not_lt.mp hkey)]

theorem pressedKeys_eq (m : KeyMask) : m.pressedKeys = m.keypad.pressedKeys := by
  refine List.filter_congr fun key _ => ?_
  rw [and_bit_ne_zero, isDown_keypad]

/-- The trailing zeros of a word count up to its lowest key that is down. -/
theorem firstPressed?_eq (m : KeyMask) : m.firstPressed? = m.keypad.firstPressed? := by
  unfold firstPressed?
  split
  next hzero =>
    have hup : m.keypad = .released := by
      refine Keypad.eq_released_iff.mpr fun key => ?_
      rw [isDown_keypad, hzero]
      exact BitVec.getLsbD_zero
    exact (Keypad.firstPressed?_eq_none_iff.mpr hup).symm
  next hne =>
    have hset := BitVec.getLsbD_true_ctz_of_ne_zero hne
    have hlt := BitVec.lt_of_getLsbD hset
    have hkey : (UInt8.ofNat m.bits.ctz.toNat).toNat = m.bits.ctz.toNat := by
      rw [UInt8.toNat_ofNat']
      omega
    refine (Keypad.firstPressed?_eq_some_iff.mpr ⟨?_, fun other hother => ?_⟩).symm
    · rw [isDown_keypad, hkey]
      exact hset
    · rw [isDown_keypad]
      refine BitVec.getLsbD_false_of_lt_ctz ?_
      rw [← hkey]
      exact UInt8.lt_iff_toNat_lt.mp hother

end KeyMask

end Chip8
