/-!
# The return stack

Sixteen slots for return addresses. The first `depth` of them are in use; the others keep what was
last stored in them.

## Shape of the operations

`push?` stores in the first free slot and `pop?` gives up the last one in use. Each answers `none`
when the stack cannot serve it, so the depth never leaves its range.
-/

namespace Chip8

/-- Return addresses of the calls that are under way. -/
@[ext]
structure ReturnStack where
  slots : Vector UInt16 16
  /-- The number of slots in use. -/
  depth : Nat
  depth_le : depth ≤ 16 := by omega
deriving DecidableEq

namespace ReturnStack

/-- The number of slots. -/
abbrev capacity : Nat := 16

/-- No slot in use, all slots zero. -/
def empty : ReturnStack :=
  { slots := Vector.replicate 16 0, depth := 0 }

/-- The stack with one more return address, unless all slots are in use. -/
def push? (s : ReturnStack) (address : UInt16) : Option ReturnStack :=
  if h : s.depth < 16 then
    some { slots := s.slots.set s.depth address, depth := s.depth + 1 }
  else
    none

/-- The last return address and the stack without it, unless no slot is in use. -/
def pop? (s : ReturnStack) : Option (UInt16 × ReturnStack) :=
  if h : 0 < s.depth then
    have hd := s.depth_le
    some (s.slots[s.depth - 1], { slots := s.slots, depth := s.depth - 1 })
  else
    none

/-! ## What push and pop do to the slots -/

/-- A push brings one more slot into use. -/
theorem depth_push? {s t : ReturnStack} {address : UInt16} (h : s.push? address = some t) :
    t.depth = s.depth + 1 := by
  unfold push? at h
  split at h
  · rw [← Option.some.inj h]
  · exact absurd h (by simp)

/-- A push fills the first free slot and touches no other. -/
theorem getElem?_push? {s t : ReturnStack} {address : UInt16} (h : s.push? address = some t)
    (k : Nat) : t.slots[k]? = if k = s.depth then some address else s.slots[k]? := by
  unfold push? at h
  split at h
  next hd =>
    rw [← Option.some.inj h]
    by_cases hk : k = s.depth
    · subst hk
      simp [hd]
    · simp [hk, Ne.symm hk]
  next => exact absurd h (by simp)

/-- A pop gives up the last slot in use and leaves the contents of all slots as they are. -/
theorem pop?_eq_some {s t : ReturnStack} {address : UInt16} (h : s.pop? = some (address, t)) :
    s.depth = t.depth + 1 ∧ t.slots = s.slots ∧ s.slots[t.depth]? = some address := by
  unfold pop? at h
  split at h
  next hd =>
    simp only [Option.some.injEq, Prod.mk.injEq] at h
    obtain ⟨ha, ht⟩ := h
    have hlt : s.depth - 1 < 16 := by
      have := s.depth_le
      omega
    subst ht
    refine ⟨by simp only; omega, rfl, ?_⟩
    simp only
    rw [Vector.getElem?_eq_getElem hlt, ha]
  next => exact absurd h (by simp)

end ReturnStack

end Chip8
