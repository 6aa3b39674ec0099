import Chip8.Overwrite

/-!
# Registers

The sixteen byte registers V0 to VF. VF doubles as the flag register.

## Shape of an access

A register is named by the low four bits of a number, so every access hits a register. `get_set` is
the read-back law; `first` and `fill` move a leading block of registers to and from a list.
-/

namespace Chip8

/-- The registers V0 to VF. -/
structure Registers where
  values : Vector UInt8 16
deriving DecidableEq

namespace Registers

/-- The number of registers. -/
abbrev count : Nat := 16

/-- The number of the flag register. -/
abbrev flag : UInt8 := 0xF

/-- All registers zero. -/
def zero : Registers :=
  ⟨Vector.replicate 16 0⟩

/-- Which register a number names. -/
def slot (x : UInt8) : Fin 16 :=
  ⟨x.toNat % 16, Nat.mod_lt _ (by decide)⟩

/-- The value of a register. -/
def get (r : Registers) (x : UInt8) : UInt8 :=
  r.values[slot x]

/-- The registers with a new value in one of them. -/
def set (r : Registers) (x value : UInt8) : Registers :=
  ⟨r.values.set (slot x) value⟩

/-- The registers with a value in Vx and a truth value in the flag. When x is the flag register the
value wins. -/
def setWithFlag (r : Registers) (x value : UInt8) (up : Bool) : Registers :=
  (r.set flag up.toUInt8).set x value

/-- The values of the first `n` registers. -/
def first (r : Registers) (n : Nat) : List UInt8 :=
  r.values.toList.take n

/-- The registers with `xs` stored from V0 on. -/
def fill (r : Registers) (xs : List UInt8) : Registers :=
  ⟨overwrite r.values 0 xs⟩

/-! ## Reading back -/

/-- A register is read by its number. -/
theorem get_ofNat (r : Registers) {k : Nat} (hk : k < 16) :
    r.get (UInt8.ofNat k) = r.values[k] := by
  have hs : slot (UInt8.ofNat k) = ⟨k, hk⟩ := by
    apply Fin.ext
    simp only [slot, UInt8.toNat_ofNat']
    omega
  simp only [get, hs, Fin.getElem_fin]

/-- Registers that read the same under all sixteen names are equal. -/
@[ext] theorem ext_get {r₁ r₂ : Registers} (h : ∀ x : UInt8, x < 16 → r₁.get x = r₂.get x) :
    r₁ = r₂ := by
  obtain ⟨v₁⟩ := r₁
  obtain ⟨v₂⟩ := r₂
  congr 1
  refine Vector.ext fun i hi => ?_
  have hx : (UInt8.ofNat i).toNat = i := by
    rw [UInt8.toNat_ofNat']
    omega
  have h' := h (UInt8.ofNat i) (by rw [UInt8.lt_iff_toNat_lt, hx]; exact hi)
  rw [get_ofNat _ hi, get_ofNat _ hi] at h'
  exact h'

/-- The values of the first registers, by position. -/
theorem getElem?_first (r : Registers) {n : Nat} (hn : n ≤ 16) (k : Nat) :
    (r.first n)[k]? = if k < n then some (r.get (UInt8.ofNat k)) else none := by
  rw [first, List.getElem?_take]
  by_cases hk : k < n
  · have hlt : k < 16 := Nat.lt_of_lt_of_le hk hn
    rw [if_pos hk, if_pos hk, get_ofNat _ hlt, Vector.getElem?_toList,
      Vector.getElem?_eq_getElem hlt]
  · rw [if_neg hk, if_neg hk]

/-- A register reads back what was last set; the others are as before. -/
theorem get_set (r : Registers) (x y value : UInt8) :
    (r.set x value).get y = if slot x = slot y then value else r.get y := by
  simp only [get, set, Fin.getElem_fin]
  rw [Vector.getElem_set]
  by_cases h : slot x = slot y
  · rw [if_pos h, if_pos (congrArg Fin.val h)]
  · rw [if_neg h, if_neg fun h' => h (Fin.ext h')]

/-- A register holds what was written last. -/
@[simp] theorem get_set_self (r : Registers) (x value : UInt8) : (r.set x value).get x = value := by
  rw [get_set, if_pos rfl]

/-- A write leaves every other register alone. -/
theorem get_set_of_ne {x y : UInt8} (h : slot x ≠ slot y) (r : Registers) (value : UInt8) :
    (r.set x value).get y = r.get y := by
  rw [get_set, if_neg h]

end Registers

end Chip8
