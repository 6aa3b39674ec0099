/-!
# The framebuffer

64 by 32 pixels in row-major order, and a mark that says whether the picture may have changed since
the host last looked.

## Shape of an access

An index of any size names a cell by its remainder modulo 2048. `set`, `toggle` and `clear` raise
the mark, also when no cell changes its value; `takeDirty` reports and lowers it. `get_set` and
`get_toggle` are the read-back laws.
-/

namespace Chip8

/-- The picture, and whether it was touched since the mark was last taken. -/
structure Framebuffer where
  cells : Vector Bool 2048
  dirty : Bool
deriving DecidableEq

namespace Framebuffer

/-- The pixels of one row. -/
abbrev width : Nat := 64

/-- The number of rows. -/
abbrev height : Nat := 32

/-- The number of cells. -/
abbrev size : Nat := 2048

/-- A blank picture that nobody has looked at. -/
def blank : Framebuffer :=
  ⟨Vector.replicate 2048 false, true⟩

/-- The cell that an index names. -/
def cell (index : Nat) : Fin 2048 :=
  ⟨index % 2048, Nat.mod_lt _ (by decide)⟩

/-- Whether a cell is lit. -/
def get (f : Framebuffer) (index : Nat) : Bool :=
  f.cells[cell index]

/-- Every cell off. -/
def clear (_f : Framebuffer) : Framebuffer :=
  ⟨Vector.replicate 2048 false, true⟩

/-- One cell switched on or off. -/
def set (f : Framebuffer) (index : Nat) (on : Bool) : Framebuffer :=
  ⟨f.cells.set (cell index) on, true⟩

/-- One cell inverted, with the value it had before. -/
def toggle (f : Framebuffer) (index : Nat) : Bool × Framebuffer :=
  let was := f.get index
  (was, ⟨f.cells.set (cell index) !was, true⟩)

/-- The cells at all of the indices inverted one after the other, and whether one of them was lit
when its turn came. -/
def toggleAll (f : Framebuffer) : List Nat → Bool × Framebuffer
  | [] => (false, f)
  | i :: is =>
    let (was, f) := f.toggle i
    let (hit, f) := f.toggleAll is
    (was || hit, f)

/-- Whether the picture was touched since the last call, and the picture with the mark lowered. -/
def takeDirty (f : Framebuffer) : Bool × Framebuffer :=
  (f.dirty, { f with dirty := false })

/-- The indices of the lit cells, ascending. -/
def lit (f : Framebuffer) : List Nat :=
  (List.range 2048).filter f.get

/-! ## Reading back -/

/-- Two indices name one cell exactly if they agree modulo the number of cells. -/
theorem cell_eq_iff {i j : Nat} : cell i = cell j ↔ i % 2048 = j % 2048 := by
  simp [cell]

/-- Nothing is lit after a clear. -/
theorem get_clear (f : Framebuffer) (i : Nat) : f.clear.get i = false := by
  simp [clear, get]

/-- A cell reads back what was last set; the others are as before. -/
theorem get_set (f : Framebuffer) (i j : Nat) (on : Bool) :
    (f.set i on).get j = if cell i = cell j then on else f.get j := by
  simp only [get, set, Fin.getElem_fin]
  rw [Vector.getElem_set]
  by_cases h : cell i = cell j
  · rw [if_pos h, if_pos (congrArg Fin.val h)]
  · rw [if_neg h, if_neg fun h' => h (Fin.ext h')]

theorem toggle_fst (f : Framebuffer) (i : Nat) : (f.toggle i).1 = f.get i := rfl

theorem toggle_snd (f : Framebuffer) (i : Nat) : (f.toggle i).2 = f.set i !(f.get i) := rfl

/-- Toggling inverts one cell and leaves the others. -/
theorem get_toggle (f : Framebuffer) (i j : Nat) :
    (f.toggle i).2.get j = (f.get j != decide (cell i = cell j)) := by
  rw [toggle_snd, get_set]
  by_cases h : cell i = cell j
  · have hg : f.get i = f.get j := by simp only [get, h]
    simp [h, hg]
  · simp [h]

end Framebuffer

end Chip8
