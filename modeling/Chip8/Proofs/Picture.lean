import Chip8.Picture

/-!
# What painting leaves behind

A painted buffer is as long as it was. Every whole group of four bytes that has a cell shows the
colour of the cell. All other bytes are as they were, be it that they do not fill a group or that
there is no cell left for them.

## Shape of the proof

Painting takes one group and one cell at a time (`paintCells_cons_of_le`) and ends when either runs
out (`paintCells_of_lt`, `paintCells_nil`). What is said of a painted buffer follows by induction on
the cells with these three equations: of its groups (`group_paintCells`), of the bytes behind them
(`getElem?_paintCells_of_le`) and of painting once more (`paintCells_paintCells`).
-/

namespace Chip8.Picture

/-- The group of four bytes of a pixel, shorter or empty at the end of the buffer. -/
def group (buffer : List UInt8) (pixel : Nat) : List UInt8 :=
  (buffer.drop (4 * pixel)).take 4

/-- The picture that a buffer shows, told by the red of each pixel. -/
def shown (buffer : List UInt8) : Vector Bool 2048 :=
  Vector.ofFn fun pixel => (group buffer pixel).head? == some 0xFF

variable {buffer : List UInt8} {cells under : List Bool} {on : Bool} {i j : Nat}

@[simp] theorem length_colour (on : Bool) : (colour on).length = 4 := by
  cases on <;> rfl

/-- Its red tells whether the cell is lit. -/
theorem head?_colour (on : Bool) : ((colour on).head? == some 0xFF) = on := by
  cases on <;> rfl

/-! ## Groups and cells -/

/-- Without cells the buffer stays as it is. -/
theorem paintCells_nil (buffer : List UInt8) : paintCells buffer [] = buffer := by
  rw [paintCells]
  exact fun _ _ _ _ _ _ _ _ h => List.cons_ne_nil _ _ h.symm

/-- So does a buffer that is too short for a group. -/
theorem paintCells_of_lt (h : buffer.length < 4) : paintCells buffer cells = buffer := by
  rw [paintCells]
  rintro b₀ b₁ b₂ b₃ rest _ _ rfl -
  simp only [List.length_cons] at h
  omega

/-- Otherwise the first cell colours the first group, and the others what lies behind it. -/
theorem paintCells_cons_of_le (h : 4 ≤ buffer.length) :
    paintCells buffer (on :: cells) = colour on ++ paintCells (buffer.drop 4) cells := by
  match buffer, h with
  | _ :: _ :: _ :: _ :: _, _ => rfl

/-- A painted buffer is as long as it was. -/
@[simp] theorem length_paintCells (buffer : List UInt8) (cells : List Bool) :
    (paintCells buffer cells).length = buffer.length := by
  induction cells generalizing buffer with
  | nil => rw [paintCells_nil]
  | cons on cells ih =>
    by_cases h : 4 ≤ buffer.length
    · rw [paintCells_cons_of_le h, List.length_append, length_colour, ih, List.length_drop]
      omega
    · rw [paintCells_of_lt (Nat.not_le.mp h)]

/-- A whole group that has a cell shows its colour. -/
theorem group_paintCells (hgroup : j < buffer.length / 4) (hcell : j < cells.length) :
    group (paintCells buffer cells) j = colour cells[j] := by
  induction cells generalizing buffer j with
  | nil => cases hcell
  | cons on cells ih =>
    have hlong : 4 ≤ buffer.length := by omega
    rw [paintCells_cons_of_le hlong]
    cases j with
    | zero => simp [group]
    | succ j =>
      -- group `j + 1` of the whole is group `j` of what lies behind the first one
      have hrest : j < (buffer.drop 4).length / 4 := by
        rw [List.length_drop]
        omega
      have hskip : 4 * (j + 1) = (colour on).length + 4 * j := by
        rw [length_colour]
        omega
      rw [group, hskip, List.drop_length_add_append]
      exact ih hrest (Nat.lt_of_succ_lt_succ hcell)

/-- Where there is no whole group or no cell, a byte is as it was. -/
theorem getElem?_paintCells_of_le (h : 4 * min (buffer.length / 4) cells.length ≤ i) :
    (paintCells buffer cells)[i]? = buffer[i]? := by
  induction cells generalizing buffer i with
  | nil => rw [paintCells_nil]
  | cons on cells ih =>
    by_cases hlong : 4 ≤ buffer.length
    · rw [List.length_cons] at h
      have hbehind : 4 ≤ i := by omega
      have hrest : 4 * min ((buffer.drop 4).length / 4) cells.length ≤ i - 4 := by
        rw [List.length_drop]
        omega
      rw [paintCells_cons_of_le hlong, List.getElem?_append_right (by rwa [length_colour]),
        length_colour, ih hrest, List.getElem?_drop, Nat.add_sub_cancel' hbehind]
    · rw [paintCells_of_lt (Nat.not_le.mp hlong)]

/-- Of two pictures of the same size, one painted over the other, the second is seen. -/
theorem paintCells_paintCells (h : under.length = cells.length) :
    paintCells (paintCells buffer under) cells = paintCells buffer cells := by
  induction cells generalizing buffer under with
  | nil => rw [List.eq_nil_of_length_eq_zero h, paintCells_nil]
  | cons on cells ih =>
    obtain ⟨first, under, rfl⟩ := List.exists_cons_of_length_eq_add_one h
    by_cases hlong : 4 ≤ buffer.length
    · have hdrop : (paintCells buffer (first :: under)).drop 4 =
          paintCells (buffer.drop 4) under := by
        rw [paintCells_cons_of_le hlong]
        exact List.drop_left' (length_colour first)
      rw [paintCells_cons_of_le (by rwa [length_paintCells]), hdrop, ih (Nat.succ.inj h),
        paintCells_cons_of_le hlong]
    · rw [paintCells_of_lt (Nat.not_le.mp hlong)]

/-! ## Pictures -/

/-- Painting keeps the length of a buffer, makes each whole group that has a cell white or black and
leaves every other byte alone, those that do not fill a group and those behind the last cell. So
painting the same picture again changes nothing, and a buffer with a group for every cell shows the
picture. -/
theorem paint_exact (buffer : List UInt8) (cells : Vector Bool 2048) :
    (paint buffer cells).length = buffer.length ∧
    (∀ (j : Nat) (_ : j < 2048), j < buffer.length / 4 →
      group (paint buffer cells) j =
        if cells[j] then [0xFF, 0xFF, 0xFF, 0xFF] else [0x00, 0x00, 0x00, 0xFF]) ∧
    (∀ i, 4 * min (buffer.length / 4) 2048 ≤ i → (paint buffer cells)[i]? = buffer[i]?) ∧
    paint (paint buffer cells) cells = paint buffer cells ∧
    (8192 ≤ buffer.length → shown (paint buffer cells) = cells) := by
  have hgroup : ∀ (j : Nat) (_ : j < 2048), j < buffer.length / 4 →
      group (paint buffer cells) j = colour cells[j] := fun j hcell hwhole =>
    group_paintCells hwhole (by rwa [Vector.length_toList])
  refine ⟨length_paintCells buffer cells.toList, hgroup, ?_, paintCells_paintCells rfl, ?_⟩
  · intro i hbehind
    exact getElem?_paintCells_of_le (by rwa [Vector.length_toList])
  · intro hlong
    refine Vector.ext fun j hcell => ?_
    rw [shown, Vector.getElem_ofFn, hgroup j hcell (by omega), head?_colour]

/-- A buffer that is three bytes longer than the picture shows its last pixel and keeps the three
bytes. One that breaks off within the third pixel shows two and keeps what is there of the third. -/
theorem paint_exact_longAndShort :
    let cells : Vector Bool 2048 := Vector.ofFn fun j => j.val = 1 ∨ j.val = 2047
    let long : List UInt8 := List.replicate 8195 0x7F
    let short : List UInt8 := List.replicate 11 0x7F
    (2047 < long.length / 4 ∧ 4 * min (long.length / 4) 2048 ≤ 8194 ∧ 8192 ≤ long.length) ∧
    (1 < short.length / 4 ∧ 4 * min (short.length / 4) 2048 ≤ 8) ∧
    group (paint long cells) 2047 = [0xFF, 0xFF, 0xFF, 0xFF] ∧
    (paint long cells)[8194]? = some 0x7F ∧ shown (paint long cells) = cells ∧
    group (paint short cells) 0 = [0x00, 0x00, 0x00, 0xFF] ∧
    group (paint short cells) 1 = [0xFF, 0xFF, 0xFF, 0xFF] ∧
    (paint short cells)[8]? = some 0x7F := by
  intro cells long short
  obtain ⟨-, hgroup, hkept, -, hshown⟩ := paint_exact long cells
  obtain ⟨-, hgroup', hkept', -, -⟩ := paint_exact short cells
  have hlong : long.length = 8195 := List.length_replicate
  have hshort : short.length = 11 := List.length_replicate
  rw [hlong] at hgroup hkept hshown ⊢
  rw [hshort] at hgroup' hkept' ⊢
  refine ⟨by decide, by decide, ?_, ?_, hshown (by decide), ?_, ?_, ?_⟩
  · rw [hgroup 2047 (by decide) (by decide)]
    simp [cells]
  · rw [hkept 8194 (by decide)]
    exact List.getElem?_replicate_of_lt (by decide)
  · rw [hgroup' 0 (by decide) (by decide)]
    simp [cells]
  · rw [hgroup' 1 (by decide) (by decide)]
    simp [cells]
  · rw [hkept' 8 (by decide)]
    exact List.getElem?_replicate_of_lt (by decide)

end Chip8.Picture
