import Chip8.Proofs.Machine.Step
import Mathlib.Algebra.BigOperators.Group.Finset.Piecewise
import Mathlib.Algebra.BigOperators.Group.Finset.Sigma
import Mathlib.Algebra.Ring.Parity

/-!
# What a draw does to the picture

A draw inverts framebuffer cells one after the other, and looks at each of them when its turn comes.
The closed form needs only how often each cell's turn comes: the picture afterwards is the parity of
that number, and the flag says that some cell was lit at one of its turns.

## Shape of the proof

`hits` counts the turns of a cell in a list of indices. `get_toggleAll` and `toggleAll_fst_iff` are
the two invariants of the loop, by induction on the list. `hits_indices` then counts the same turns
from the outside, as pairs of a row and a column whose pixel is set (`Machine.pixelCount`). A sprite
of at most 32 rows never comes back to a cell (`pixelCount_le_one`).
-/

namespace Chip8

namespace Framebuffer

/-- How often a list of indices names a cell. -/
def hits (indices : List Nat) (p : Nat) : Nat :=
  indices.countP fun i => cell i = cell p

/-- One more index hits its own cell once more. -/
theorem hits_cons (i : Nat) (is : List Nat) (p : Nat) :
    hits (i :: is) p = hits is p + if cell i = cell p then 1 else 0 := by
  simp only [hits, List.countP_cons, decide_eq_true_eq]

theorem hits_append (is js : List Nat) (p : Nat) : hits (is ++ js) p = hits is p + hits js p :=
  List.countP_append

/-- Two names of a cell are hit alike. -/
theorem hits_congr {is : List Nat} {p q : Nat} (h : cell p = cell q) : hits is p = hits is q := by
  rw [hits, hits, h]

/-- Two names of a cell show the same. -/
theorem get_congr (f : Framebuffer) {i p : Nat} (h : cell i = cell p) : f.get i = f.get p := by
  simp only [get, h]

/-- Toggles in two parts are toggles one after the other; something was hit if it was in either
part. -/
theorem toggleAll_append (f : Framebuffer) (first second : List Nat) :
    f.toggleAll (first ++ second) =
      ((f.toggleAll first).1 || ((f.toggleAll first).2.toggleAll second).1,
        ((f.toggleAll first).2.toggleAll second).2) := by
  induction first generalizing f with
  | nil => simp [toggleAll]
  | cons i is ih => simp only [List.cons_append, toggleAll, ih, Bool.or_assoc]

/-- A cell is inverted once for each of its turns. -/
theorem get_toggleAll (f : Framebuffer) (is : List Nat) (p : Nat) :
    (f.toggleAll is).2.get p = (f.get p ^^ decide (Odd (hits is p))) := by
  induction is generalizing f with
  | nil => simp [toggleAll, hits]
  | cons i is ih =>
    rw [toggleAll, hits_cons]
    simp only [ih, get_toggle]
    by_cases h : cell i = cell p
    · simp only [h, if_true, decide_true, Nat.odd_add_one]
      by_cases ho : Odd (hits is p)
      · simp only [ho, not_true, decide_true, decide_false]
        cases f.get p <;> rfl
      · simp only [ho, not_false_iff, decide_true, decide_false]
        cases f.get p <;> rfl
    · simp [h]

/-- A lit cell is met exactly if some cell is lit or has a turn twice in all. -/
theorem toggleAll_fst_iff (f : Framebuffer) (is : List Nat) :
    (f.toggleAll is).1 = true ↔ ∃ p, 2 ≤ (f.get p).toNat + hits is p := by
  induction is generalizing f with
  | nil =>
    simp only [toggleAll, hits, List.countP_nil, Bool.false_eq_true, false_iff, not_exists]
    intro p
    have := (f.get p).toNat_le
    omega
  | cons i is ih =>
    rw [toggleAll]
    simp only [toggle_fst, Bool.or_eq_true, ih]
    by_cases hi : f.get i = true
    · -- the first turn meets a lit cell, which counts twice: once as lit, once for this turn
      refine iff_of_true (Or.inl hi) ⟨i, ?_⟩
      rw [hits_cons, if_pos rfl, hi]
      simp only [Bool.toNat_true]
      omega
    · -- the first turn lights its cell, so the turn and the light change places in the sum
      have same : ∀ p, ((f.toggle i).2.get p).toNat + hits is p =
          (f.get p).toNat + hits (i :: is) p := by
        intro p
        rw [get_toggle, hits_cons]
        by_cases h : cell i = cell p
        · have hp : f.get p = false := by
            rw [← get_congr f h]
            simpa using hi
          simp [h, hp, Nat.add_comm]
        · simp [h]
      simp only [hi, same, false_or, Bool.false_eq_true]

end Framebuffer

/-! ## The turns of a cell in a sprite -/

namespace Sprite

/-- The turns of a cell in one row are the set columns that land on it. -/
private theorem hits_row (x y p : Nat) (row : UInt8) :
    Framebuffer.hits ((columns row).map fun column => x + column + y * Framebuffer.width) p =
      ((Finset.range 8).filter fun column =>
        isSet row column = true ∧ (x + column + 64 * y) % 2048 = p % 2048).card := by
  rw [Framebuffer.hits, List.countP_map, columns, List.countP_filter]
  calc (List.range 8).countP _
      = (List.range 8).countP fun column => decide
          (isSet row column = true ∧ (x + column + 64 * y) % 2048 = p % 2048) := by
        apply List.countP_congr
        intro column _
        simp [Framebuffer.cell_eq_iff, Framebuffer.width, and_comm, Nat.mul_comm]
    _ = _ := by
        rw [List.countP_eq_length_filter]
        rfl

/-- The turns of a cell in a sprite, row by row. -/
theorem hits_indices (x y p : Nat) (sprite : List UInt8) :
    Framebuffer.hits (indices x y sprite) p =
      ∑ row ∈ Finset.range sprite.length, ((Finset.range 8).filter fun column =>
        isSet (sprite.getD row 0) column = true ∧
          (x + column + 64 * (y + row)) % 2048 = p % 2048).card := by
  induction sprite generalizing y with
  | nil => rfl
  | cons row rows ih =>
    rw [indices, Framebuffer.hits_append, hits_row, ih, List.length_cons, Finset.sum_range_succ',
      Nat.add_comm]
    simp only [List.getD_cons_succ, List.getD_cons_zero, Nat.add_zero, Nat.add_assoc,
      Nat.add_comm 1]

end Sprite

namespace Machine

variable {m : Machine} {x y n : UInt8}

/-- Whether the sprite at the index register has a set pixel in a row and a column. -/
def spritePixel (m : Machine) (row column : Nat) : Bool :=
  (m.memory.get (m.index.toNat + row)).toNat.testBit (7 - column)

/-- The cell that a row and a column of a sprite drawn at (Vx, Vy) falls on. -/
def spriteCell (m : Machine) (x y : UInt8) (row column : Nat) : Nat :=
  ((m.v x).toNat + column + 64 * ((m.v y).toNat + row)) % 2048

/-- The number of set pixels among the first `n` rows of the sprite that fall on a cell. -/
def pixelCount (m : Machine) (x y n : UInt8) (p : Nat) : Nat :=
  ((Finset.range n.toNat ×ˢ Finset.range 8).filter fun pixel =>
    m.spritePixel pixel.1 pixel.2 = true ∧ m.spriteCell x y pixel.1 pixel.2 = p).card

/-- The machine after the rows of a sprite are drawn at (Vx, Vy). -/
def drawn (m : Machine) (x y : UInt8) (sprite : List UInt8) : Machine :=
  let drawing := m.screen.toggleAll (Sprite.indices (m.v x).toNat (m.v y).toNat sprite)
  { m.withRegisters (m.registers.set Registers.flag drawing.1.toUInt8) with screen := drawing.2 }

theorem draw_eq_map (m : Machine) (x y n : UInt8) :
    m.draw x y n = (m.sprite n).map (m.drawn x y) := rfl

/-- A sprite that ends within memory can be read, and so can one without rows. -/
theorem sprite_of_le (h : n = 0 ∨ m.index.toNat + n.toNat ≤ 4096) :
    m.sprite n = .ok (m.memory.read m.index.toNat n.toNat) := by
  by_cases hn : n = 0
  · subst hn
    rw [sprite, if_pos rfl]
    rfl
  · have hle := h.resolve_left hn
    rw [sprite, if_neg hn, Memory.span_eq_ok_iff.mpr ⟨hle, rfl⟩]
    rfl

/-- A draw is made exactly if its sprite can be read, and is then what the sprite makes of the
screen. -/
theorem draw_eq_ok_iff {m' : Machine} :
    m.draw x y n = .ok m' ↔ (n = 0 ∨ m.index.toNat + n.toNat ≤ 4096) ∧
      m' = m.drawn x y (m.memory.read m.index.toNat n.toNat) := by
  by_cases h : n = 0 ∨ m.index.toNat + n.toNat ≤ 4096
  · rw [draw_eq_map, sprite_of_le h]
    simp [h, Except.map, eq_comm]
  · obtain ⟨hn, hlt⟩ := not_or.mp h
    have hf : m.spanFault? n.toNat = some (.outOfMemory (m.index.toNat + n.toNat - 1)) := by
      rw [spanFault?, if_pos (Nat.not_le.mp hlt)]
    rw [draw_eq_error_iff.mpr ⟨hn, hf⟩]
    simp [h]

/-- The turns of a cell in the list that a draw goes through are the pixels that fall on it. -/
theorem hits_eq_pixelCount {p : Nat} (hp : p < 2048) :
    Framebuffer.hits (Sprite.indices (m.v x).toNat (m.v y).toNat
      (m.memory.read m.index.toNat n.toNat)) p = m.pixelCount x y n p := by
  rw [Sprite.hits_indices, pixelCount, Finset.card_filter, Finset.sum_product, Memory.length_read]
  apply Finset.sum_congr rfl
  intro row hrow
  have hrow' : row < (m.memory.read m.index.toNat n.toNat).length := by
    rw [Memory.length_read]
    exact Finset.mem_range.mp hrow
  have hbyte : (m.memory.read m.index.toNat n.toNat).getD row 0 =
      m.memory.get (m.index.toNat + row) := by
    rw [List.getD_eq_getElem?_getD, List.getElem?_eq_getElem hrow', Option.getD_some,
      Memory.getElem_read]
  rw [Finset.card_filter, hbyte, Nat.mod_eq_of_lt hp]
  rfl

/-- Up to 32 rows, no two pixels of a sprite fall on one cell. -/
theorem pixelCount_le_one (hn : n.toNat ≤ 32) (p : Nat) : m.pixelCount x y n p ≤ 1 := by
  rw [pixelCount, Finset.card_le_one]
  rintro ⟨row, column⟩ h ⟨row', column'⟩ h'
  simp only [Finset.mem_filter, Finset.mem_product, Finset.mem_range] at h h'
  obtain ⟨⟨hr, hc⟩, -, hp⟩ := h
  obtain ⟨⟨hr', hc'⟩, -, hp'⟩ := h'
  rw [spriteCell] at hp hp'
  -- two pixels are less than 32 rows of 64 cells apart, so they cannot differ by 2048
  have hrow : row = row' := by omega
  have hcolumn : column = column' := by omega
  rw [hrow, hcolumn]

/-- A cell has a pixel falling on it exactly if the count is not zero. -/
theorem pixelCount_pos_iff {p : Nat} :
    0 < m.pixelCount x y n p ↔ ∃ row < n.toNat, ∃ column < 8,
      m.spritePixel row column = true ∧ m.spriteCell x y row column = p := by
  rw [pixelCount, Finset.card_pos]
  constructor
  · rintro ⟨⟨row, column⟩, h⟩
    simp only [Finset.mem_filter, Finset.mem_product, Finset.mem_range] at h
    exact ⟨row, h.1.1, column, h.1.2, h.2⟩
  · rintro ⟨row, hrow, column, hcolumn, h⟩
    refine ⟨(row, column), ?_⟩
    simp only [Finset.mem_filter, Finset.mem_product, Finset.mem_range]
    exact ⟨⟨hrow, hcolumn⟩, h⟩

/-- Up to 32 rows, a cell is inverted exactly if a set pixel falls on it. -/
theorem odd_pixelCount_iff (hn : n.toNat ≤ 32) {p : Nat} :
    Odd (m.pixelCount x y n p) ↔ ∃ row < n.toNat, ∃ column < 8,
      m.spritePixel row column = true ∧ m.spriteCell x y row column = p := by
  have hone := pixelCount_le_one (m := m) (x := x) (y := y) hn p
  rw [← pixelCount_pos_iff]
  constructor
  · rintro ⟨k, hk⟩
    omega
  · intro hpos
    have hcount : m.pixelCount x y n p = 1 := by omega
    rw [hcount]
    exact odd_one

/-- Executed, a draw whose sprite can be read is made. -/
theorem execute_draw_eq (h : n = 0 ∨ m.index.toNat + n.toNat ≤ 4096) :
    m.execute (.draw x y n) = .ok (m.drawn x y (m.memory.read m.index.toNat n.toNat)) := by
  rw [execute, draw_eq_map, sprite_of_le h]
  rfl

/-- The picture afterwards, cell by cell. -/
theorem get_screen_drawn {p : Nat} (hp : p < 2048) :
    (m.drawn x y (m.memory.read m.index.toNat n.toNat)).screen.get p =
      (m.screen.get p ^^ decide (Odd (m.pixelCount x y n p))) := by
  rw [← hits_eq_pixelCount hp, ← Framebuffer.get_toggleAll]
  rfl

/-- Up to 32 rows, the cells that change are those that a set pixel falls on. -/
theorem get_screen_drawn_ne_iff (hn : n.toNat ≤ 32) {p : Nat} (hp : p < 2048) :
    (m.drawn x y (m.memory.read m.index.toNat n.toNat)).screen.get p ≠ m.screen.get p ↔
      ∃ row < n.toNat, ∃ column < 8,
        m.spritePixel row column = true ∧ m.spriteCell x y row column = p := by
  rw [get_screen_drawn hp, ← odd_pixelCount_iff hn]
  by_cases hodd : Odd (m.pixelCount x y n p) <;> cases m.screen.get p <;> simp [hodd]

/-- The loop meets a lit cell exactly if some cell is lit or has a pixel falling on it twice in
all. -/
private theorem toggleAll_fst_iff_pixelCount :
    (m.screen.toggleAll (Sprite.indices (m.v x).toNat (m.v y).toNat
      (m.memory.read m.index.toNat n.toNat))).1 = true ↔
      ∃ p : Nat, p < 2048 ∧ 2 ≤ (m.screen.get p).toNat + m.pixelCount x y n p := by
  rw [Framebuffer.toggleAll_fst_iff]
  constructor
  · rintro ⟨p, hp⟩
    -- a cell beyond the last one is another name of a cell of the picture
    have hlt : p % 2048 < 2048 := Nat.mod_lt _ (by decide)
    have hc : Framebuffer.cell p = Framebuffer.cell (p % 2048) :=
      Framebuffer.cell_eq_iff.mpr (Nat.mod_mod _ _).symm
    refine ⟨p % 2048, hlt, ?_⟩
    rw [← hits_eq_pixelCount hlt, ← Framebuffer.get_congr _ hc, ← Framebuffer.hits_congr hc]
    exact hp
  · rintro ⟨p, hlt, hp⟩
    rw [← hits_eq_pixelCount hlt] at hp
    exact ⟨p, hp⟩

/-- Where no cell is hit twice, a cell that counts twice is a lit one with a pixel on it. -/
private theorem exists_two_le_iff_of_le (hn : n.toNat ≤ 32) :
    (∃ p : Nat, p < 2048 ∧ 2 ≤ (m.screen.get p).toNat + m.pixelCount x y n p) ↔
      ∃ row < n.toNat, ∃ column < 8, m.spritePixel row column = true ∧
        m.screen.get (m.spriteCell x y row column) = true := by
  constructor
  · rintro ⟨p, -, hp⟩
    have hone := pixelCount_le_one (m := m) (x := x) (y := y) hn p
    have hbit := (m.screen.get p).toNat_le
    obtain ⟨row, hrow, column, hcolumn, hset, hcell⟩ :=
      (pixelCount_pos_iff (m := m) (x := x) (y := y) (n := n) (p := p)).mp (by omega)
    have hlit : m.screen.get p = true := Bool.toNat_eq_one.mp (by omega)
    exact ⟨row, hrow, column, hcolumn, hset, hcell ▸ hlit⟩
  · rintro ⟨row, hrow, column, hcolumn, hset, hlit⟩
    refine ⟨m.spriteCell x y row column, Nat.mod_lt _ (by decide), ?_⟩
    have hpos := (pixelCount_pos_iff (m := m) (x := x) (y := y) (n := n)).mpr
      ⟨row, hrow, column, hcolumn, hset, rfl⟩
    rw [hlit, Bool.toNat_true]
    omega

private theorem toUInt8_eq_one_iff (b : Bool) : b.toUInt8 = 1 ↔ b = true := by
  cases b <;> decide

/-- VF tells whether a pixel was hit on the way. -/
theorem v_flag_drawn (m : Machine) (x y : UInt8) (sprite : List UInt8) :
    (m.drawn x y sprite).v 0xF =
      (m.screen.toggleAll (Sprite.indices (m.v x).toNat (m.v y).toNat sprite)).1.toUInt8 :=
  Registers.get_set_self _ _ _

/-- Where no cell is hit twice, the flag says that a set pixel falls on a lit cell. -/
theorem v_flag_drawn_eq_one_iff (hn : n.toNat ≤ 32) :
    (m.drawn x y (m.memory.read m.index.toNat n.toNat)).v 0xF = 1 ↔
      ∃ row < n.toNat, ∃ column < 8, m.spritePixel row column = true ∧
        m.screen.get (m.spriteCell x y row column) = true := by
  rw [v_flag_drawn, toUInt8_eq_one_iff, toggleAll_fst_iff_pixelCount, exists_two_le_iff_of_le hn]

/-- A draw inverts each cell once for each sprite pixel that falls on it, and the flag says whether
some cell is lit or hit at least twice in all. Sprites that an opcode can name hit no cell twice, so
there the flag says whether a set pixel falls on a lit cell. -/
theorem execute_draw (m : Machine) (x y n : UInt8)
    (h : n = 0 ∨ m.index.toNat + n.toNat ≤ 4096) :
    ∃ m', m.execute (.draw x y n) = .ok m' ∧
      (∀ p < 2048, m'.screen.get p = (m.screen.get p ^^ decide (Odd (m.pixelCount x y n p)))) ∧
      m'.v 0xF =
        (if ∃ p : Nat, p < 2048 ∧ 2 ≤ (m.screen.get p).toNat + m.pixelCount x y n p then 1
        else 0) ∧
      m' = { m with
        screen := m'.screen
        registers := m.registers.set 0xF (m'.v 0xF)
        pc := m.pc + 2 } ∧
      (n.toNat ≤ 15 →
        (∀ p, m.pixelCount x y n p ≤ 1) ∧
        (m'.v 0xF = 1 ↔ ∃ row < n.toNat, ∃ column < 8, m.spritePixel row column = true ∧
          m.screen.get (m.spriteCell x y row column) = true)) := by
  refine ⟨_, execute_draw_eq h, ?_, ?_, ?_, ?_⟩
  · intro p hp
    exact get_screen_drawn hp
  · rw [v_flag_drawn]
    split
    next hc =>
      rw [toggleAll_fst_iff_pixelCount.mpr hc]
      rfl
    next hc =>
      rw [Bool.eq_false_iff.mpr fun ht => hc (toggleAll_fst_iff_pixelCount.mp ht)]
      rfl
  · rw [v_flag_drawn]
    rfl
  · intro hn
    -- fifteen rows are far from going around the picture once
    have hn32 : n.toNat ≤ 32 := Nat.le_trans hn (by decide)
    exact ⟨pixelCount_le_one hn32, v_flag_drawn_eq_one_iff hn32⟩

/-- A machine about to draw a glyph over the lower right corner. -/
def atCorner : Machine :=
  { ofSeed 0 with registers := (Registers.zero.set 0 62).set 1 30 }

/-- A glyph that crosses two edges is drawn, and it meets a lit cell just where it sets a pixel. -/
theorem execute_draw_atCorner :
    ((5 : UInt8) = 0 ∨ atCorner.index.toNat + (5 : UInt8).toNat ≤ 4096) ∧
      ∃ m', atCorner.execute (.draw 0 1 5) = .ok m' ∧
        (∀ p, atCorner.pixelCount 0 1 5 p ≤ 1) ∧
        (m'.v 0xF = 1 ↔ ∃ row < 5, ∃ column < 8, atCorner.spritePixel row column = true ∧
          atCorner.screen.get (atCorner.spriteCell 0 1 row column) = true) := by
  refine ⟨Or.inr (by decide), ?_⟩
  obtain ⟨m', hm', -, -, -, hsmall⟩ := execute_draw atCorner 0 1 5 (Or.inr (by decide))
  exact ⟨m', hm', hsmall (by decide)⟩

end Machine

end Chip8
