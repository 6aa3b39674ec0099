import Chip8.Proofs.Machine.Draw
import Chip8.Proofs.Machine.History

/-!
# Sprites over sprites

A draw inverts cells, so it does not matter to the picture in which order sprites are drawn, and
what is drawn twice is gone again. This holds because a draw leaves alone what other draws depend
on: the memory that holds the sprites and the registers that hold their places. Only the flag
register is changed, which tells how the sprites have met and does depend on the order.

## Shape of the proof

A list of drawings turns out to be one `toggleAll` over the indices of all of them, taken from the
machine in front of the first (`overlaid_drawings`). The picture after it depends on how often each
cell is named, and of that only on the parity (`cells_toggleAll_congr`), which is the same for every
order and even for a list with its repetition.
-/

namespace Chip8

namespace Framebuffer

variable {f g : Framebuffer} {is js : List Nat}

/-- A picture is known by its cells. -/
theorem cells_eq_of_get (h : ∀ p < 2048, f.get p = g.get p) : f.cells = g.cells := by
  apply Vector.ext
  intro p hp
  have hcell : cell p = ⟨p, hp⟩ := Fin.ext (Nat.mod_eq_of_lt hp)
  have hget := h p hp
  simp only [get, hcell] at hget
  exact hget

/-- The picture depends on the parity of the turns of its cells alone. -/
theorem cells_toggleAll_congr (f : Framebuffer)
    (h : ∀ p, Odd (hits is p) ↔ Odd (hits js p)) :
    (f.toggleAll is).2.cells = (f.toggleAll js).2.cells := by
  apply cells_eq_of_get
  intro p _
  rw [get_toggleAll, get_toggleAll, decide_eq_decide.mpr (h p)]

theorem hits_eq_of_perm (h : is.Perm js) (p : Nat) : hits is p = hits js p :=
  h.countP_eq _

/-- So cells can be toggled in any order. -/
theorem cells_toggleAll_of_perm (f : Framebuffer) (h : is.Perm js) :
    (f.toggleAll is).2.cells = (f.toggleAll js).2.cells := by
  apply cells_toggleAll_congr
  intro p
  rw [hits_eq_of_perm h]

/-- Toggling the same cells again, in whatever order, restores the picture. -/
theorem cells_toggleAll_append_of_perm (f : Framebuffer) (h : is.Perm js) :
    (f.toggleAll (is ++ js)).2.cells = f.cells := by
  have hnone : (f.toggleAll (is ++ js)).2.cells = (f.toggleAll []).2.cells := by
    apply cells_toggleAll_congr
    intro p
    have heven : Even (hits (is ++ js) p) := by
      rw [hits_append, hits_eq_of_perm h]
      exact ⟨_, rfl⟩
    exact iff_of_false (Nat.not_odd_iff_even.mpr heven) (by simp [hits])
  exact hnone

end Framebuffer

/-- A sprite to be drawn: where it lies in memory, which registers hold its place on the screen, and
the number of its rows. -/
structure Drawing where
  address : UInt16
  x : UInt8
  y : UInt8
  rows : UInt8

namespace Drawing

/-- The place is not held by the flag register, and the rows lie in memory. -/
def Fits (d : Drawing) : Prop :=
  d.x.toNat < 15 ∧ d.y.toNat < 15 ∧ (d.rows = 0 ∨ d.address.toNat + d.rows.toNat ≤ 4096)

/-- Points the index register at the sprite and draws it. -/
def actions (d : Drawing) : List Machine.Action :=
  [.execute (.setIndex d.address), .execute (.draw d.x d.y d.rows)]

/-- The indices that the draw goes through. -/
def indices (m : Machine) (d : Drawing) : List Nat :=
  Sprite.indices (m.v d.x).toNat (m.v d.y).toNat
    (m.memory.read d.address.toNat d.rows.toNat)

end Drawing

namespace Machine

variable {m m₁ m₂ : Machine} {d : Drawing} {is js : List Nat} {x y n : UInt8}

/-! ## Lists of drawings -/

/-- The cells at all of the indices have been inverted, and what drawings depend on is as it was. -/
structure Overlaid (m : Machine) (is : List Nat) (m₁ : Machine) : Prop where
  memory_eq : m₁.memory = m.memory
  v_eq : ∀ x : UInt8, x.toNat < 15 → m₁.v x = m.v x
  screen_eq : m₁.screen = (m.screen.toggleAll is).2

theorem overlaid_nil (m : Machine) : Overlaid m [] m :=
  ⟨rfl, fun _ _ => rfl, rfl⟩

/-- What overlays an overlaid machine adds to it. -/
theorem Overlaid.trans (h₁ : Overlaid m is m₁) (h₂ : Overlaid m₁ js m₂) :
    Overlaid m (is ++ js) m₂ where
  memory_eq := h₂.memory_eq.trans h₁.memory_eq
  v_eq x hx := (h₂.v_eq x hx).trans (h₁.v_eq x hx)
  screen_eq := by rw [h₂.screen_eq, h₁.screen_eq, Framebuffer.toggleAll_append]

/-- A drawing goes through the same cells wherever it comes in the list. -/
theorem Overlaid.indices_eq (h : Overlaid m is m₁) (hd : d.Fits) :
    d.indices m₁ = d.indices m := by
  obtain ⟨hx, hy, -⟩ := hd
  rw [Drawing.indices, Drawing.indices, h.memory_eq, h.v_eq _ hx, h.v_eq _ hy]

/-- The flag register apart, a draw leaves the registers alone. -/
theorem v_drawn_of_lt (hx : x.toNat < 15) (m : Machine) (y z : UInt8) (sprite : List UInt8) :
    (m.drawn y z sprite).v x = m.v x := by
  apply Registers.get_set_of_ne
  intro hslot
  have hnumber : 15 = x.toNat % 16 := congrArg Fin.val hslot
  omega

/-- One drawing is done, and inverts the cells of its sprite. -/
theorem overlaid_drawing (hd : d.Fits) (m : Machine) :
    (m.performAll d.actions).1 = [.done, .done] ∧ Overlaid m (d.indices m) (m.after d.actions) := by
  obtain ⟨-, -, hfits⟩ := hd
  let pointed : Machine := { m with index := d.address, pc := m.pc + 2 }
  have hdraw : pointed.execute (.draw d.x d.y d.rows) =
      .ok (pointed.drawn d.x d.y (m.memory.read d.address.toNat d.rows.toNat)) :=
    execute_draw_eq hfits
  have hperform : pointed.perform (.execute (.draw d.x d.y d.rows)) =
      (.done, pointed.drawn d.x d.y (m.memory.read d.address.toNat d.rows.toNat)) := by
    rw [perform, hdraw]
    rfl
  have hall : m.performAll d.actions =
      ([.done, .done], pointed.drawn d.x d.y (m.memory.read d.address.toNat d.rows.toNat)) := by
    have hfirst : m.perform (.execute (.setIndex d.address)) = (.done, pointed) := rfl
    simp only [Drawing.actions, performAll, hfirst, hperform]
  rw [after, hall]
  exact ⟨rfl, rfl, fun x hx => v_drawn_of_lt hx _ _ _ _, rfl⟩

/-- A list of drawings is done, and inverts the cells of all of their sprites. -/
theorem overlaid_drawings {ds : List Drawing} (hds : ∀ d ∈ ds, d.Fits) (m : Machine) :
    (∀ reply ∈ (m.performAll (ds.flatMap Drawing.actions)).1, reply = .done) ∧
      Overlaid m (ds.flatMap (Drawing.indices m)) (m.after (ds.flatMap Drawing.actions)) := by
  induction ds generalizing m with
  | nil => exact ⟨by simp [performAll], overlaid_nil m⟩
  | cons d ds ih =>
    have hrest : ∀ d' ∈ ds, d'.Fits := fun d' hd' => hds d' (List.mem_cons_of_mem d hd')
    obtain ⟨hfirst, hover⟩ := overlaid_drawing (hds d List.mem_cons_self) m
    obtain ⟨hdone, hovers⟩ := ih hrest (m.after d.actions)
    -- the sprites of the others are still what they were in front of the first one
    have hindices : ds.flatMap (Drawing.indices (m.after d.actions)) =
        ds.flatMap (Drawing.indices m) :=
      List.flatMap_congr fun d' hd' => hover.indices_eq (hrest d' hd')
    rw [hindices] at hovers
    rw [List.flatMap_cons, List.flatMap_cons, performAll_append_fst, after_append, hfirst]
    refine ⟨?_, hover.trans hovers⟩
    intro reply hreply
    rcases List.mem_append.mp hreply with hreply | hreply
    · simpa using hreply
    · exact hdone reply hreply

/-! ## A draw made twice -/

/-- Each pixel of the first draw inverts its cell, so the second draw meets a lit cell just where
the first one has met a dark one. -/
theorem v_flag_drawn_twice (hx : x.toNat < 15) (hy : y.toNat < 15) (hn : n.toNat ≤ 32) :
    let m₁ := m.drawn x y (m.memory.read m.index.toNat n.toNat)
    (m₁.drawn x y (m₁.memory.read m₁.index.toNat n.toNat)).v 0xF = 1 ↔
      ∃ row < n.toNat, ∃ column < 8, m.spritePixel row column = true ∧
        m.screen.get (m.spriteCell x y row column) = false := by
  intro m₁
  have hcell : ∀ row column, m₁.spriteCell x y row column = m.spriteCell x y row column := by
    intro row column
    rw [spriteCell, spriteCell, v_drawn_of_lt hx, v_drawn_of_lt hy]
  have hlit : ∀ row < n.toNat, ∀ column < 8, m.spritePixel row column = true →
      m₁.screen.get (m.spriteCell x y row column) =
        !m.screen.get (m.spriteCell x y row column) := by
    intro row hrow column hcolumn hset
    -- the sprite is too low to meet a cell twice
    have hpos : 0 < m.pixelCount x y n (m.spriteCell x y row column) :=
      pixelCount_pos_iff.mpr ⟨row, hrow, column, hcolumn, hset, rfl⟩
    have hone := pixelCount_le_one (m := m) (x := x) (y := y) hn (m.spriteCell x y row column)
    have hcount : m.pixelCount x y n (m.spriteCell x y row column) = 1 := by omega
    have hget : m₁.screen.get (m.spriteCell x y row column) =
        (m.screen.get (m.spriteCell x y row column) ^^
          decide (Odd (m.pixelCount x y n (m.spriteCell x y row column)))) :=
      get_screen_drawn (Nat.mod_lt _ (by decide))
    rw [hget, hcount]
    simp
  rw [v_flag_drawn_eq_one_iff hn]
  constructor
  · rintro ⟨row, hrow, column, hcolumn, hset, hget⟩
    rw [hcell, hlit row hrow column hcolumn hset] at hget
    exact ⟨row, hrow, column, hcolumn, hset, by simpa using hget⟩
  · rintro ⟨row, hrow, column, hcolumn, hset, hget⟩
    refine ⟨row, hrow, column, hcolumn, hset, ?_⟩
    rw [hcell, hlit row hrow column hcolumn hset, hget]
    rfl

/-- Sprites may be drawn in any order, and drawing all of them again, in any order, restores the
picture. Of two equal draws one after the other, the second sets the flag exactly if some set pixel
fell on a cell that was dark before the first. -/
theorem cells_after_drawings (m : Machine) :
    (∀ ds ds' : List Drawing, ds.Perm ds' → (∀ d ∈ ds, d.Fits) →
      (∀ reply ∈ (m.performAll ((ds ++ ds').flatMap Drawing.actions)).1, reply = .done) ∧
      (m.after (ds'.flatMap Drawing.actions)).screen.cells =
        (m.after (ds.flatMap Drawing.actions)).screen.cells ∧
      (m.after ((ds ++ ds').flatMap Drawing.actions)).screen.cells = m.screen.cells) ∧
    ∀ x y n : UInt8, x.toNat < 15 → y.toNat < 15 → n.toNat ≤ 15 →
      (n = 0 ∨ m.index.toNat + n.toNat ≤ 4096) →
      ∃ m₁ m₂, m.execute (.draw x y n) = .ok m₁ ∧ m₁.execute (.draw x y n) = .ok m₂ ∧
        (m₂.v 0xF = 1 ↔ ∃ row < n.toNat, ∃ column < 8, m.spritePixel row column = true ∧
          m.screen.get (m.spriteCell x y row column) = false) := by
  refine ⟨?_, ?_⟩
  · intro ds ds' hperm hds
    have hds' : ∀ d ∈ ds', d.Fits := fun d hd => hds d (hperm.mem_iff.mpr hd)
    have hboth : ∀ d ∈ ds ++ ds', d.Fits := fun d hd =>
      (List.mem_append.mp hd).elim (hds d) (hds' d)
    have hindices : (ds.flatMap (Drawing.indices m)).Perm (ds'.flatMap (Drawing.indices m)) :=
      hperm.flatMap_right _
    obtain ⟨-, hover⟩ := overlaid_drawings hds m
    obtain ⟨-, hover'⟩ := overlaid_drawings hds' m
    obtain ⟨hdone, hovers⟩ := overlaid_drawings hboth m
    refine ⟨hdone, ?_, ?_⟩
    · rw [hover.screen_eq, hover'.screen_eq]
      exact (Framebuffer.cells_toggleAll_of_perm _ hindices).symm
    · rw [hovers.screen_eq, List.flatMap_append]
      exact Framebuffer.cells_toggleAll_append_of_perm _ hindices
  · intro x y n hx hy hn hfits
    have hn32 : n.toNat ≤ 32 := Nat.le_trans hn (by decide)
    exact ⟨_, _, execute_draw_eq hfits, execute_draw_eq hfits, v_flag_drawn_twice hx hy hn32⟩

/-- A glyph that crosses two edges is drawn twice, with another glyph after or in between. The flags
differ and the pictures do not. A repetition of the glyph hits what it has lit before. -/
theorem cells_after_drawings_atCorner :
    let zero : Drawing := ⟨0, 0, 1, 5⟩
    let one : Drawing := ⟨5, 2, 2, 5⟩
    let behind := atCorner.after ([zero, zero, one].flatMap Drawing.actions)
    let between := atCorner.after ([zero, one, zero].flatMap Drawing.actions)
    [zero, zero, one].Perm [zero, one, zero] ∧ (∀ d ∈ [zero, zero, one], d.Fits) ∧
      behind.v 0xF = 0 ∧ between.v 0xF = 1 ∧ between.screen.cells = behind.screen.cells ∧
      ∃ m₁ m₂, atCorner.execute (.draw 0 1 5) = .ok m₁ ∧ m₁.execute (.draw 0 1 5) = .ok m₂ ∧
        m₂.v 0xF = 1 := by
  intro zero one behind between
  have hperm : [zero, zero, one].Perm [zero, one, zero] := .cons _ (.swap _ _ _)
  have hfits : ∀ d ∈ [zero, zero, one], d.Fits := by
    simp [zero, one, Drawing.Fits]
  obtain ⟨hlists, hdraws⟩ := cells_after_drawings atCorner
  obtain ⟨-, hcells, -⟩ := hlists _ _ hperm hfits
  obtain ⟨m₁, m₂, h₁, h₂, hflag⟩ :=
    hdraws 0 1 5 (by decide) (by decide) (by decide) (Or.inr (by decide))
  refine ⟨hperm, hfits, by decide +kernel, by decide +kernel, hcells, m₁, m₂, h₁, h₂, ?_⟩
  -- the first pixel of the glyph is set, and its cell was dark
  exact hflag.mpr ⟨0, by decide, 0, by decide, by decide +kernel, by decide +kernel⟩

end Machine

end Chip8
