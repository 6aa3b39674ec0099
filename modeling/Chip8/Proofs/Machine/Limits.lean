import Chip8.Proofs.Machine.Bounds
import Chip8.Proofs.Machine.InPlace

/-!
# Procedures that keep within their limits

On a bounded machine no instruction reads or writes past the end of an array, and no number it
computes outgrows its type.

## Shape of the proof

`Safe p m Q` says that a procedure started on `m` uses nothing beyond its limits and, when it ends
without a fault, ends in `Q`. There is one rule for each building block; the rule of a sequence asks
for the rest at whatever the first part ends in. The proof about an instruction is then one
application of a rule for each of its lines.
-/

namespace Chip8

/-! ## Pixels -/

/-- No pixel lies farther than eight columns and all rows of its sprite past the first. -/
theorem Sprite.lt_of_mem_indices {x y index : Nat} {rows : List UInt8}
    (h : index ∈ indices x y rows) : index < x + 8 + (y + rows.length) * Framebuffer.width := by
  induction rows generalizing y with
  | nil => exact absurd h List.not_mem_nil
  | cons row rows ih =>
    rw [List.length_cons]
    rcases List.mem_append.mp h with h | h
    · obtain ⟨column, hcolumn, rfl⟩ := List.mem_map.mp h
      have hlt := List.mem_range.mp (List.mem_filter.mp hcolumn).1
      simp only [Framebuffer.width]
      omega
    · have hlt := ih h
      simp only [Framebuffer.width] at hlt ⊢
      omega

namespace Procedure

variable {α β : Type} {m m' : Machine}

/-- A number fits if it is none of those that its bits are too few for. -/
theorem fits_number_iff {bits : Nat} {value : Int} :
    (Access.number bits value).Fits ↔ 0 ≤ value ∧ value < 2 ^ bits := by
  rw [Access.Fits]
  rfl

/-- Pixels keep within the screen, whatever their indices, and their indices within a word. -/
theorem fits_pixelAccesses {indices : List Nat} (h : ∀ index ∈ indices, index < 2 ^ 64) :
    ∀ access ∈ pixelAccesses indices, access.Fits := by
  intro access ha
  obtain ⟨index, hi, ha⟩ := List.mem_flatMap.mp ha
  have hlt := h index hi
  simp only [List.mem_cons, List.not_mem_nil, or_false] at ha
  rcases ha with rfl | rfl
  · rw [fits_number_iff]
    omega
  · simp only [Access.Fits, Bank.size]
    omega

/-! ## Safe procedures -/

/-- On a machine, a procedure uses nothing beyond its limits, and if it ends without a fault, then
with a value and a machine that satisfy `Q`. -/
structure Safe (p : Procedure α) (m : Machine) (Q : α → Machine → Prop) : Prop where
  fits : ∀ access ∈ (p.run m).accesses, access.Fits
  ends : ∀ a, (p.run m).result = .ok a → Q a (p.run m).machine

variable {Q : α → Machine → Prop}

/-- A run that is known and ends well is safe if its uses fit. -/
theorem safe_of_ok {p : Procedure α} {a : α} {accesses : List Access}
    (hrun : p.run m = ⟨.ok a, m', accesses⟩) (hfits : ∀ access ∈ accesses, access.Fits)
    (h : Q a m') : p.Safe m Q := by
  refine ⟨?_, ?_⟩ <;> rw [hrun]
  · exact hfits
  · intro b hb
    cases hb
    exact h

/-- Of a run that ends with a fault nothing more is asked. -/
theorem safe_of_error {p : Procedure α} {fault : Fault} {accesses : List Access}
    (hrun : p.run m = ⟨.error fault, m', accesses⟩) (hfits : ∀ access ∈ accesses, access.Fits) :
    p.Safe m Q := by
  refine ⟨?_, ?_⟩ <;> rw [hrun]
  · exact hfits
  · intro b hb
    cases hb

/-- The rule of a sequence. -/
theorem safe_bind {p : Procedure α} {f : α → Procedure β} {R : β → Machine → Prop}
    (h : p.Safe m fun a m' => (f a).Safe m' R) : (p >>= f).Safe m R := by
  rcases hp : p.run m with ⟨result, m', before⟩
  obtain ⟨hfits, hends⟩ := h
  rw [hp] at hfits hends
  cases result with
  | error fault => exact safe_of_error (bind_of_error hp) hfits
  | ok a =>
    have hf := hends a rfl
    refine ⟨?_, ?_⟩ <;> rw [bind_of_ok hp]
    · intro access ha
      rcases List.mem_append.mp ha with ha | ha
      · exact hfits access ha
      · exact hf.fits access ha
    · exact hf.ends

theorem safe_pure {a : α} (h : Q a m) : (pure a : Procedure α).Safe m Q :=
  safe_of_ok rfl (by simp) h

theorem safe_refuse {fault : Fault} : (refuse fault).Safe m Q :=
  safe_of_error rfl (by simp)

theorem safe_look {Q : Machine → Machine → Prop} (h : Q m m) : look.Safe m Q :=
  safe_of_ok rfl (by simp) h

section

variable {Q : Unit → Machine → Prop}

theorem safe_change {f : Machine → Machine} (h : Q () (f m)) : (change f).Safe m Q :=
  safe_of_ok rfl (by simp) h

theorem safe_use {access : Access} (hfits : access.Fits) (h : Q () m) : (use access).Safe m Q :=
  safe_of_ok rfl (by simpa using hfits) h

/-- The program counter must not go around. -/
theorem safe_advance {bytes : UInt16} (hpc : m.pc.toNat + bytes.toNat < 2 ^ 16)
    (h : Q () { m with pc := m.pc + bytes }) : (advance bytes).Safe m Q := by
  refine safe_bind (safe_look (safe_bind (safe_use ?_ (safe_change h))))
  rw [fits_number_iff]
  omega

/-- The next word is two bytes away. -/
theorem safe_next (hpc : m.pc.toNat < 0xFFFE) (h : Q () { m with pc := m.pc + 2 }) :
    next.Safe m Q := by
  refine safe_advance ?_ h
  show m.pc.toNat + 2 < 2 ^ 16
  omega

theorem safe_skipIf {condition : Bool} (hpc : m.pc.toNat < 0xFFFC)
    (h : ∀ bytes, Q () { m with pc := m.pc + bytes }) : (skipIf condition).Safe m Q := by
  refine safe_advance ?_ (h _)
  cases condition
  · show m.pc.toNat + 2 < 2 ^ 16
    omega
  · show m.pc.toNat + 4 < 2 ^ 16
    omega

/-- A register has to be one of sixteen. -/
theorem safe_write {x value : UInt8} (hx : x.toNat < 16)
    (h : Q () { m with registers := m.registers.set x value }) : (write x value).Safe m Q :=
  safe_bind (safe_use hx (safe_change h))

theorem safe_set {x value : UInt8} (hx : x.toNat < 16) (hpc : m.pc.toNat < 0xFFFE)
    (h : ∀ m', Q () m') : (set x value).Safe m Q :=
  safe_bind (safe_write hx (safe_next hpc (h _)))

/-- The flag is a register at any rate. -/
theorem safe_setWithFlag {x value : UInt8} {up : Bool} (hx : x.toNat < 16)
    (hpc : m.pc.toNat < 0xFFFE) (h : ∀ m', Q () m') : (setWithFlag x value up).Safe m Q :=
  safe_bind (safe_write (by decide) (safe_set hx hpc h))

/-- A slot has to be one of sixteen. -/
theorem safe_writeSlot {k : Nat} {address : UInt16} (hk : k < 16) (h : ∀ m', Q () m') :
    (writeSlot k address).Safe m Q :=
  safe_bind (safe_use hk (safe_change (h _)))

/-- Bytes that are written have to end within memory. -/
theorem safe_writeBytes {start : Nat} {bytes : List UInt8} (hle : start + bytes.length ≤ 4096)
    (h : Q () { m with memory := m.memory.write start bytes }) :
    (writeBytes start bytes).Safe m Q :=
  safe_bind (safe_use hle (safe_change h))

end

theorem safe_v {Q : UInt8 → Machine → Prop} {x : UInt8} (hx : x.toNat < 16) (h : Q (m.v x) m) :
    (v x).Safe m Q :=
  safe_bind (safe_use hx (safe_bind (safe_look (safe_pure h))))

theorem safe_read {Q : List UInt8 → Machine → Prop} {start count : Nat}
    (hle : start + count ≤ 4096) (h : Q (m.memory.read start count) m) :
    (read start count).Safe m Q :=
  safe_bind (safe_use hle (safe_bind (safe_look (safe_pure h))))

theorem safe_readSlot {Q : UInt16 → Machine → Prop} {k : Nat} (hk : k < 16)
    (h : Q m.stack.slots[k] m) : (readSlot k).Safe m Q := by
  refine safe_of_ok (readSlot_of_lt hk) ?_ h
  intro access ha
  obtain rfl := List.mem_singleton.mp ha
  exact hk

/-- What follows a span may rely on its bytes being in memory. -/
theorem safe_span {Q : Nat → Machine → Prop} {count : Nat} (hpos : 0 < count) (hle : count ≤ 4096)
    (h : m.index.toNat + count ≤ 4096 → Q m.index.toNat m) : (span count).Safe m Q := by
  have hindex := m.index.toNat_lt
  refine safe_bind (safe_look (safe_bind (safe_use ?_ ?_)))
  · rw [fits_number_iff]
    omega
  · split
    next =>
      refine safe_bind (safe_use ?_ safe_refuse)
      rw [fits_number_iff]
      omega
    next hspan => exact safe_pure (h (Nat.not_lt.mp hspan))

/-! ## Instructions -/

/-- A call is refused before it could write past the last slot. -/
theorem safe_call {Q : Unit → Machine → Prop} {address : UInt16} (h : ∀ m', Q () m') :
    (call address).Safe m Q := by
  have hle := m.stack.depth_le
  refine safe_bind (safe_look ?_)
  split
  next => exact safe_refuse
  next hroom =>
    have hslot : m.stack.depth < 16 := by omega
    refine safe_bind (safe_writeSlot hslot ?_)
    intro m'
    refine safe_bind (safe_use ?_ ?_)
    · rw [fits_number_iff]
      omega
    · exact safe_bind (safe_change (safe_change (h _)))

/-- The address that a return takes off the stack leaves room for the next word. -/
theorem safe_ret {Q : Unit → Machine → Prop} (hm : m.Bounded) (h : ∀ m', Q () m') :
    ret.Safe m Q := by
  have hle := m.stack.depth_le
  refine safe_bind (safe_look ?_)
  split
  next => exact safe_refuse
  next hused =>
    have hslot : m.stack.depth - 1 < 16 := by omega
    have htop := hm.slot_le (m.stack.depth - 1) (by omega) _ (Vector.getElem?_eq_getElem hslot)
    refine safe_bind (safe_use ?_ ?_)
    · rw [fits_number_iff]
      omega
    · refine safe_bind (safe_of_ok (setDepth_of_le (Nat.le_of_lt hslot)) (by simp) ?_)
      -- lowering the depth has left the slot as it was
      refine safe_bind (safe_readSlot hslot (safe_bind (safe_use ?_ (safe_change (h _)))))
      simp only [fits_number_iff]
      omega

/-- However a sprite goes around the screen, its pixels lie on it. -/
theorem safe_drawRows {Q : Bool → Machine → Prop} {x y : Nat} {sprites : List UInt8} {hit : Bool}
    (hx : x < 256) (hy : y < 256) (hrows : sprites.length < 256)
    (h : ∀ hit screen, Q hit { m with screen := screen }) :
    (drawRows x y 0 sprites hit).Safe m Q := by
  refine safe_of_ok (drawRows_apply x y 0 sprites hit m) (fits_pixelAccesses ?_) (h _ _)
  intro index hindex
  have hlt := Sprite.lt_of_mem_indices hindex
  simp only [Framebuffer.width] at hlt
  omega

/-- A draw is safe once its sprite is known to lie in memory. -/
theorem safe_drawFrom {Q : Unit → Machine → Prop} {x y rows : UInt8} {start : Nat}
    (hx : x.toNat < 16) (hy : y.toNat < 16) (hpc : m.pc.toNat < 0xFFFE)
    (hle : start + rows.toNat ≤ 4096) (h : ∀ m', Q () m') :
    (drawFrom x y rows start).Safe m Q := by
  refine safe_bind (safe_v hx (safe_bind (safe_v hy (safe_bind (safe_read hle ?_)))))
  refine safe_bind (safe_drawRows (m.v x).toNat_lt (m.v y).toNat_lt ?_ fun hit screen => ?_)
  · rw [Memory.length_read]
    exact rows.toNat_lt
  · exact safe_bind (safe_write (by decide) (safe_next hpc (h _)))

/-- What the sprite accesses is checked before, and without rows it accesses nothing. -/
theorem safe_draw {Q : Unit → Machine → Prop} {x y rows : UInt8} (hx : x.toNat < 16)
    (hy : y.toNat < 16) (hpc : m.pc.toNat < 0xFFFE) (h : ∀ m', Q () m') :
    (draw x y rows).Safe m Q := by
  by_cases hz : rows = 0
  · subst hz
    exact safe_bind (safe_pure (safe_drawFrom hx hy hpc (by decide) h))
  · have hpos : 0 < rows.toNat := Nat.pos_of_ne_zero fun h0 => hz (UInt8.toNat.inj h0)
    have hlt := rows.toNat_lt
    rw [draw, if_neg hz]
    exact safe_bind (safe_span hpos (by omega) fun hle => safe_drawFrom hx hy hpc hle h)

/-- On a bounded machine that has just fetched it, an instruction keeps within its limits. -/
theorem execute_safe {i : Instruction} (hi : i.InRange) (hm : m.Bounded)
    (hpc : m.pc.toNat ≤ 0xFFE) : (execute i).Safe m fun _ _ => True := by
  have hnext : m.pc.toNat < 0xFFFE := by omega
  have hskip : m.pc.toNat < 0xFFFC := by omega
  cases i
  case ret => exact safe_ret hm fun _ => trivial
  case call address => exact safe_call fun _ => trivial
  case draw x y n => exact safe_draw hi.1 hi.2.1 hnext fun _ => trivial
  case jump address => exact safe_change trivial
  case clear | setIndex address => exact safe_bind (safe_change (safe_next hnext trivial))
  case loadByte x nn => exact safe_set hi hnext fun _ => trivial
  case skipEqByte x nn | skipNeByte x nn =>
    exact safe_bind (safe_v hi (safe_skipIf hskip fun _ => trivial))
  case skipEq x y | skipNe x y =>
    exact safe_bind (safe_v hi.1 (safe_bind (safe_v hi.2 (safe_skipIf hskip fun _ => trivial))))
  case skipKey x | skipNotKey x =>
    exact safe_bind (safe_v hi (safe_bind (safe_look (safe_skipIf hskip fun _ => trivial))))
  case addByte x nn => exact safe_bind (safe_v hi (safe_set hi hnext fun _ => trivial))
  case move x y => exact safe_bind (safe_v hi.2 (safe_set hi.1 hnext fun _ => trivial))
  case or x y | and x y | xor x y =>
    exact safe_bind (safe_v hi.1 (safe_bind (safe_v hi.2 (safe_set hi.1 hnext fun _ => trivial))))
  case add x y | sub x y | subFrom x y =>
    exact safe_bind (safe_v hi.1 (safe_bind (safe_v hi.2
      (safe_setWithFlag hi.1 hnext fun _ => trivial))))
  case shiftRight x | shiftLeft x =>
    exact safe_bind (safe_v hi (safe_setWithFlag hi hnext fun _ => trivial))
  case jumpOffset address =>
    have hlt : address.toNat < 4096 := hi
    have hv := (m.v 0).toNat_lt
    refine safe_bind (safe_v (by decide) (safe_bind (safe_use ?_ (safe_change trivial))))
    -- the farthest jump is far below the end of the type
    rw [fits_number_iff]
    omega
  case random x nn =>
    exact safe_bind (safe_look (safe_bind (safe_change (safe_set hi hnext fun _ => trivial))))
  case getDelay x => exact safe_bind (safe_look (safe_set hi hnext fun _ => trivial))
  case waitKey x =>
    refine safe_bind (safe_look ?_)
    split
    next => exact safe_set hi hnext fun _ => trivial
    next => exact safe_pure trivial
  case setDelay x | setSound x =>
    exact safe_bind (safe_v hi (safe_bind (safe_change (safe_next hnext trivial))))
  case addIndex x =>
    have hindex := m.index.toNat_lt
    have hv := (m.v x).toNat_lt
    refine safe_bind (safe_look (safe_bind (safe_v hi ?_)))
    refine safe_bind (safe_use ?_ ?_)
    · rw [fits_number_iff]
      omega
    · refine safe_bind (safe_write (by decide) ?_)
      exact safe_bind (safe_change (safe_next hnext trivial))
  case glyph x =>
    have hv := (m.v x).toNat_lt
    refine safe_bind (safe_v hi (safe_bind (safe_use ?_ ?_)))
    · rw [fits_number_iff]
      omega
    · exact safe_bind (safe_change (safe_next hnext trivial))
  case bcd x =>
    refine safe_bind (safe_span (by omega) (by omega) fun hle => ?_)
    exact safe_bind (safe_v hi (safe_bind (safe_writeBytes hle (safe_next hnext trivial))))
  case store x =>
    have hx : x.toNat < 16 := hi
    have hregisters : (Access.cells .registers 0 (x.toNat + 1)).Fits := by
      simp only [Access.Fits, Bank.size]
      omega
    refine safe_bind (safe_span (by omega) (by omega) fun hle => ?_)
    refine safe_bind (safe_use hregisters (safe_bind (safe_look ?_)))
    refine safe_bind (safe_writeBytes ?_ (safe_next hnext trivial))
    rw [m.registers.length_first hx]
    exact hle
  case restore x =>
    have hx : x.toNat < 16 := hi
    have hregisters : (Access.cells .registers 0 (x.toNat + 1)).Fits := by
      simp only [Access.Fits, Bank.size]
      omega
    refine safe_bind (safe_span (by omega) (by omega) fun hle => safe_bind (safe_read hle ?_))
    exact safe_bind (safe_use hregisters (safe_bind (safe_change (safe_next hnext trivial))))

/-! ## Steps -/

/-- What follows a fetch may rely on a whole word being left. -/
theorem safe_fetch {Q : UInt16 → Machine → Prop}
    (h : ∀ word, m.pc.toNat ≤ 0xFFE → Q word m) : fetch.Safe m Q := by
  have hpc := m.pc.toNat_lt
  refine safe_bind (safe_look (safe_bind (safe_use ?_ ?_)))
  · rw [fits_number_iff]
    omega
  · split
    next => exact safe_refuse
    next hlt =>
      refine safe_bind (safe_use ?_ (safe_bind (safe_look (safe_pure (h _ (by omega))))))
      simp only [Access.Fits, Bank.size]
      omega

/-- A step of a bounded machine keeps within its limits. -/
theorem step_safe (hm : m.Bounded) : step.Safe m fun _ _ => True := by
  refine safe_bind (safe_fetch fun word hpc => safe_bind (safe_change ?_))
  have hrec : (m.record word).Bounded := hm.congr rfl rfl
  cases hd : Instruction.decode? word with
  | none => exact safe_bind (safe_look safe_refuse)
  | some i =>
    have hi := Instruction.inRange_of_decode? hd
    have hexecute := execute_safe hi hrec hpc
    apply safe_bind
    exact ⟨hexecute.fits, fun _ _ => safe_pure trivial⟩

/-- The rule of a handler asks for it at whatever a fault leaves behind. -/
theorem safe_recover {p : Procedure α} {handler : Fault → Procedure α} (hp : p.Safe m Q)
    (h : ∀ fault, (p.run m).result = .error fault → (handler fault).Safe (p.run m).machine Q) :
    (recover p handler).Safe m Q := by
  rcases hrun : p.run m with ⟨result, m', before⟩
  obtain ⟨hfits, hends⟩ := hp
  rw [hrun] at hfits hends h
  cases result with
  | ok a => exact safe_of_ok (recover_of_ok hrun) hfits (hends a rfl)
  | error fault =>
    have hhandler := h fault rfl
    refine ⟨?_, ?_⟩ <;> rw [recover_of_error hrun]
    · intro access ha
      rcases List.mem_append.mp ha with ha | ha
      · exact hfits access ha
      · exact hhandler.fits access ha
    · exact hhandler.ends

/-- What a driver does with a bounded machine keeps within its limits. -/
theorem attempt_safe (policy : UnknownPolicy) (hm : m.Bounded) :
    (attempt policy).Safe m fun _ _ => True := by
  have hstep := step_safe hm
  apply safe_recover
  · exact safe_bind ⟨hstep.fits, fun _ _ => safe_pure trivial⟩
  intro fault hfault
  split
  next =>
    -- a fault leaves the machine of the step behind, which is bounded
    have hmachine : ((step >>= fun _ => pure false : Procedure Bool).run m).machine = m.step.2 := by
      rcases hrun : step.run m with ⟨result, m', before⟩
      rw [← (step_agrees m).2, hrun]
      cases result with
      | ok i => rw [bind_of_ok hrun]; rfl
      | error f => rw [bind_of_error hrun]
    have hpc := hm.step.pc_le
    rw [← hmachine] at hpc
    exact safe_bind (safe_next (by omega) (safe_pure trivial))
  next => exact safe_pure trivial

/-! ## Actions of a host -/

/-- A key that is moved takes no room. -/
theorem safe_moveKey {Q : Unit → Machine → Prop} {key : UInt8} {isPressed : Bool}
    (h : ∀ m', Q () m') : (moveKey key isPressed).Safe m Q := by
  refine safe_bind (safe_look ?_)
  split
  next => exact safe_change (h _)
  next => exact safe_refuse

/-- A program is stored where it fits, and the font always does. -/
theorem perform_safe {a : Machine.Action} (ha : a.IsHosting) (m : Machine) :
    (perform a).Safe m fun _ _ => True := by
  cases a with
  | load image =>
    rw [perform, load]
    split
    next => exact safe_refuse
    next hle =>
      simp only [Memory.size, Memory.programStart] at hle ⊢
      exact safe_writeBytes (by omega) trivial
  | reset => exact safe_bind (safe_change (safe_writeBytes (by decide) trivial))
  | tick | clearScreen | takeFrame => exact safe_change trivial
  | press | release => exact safe_moveKey fun _ => trivial
  | step | execute _ | skip => exact absurd ha id

end Procedure

end Chip8
