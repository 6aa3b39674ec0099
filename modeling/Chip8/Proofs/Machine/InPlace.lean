import Chip8.Proofs.Machine.Draw
import Chip8.Proofs.Machine.Effect
import Chip8.Proofs.Machine.Procedure

/-!
# Agreement of the machine changed in place

Executed in place, an instruction does what the machine does.

## Shape of the comparison

`Outcome.Matches` compares an outcome with the answer of `execute`: the same machine when the
instruction is executed, and the untouched machine when it is refused. `execute_matches` shows it
for all instructions by running them; only `draw` needs an induction, over the rows and the columns
of its two loops. Steps (`step_agrees`), attempts of a driver (`attempt_agrees`) and the actions of
a host (`perform_agrees`) follow, the refused ones among them (`perform_of_refused`).
-/

namespace Chip8

/-- The outcome is what the machine answers: the machine it gives, or the one it had. -/
def Outcome.Matches (o : Outcome Unit) (m : Machine) : Except Fault Machine → Prop
  | .ok m' => o.result = .ok () ∧ o.machine = m'
  | .error fault => o.result = .error fault ∧ o.machine = m

/-- The outcome is that of an action: refused where the action is, for the same reason, and with the
same machine left behind. -/
structure Outcome.Agrees (o : Outcome Unit) (answer : Machine.Reply × Machine) : Prop where
  refused_iff (fault : Fault) : o.result = .error fault ↔ answer.1 = .refused fault
  machine_eq : o.machine = answer.2

/-- Where neither is refused, only the machines are compared. -/
theorem Outcome.agrees_of_ok {o : Outcome Unit} {answer : Machine.Reply × Machine}
    (hr : o.result = .ok ()) (hanswer : ∀ fault, answer.1 ≠ .refused fault)
    (hm : o.machine = answer.2) : o.Agrees answer :=
  ⟨fun fault => iff_of_false (by simp [hr]) (hanswer fault), hm⟩

/-- What a host does with the answer of an operation is what the outcome shows. -/
theorem Outcome.Matches.agrees {o : Outcome Unit} {m : Machine} {answer : Except Fault Machine}
    (h : o.Matches m answer) : o.Agrees (m.settle answer) := by
  cases answer with
  | ok m' => exact Outcome.agrees_of_ok h.1 (fun _ h => by cases h) h.2
  | error reason =>
    obtain ⟨hr, hm⟩ := h
    exact ⟨fun fault => by simp [hr, Machine.settle], hm⟩

namespace Procedure

variable {α β : Type} {m m' : Machine}

theorem change_run (f : Machine → Machine) : (change f).run m = ⟨.ok (), f m, []⟩ := rfl

theorem look_bind (f : Machine → Procedure α) : (look >>= f).run m = (f m).run m := rfl

/-- A use is put on record before what follows. -/
theorem use_bind (access : Access) (f : Unit → Procedure α) :
    (use access >>= f).run m = ((f ()).run m).after [access] := rfl

/-- What follows a part goes on from the machine that the part has left. -/
theorem bind_of_ok {p : Procedure α} {f : α → Procedure β} {a : α} {before : List Access}
    (h : p.run m = ⟨.ok a, m', before⟩) : (p >>= f).run m = ((f a).run m').after before := by
  simp only [bind, h]

/-- Nothing follows a fault, and nothing is undone. -/
theorem bind_of_error {p : Procedure α} {f : α → Procedure β} {fault : Fault}
    {before : List Access} (h : p.run m = ⟨.error fault, m', before⟩) :
    (p >>= f).run m = ⟨.error fault, m', before⟩ := by
  simp only [bind, h]

/-- Within memory a span gives its start. -/
theorem span_of_le {count : Nat} (h : m.index.toNat + count ≤ 4096) :
    (span count).run m = ⟨.ok m.index.toNat, m, [.number 64 (m.index.toNat + count)]⟩ := by
  rw [span, look_bind, use_bind, if_neg (Nat.not_lt.mpr h)]
  rfl

/-- Beyond it the span is refused by its last address. -/
theorem span_of_lt {count : Nat} (h : 4096 < m.index.toNat + count) :
    (span count).run m = ⟨.error (.outOfMemory (m.index.toNat + count - 1)), m,
      [.number 64 (m.index.toNat + count), .number 64 (m.index.toNat + count - 1)]⟩ := by
  rw [span, look_bind, use_bind, if_pos h]
  rfl

theorem writeSlot_of_lt {k : Nat} (h : k < 16) (address : UInt16) :
    (writeSlot k address).run m =
      ⟨.ok (), { m with stack := { m.stack with slots := m.stack.slots.set k address } },
        [.cells .stack k 1]⟩ := by
  rw [writeSlot, use_bind, change_run, dif_pos h]
  rfl

/-- A depth that the stack can have is set. -/
theorem setDepth_of_le {depth : Nat} (h : depth ≤ 16) :
    (setDepth depth).run m =
      ⟨.ok (), { m with
        stack := { slots := m.stack.slots, depth := depth, depth_le := h } }, []⟩ := by
  rw [setDepth, change_run, dif_pos h]

theorem readSlot_of_lt {k : Nat} (h : k < 16) :
    (readSlot k).run m = ⟨.ok m.stack.slots[k], m, [.cells .stack k 1]⟩ := by
  rw [readSlot, use_bind, look_bind, Vector.getElem?_eq_getElem h]
  rfl

/-- A call asks for a free slot before it writes one. -/
private theorem call_matches (address : UInt16) (m : Machine) :
    ((call address).run m).Matches m (m.call address) := by
  by_cases h : m.stack.depth = 16
  · rw [Machine.call_eq_error_iff.mpr ⟨h, rfl⟩, call, look_bind, if_pos h]
    exact ⟨rfl, rfl⟩
  · have hd : m.stack.depth < 16 := by
      have := m.stack.depth_le
      omega
    rw [Machine.call, ReturnStack.push?, dif_pos hd, call, look_bind, if_neg h,
      bind_of_ok (writeSlot_of_lt hd m.pc), use_bind,
      bind_of_ok (setDepth_of_le (Nat.succ_le_of_lt hd))]
    exact ⟨rfl, rfl⟩

/-- A return asks for a slot in use before it gives one up. -/
private theorem ret_matches (m : Machine) : (ret.run m).Matches m m.ret := by
  by_cases h : m.stack.depth = 0
  · rw [Machine.ret_eq_error_iff.mpr ⟨h, rfl⟩, ret, look_bind, if_pos h]
    exact ⟨rfl, rfl⟩
  · have hd : m.stack.depth - 1 < 16 := by
      have := m.stack.depth_le
      omega
    rw [Machine.ret, ReturnStack.pop?, dif_pos (Nat.pos_of_ne_zero h), ret, look_bind, if_neg h,
      use_bind, bind_of_ok (setDepth_of_le (Nat.le_of_lt hd)), bind_of_ok (readSlot_of_lt hd),
      use_bind]
    exact ⟨rfl, rfl⟩

/-- The digits are stored once all three are known to fit. -/
private theorem bcd_matches (x : UInt8) (m : Machine) :
    ((execute (.bcd x)).run m).Matches m (m.execute (.bcd x)) := by
  by_cases h : m.index.toNat + 3 ≤ 4096
  · rw [Machine.execute, Machine.storeAtIndex_of_le h, execute, bind_of_ok (span_of_le h)]
    exact ⟨rfl, rfl⟩
  · have h' := Nat.not_le.mp h
    rw [Machine.execute, Machine.storeAtIndex_of_lt h', execute, bind_of_error (span_of_lt h')]
    exact ⟨rfl, rfl⟩

/-- Registers are stored once all of them are known to fit. -/
private theorem store_matches {x : UInt8} (hx : x.toNat < 16) (m : Machine) :
    ((execute (.store x)).run m).Matches m (m.execute (.store x)) := by
  have hl := m.registers.length_first hx
  by_cases h : m.index.toNat + (x.toNat + 1) ≤ 4096
  · rw [Machine.execute, Machine.storeAtIndex_of_le (hl.symm ▸ h), execute,
      bind_of_ok (span_of_le h)]
    exact ⟨rfl, rfl⟩
  · have h' := Nat.not_le.mp h
    rw [Machine.execute, Machine.storeAtIndex_of_lt (hl.symm ▸ h'), execute,
      bind_of_error (span_of_lt h'), hl]
    exact ⟨rfl, rfl⟩

/-- No register is written before all bytes are known to exist. -/
private theorem restore_matches (x : UInt8) (m : Machine) :
    ((execute (.restore x)).run m).Matches m (m.execute (.restore x)) := by
  by_cases h : m.index.toNat + (x.toNat + 1) ≤ 4096
  · rw [Machine.execute, Machine.restoreFromIndex_of_le h, execute, bind_of_ok (span_of_le h)]
    exact ⟨rfl, rfl⟩
  · have h' := Nat.not_le.mp h
    rw [Machine.execute, Machine.restoreFromIndex_of_lt h', execute, bind_of_error (span_of_lt h')]
    exact ⟨rfl, rfl⟩

/-! ### The loops of a draw -/

/-- What the inversion of pixels at some indices puts on record. -/
def pixelAccesses (indices : List Nat) : List Access :=
  indices.flatMap fun index : Nat => [.number 64 index, .cells .screen (index % 2048) 1]

/-- The outcome of a loop that inverts the pixels at some indices. -/
def inverted (m : Machine) (indices : List Nat) (hit : Bool) : Outcome Bool :=
  ⟨.ok (hit || (m.screen.toggleAll indices).1),
    { m with screen := (m.screen.toggleAll indices).2 }, pixelAccesses indices⟩

/-- The remainder of an index is a name of the same cell. -/
theorem toggle_mod (index : Nat) (m : Machine) :
    (toggle (index % 2048)).run m =
      ⟨.ok (m.screen.get index), { m with screen := (m.screen.toggle index).2 },
        [.cells .screen (index % 2048) 1]⟩ := by
  have hc : Framebuffer.cell (index % 2048) = Framebuffer.cell index :=
    Framebuffer.cell_eq_iff.mpr (Nat.mod_mod _ _)
  -- an index and its remainder are names of one cell
  have ht : m.screen.toggle (index % 2048) = m.screen.toggle index := by
    simp only [Framebuffer.toggle, Framebuffer.get, hc]
  rw [toggle, use_bind, look_bind, ht, Nat.mod_mod]
  rfl

/-- Inverting one pixel and then others is inverting all of them. -/
private theorem inverted_cons (m : Machine) (index : Nat) (indices : List Nat) (hit : Bool) :
    (inverted { m with screen := (m.screen.toggle index).2 } indices
      (hit || m.screen.get index)).after [.number 64 index, .cells .screen (index % 2048) 1] =
      inverted m (index :: indices) hit := by
  simp only [inverted, Framebuffer.toggleAll, Framebuffer.toggle_fst, Bool.or_assoc]
  rfl

private theorem inverted_append (m : Machine) (first second : List Nat) (hit : Bool) :
    (inverted { m with screen := (m.screen.toggleAll first).2 } second
      (hit || (m.screen.toggleAll first).1)).after (pixelAccesses first) =
      inverted m (first ++ second) hit := by
  simp only [inverted, Framebuffer.toggleAll_append, Bool.or_assoc, pixelAccesses,
    List.flatMap_append]
  rfl

/-- The loop over the columns inverts the set pixels of a row. -/
theorem drawColumns_apply (x y row : Nat) (sprite : UInt8) (columns : List Nat) (hit : Bool)
    (m : Machine) :
    (drawColumns x y row sprite columns hit).run m =
      inverted m ((columns.filter (Sprite.isSet sprite)).map fun column =>
        x + column + (y + row) * Framebuffer.width) hit := by
  induction columns generalizing hit m with
  | nil => simp [drawColumns, inverted, Framebuffer.toggleAll, pixelAccesses, pure]
  | cons column columns ih =>
    by_cases hs : Sprite.isSet sprite column = true
    · rw [drawColumns, if_pos hs, use_bind, bind_of_ok (toggle_mod _ m), ih,
        List.filter_cons_of_pos hs, List.map_cons, ← inverted_cons]
      rfl
    · rw [drawColumns, if_neg hs, ih, List.filter_cons_of_neg hs]

/-- The loop over the rows inverts the pixels of the sprite. -/
theorem drawRows_apply (x y row : Nat) (sprites : List UInt8) (hit : Bool) (m : Machine) :
    (drawRows x y row sprites hit).run m = inverted m (Sprite.indices x (y + row) sprites) hit := by
  induction sprites generalizing row hit m with
  | nil => simp [drawRows, inverted, Framebuffer.toggleAll, pixelAccesses, pure, Sprite.indices]
  | cons sprite sprites ih =>
    have hc := drawColumns_apply x y row sprite (List.range 8) hit m
    rw [drawRows, bind_of_ok hc, ih, Sprite.indices, ← inverted_append]
    rfl

theorem v_apply (x : UInt8) (m : Machine) :
    (v x).run m = ⟨.ok (m.v x), m, [.cells .registers x.toNat 1]⟩ := rfl

theorem read_apply (start count : Nat) (m : Machine) :
    (read start count).run m =
      ⟨.ok (m.memory.read start count), m, [.cells .memory start count]⟩ := rfl

/-- The whole draw, once its sprite is known to lie in memory. -/
theorem drawFrom_apply (x y rows : UInt8) (start : Nat) (m : Machine) :
    (drawFrom x y rows start).run m =
      ⟨.ok (), m.drawn x y (m.memory.read start rows.toNat),
        [.cells .registers x.toNat 1, .cells .registers y.toNat 1,
          .cells .memory start rows.toNat] ++
        (pixelAccesses (Sprite.indices (m.v x).toNat (m.v y).toNat
          (m.memory.read start rows.toNat)) ++
        [.cells .registers 15 1, .number 16 (m.pc.toNat + 2)])⟩ := by
  have hrows := drawRows_apply (m.v x).toNat (m.v y).toNat 0 (m.memory.read start rows.toNat)
    false m
  rw [drawFrom, bind_of_ok (v_apply x m), bind_of_ok (v_apply y m),
    bind_of_ok (read_apply start _ m), bind_of_ok hrows]
  rfl

/-- No pixel is inverted before the whole sprite is known to exist. -/
private theorem draw_matches (x y rows : UInt8) (m : Machine) :
    ((draw x y rows).run m).Matches m (m.draw x y rows) := by
  by_cases hz : rows = 0
  · -- without rows no span is asked for, whatever the index register
    subst hz
    rw [Machine.draw_eq_map, Machine.sprite_of_le (Or.inl rfl), draw, if_pos rfl,
      bind_of_ok (rfl : (pure 0 : Procedure Nat).run m = ⟨.ok 0, m, []⟩), drawFrom_apply]
    exact ⟨rfl, rfl⟩
  · by_cases h : m.index.toNat + rows.toNat ≤ 4096
    · rw [Machine.draw_eq_map, Machine.sprite_of_le (Or.inr h), draw, if_neg hz,
        bind_of_ok (span_of_le h), drawFrom_apply]
      exact ⟨rfl, rfl⟩
    · have h' := Nat.not_le.mp h
      have hf : m.spanFault? rows.toNat =
          some (.outOfMemory (m.index.toNat + rows.toNat - 1)) := by
        rw [Machine.spanFault?, if_pos h']
      rw [Machine.draw_eq_error_iff.mpr ⟨hz, hf⟩, draw, if_neg hz, bind_of_error (span_of_lt h')]
      exact ⟨rfl, rfl⟩

/-- Executed in place, an instruction does what the machine does. -/
theorem execute_matches {i : Instruction} (hi : i.InRange) (m : Machine) :
    ((execute i).run m).Matches m (m.execute i) := by
  cases i
  case ret => exact ret_matches m
  case call address => exact call_matches address m
  case draw x y n => exact draw_matches x y n m
  case waitKey x =>
    rw [execute, look_bind, Machine.execute]
    cases m.keypad.firstPressed? <;> exact ⟨rfl, rfl⟩
  case bcd x => exact bcd_matches x m
  case store x => exact store_matches hi m
  case restore x => exact restore_matches x m
  -- all others check nothing and branch nowhere
  all_goals exact ⟨rfl, rfl⟩

/-! ### Steps -/

/-- A word that lies in memory is fetched. -/
theorem fetch_of_lt (h : m.pc.toNat + 1 < 4096) :
    fetch.run m =
      ⟨.ok (Opcode.ofBytes (m.memory.get m.pc.toNat) (m.memory.get (m.pc.toNat + 1))), m,
        [.number 64 (m.pc.toNat + 1), .cells .memory m.pc.toNat 2]⟩ := by
  rw [fetch, look_bind, use_bind, if_neg (Nat.not_le.mpr h)]
  rfl

/-- Where its second byte would lie outside, the fetch is refused by that address. -/
theorem fetch_of_le (h : 4096 ≤ m.pc.toNat + 1) :
    fetch.run m =
      ⟨.error (.outOfMemory (m.pc.toNat + 1)), m, [.number 64 (m.pc.toNat + 1)]⟩ := by
  rw [fetch, look_bind, use_bind, if_pos h]
  rfl

/-- Made in place, a step answers what the machine answers and leaves the same machine behind, also
when it fails. -/
theorem step_agrees (m : Machine) :
    (step.run m).result = m.step.1 ∧ (step.run m).machine = m.step.2 := by
  by_cases h : m.pc.toNat + 1 < 4096
  · have hm := Machine.fetch_of_lt h
    have hp := fetch_of_lt h
    generalize Opcode.ofBytes _ _ = word at hm hp
    rw [step, bind_of_ok hp, bind_of_ok (change_run _)]
    -- from here on the word is on record
    cases hd : Instruction.decode? word with
    | none =>
      rw [Machine.step_of_decode?_none hm hd]
      exact ⟨rfl, rfl⟩
    | some i =>
      have hi := execute_matches (Instruction.inRange_of_decode? hd) (m.record word)
      rcases ho : (execute i).run (m.record word) with ⟨result, m₁, accesses⟩
      rw [ho] at hi
      cases he : (m.record word).execute i with
      | error fault =>
        rw [he] at hi
        obtain ⟨rfl, rfl⟩ := hi
        rw [Machine.step_of_execute_error hm hd he]
        exact ⟨congrArg Outcome.result (bind_of_error ho),
          congrArg Outcome.machine (bind_of_error ho)⟩
      | ok m' =>
        rw [he] at hi
        obtain ⟨rfl, rfl⟩ := hi
        rw [Machine.step_of_execute_ok hm hd he]
        exact ⟨congrArg Outcome.result (bind_of_ok ho), congrArg Outcome.machine (bind_of_ok ho)⟩
  · have h' := Nat.not_lt.mp h
    rw [step, bind_of_error (fetch_of_le h'), Machine.step_of_fetch_error (Machine.fetch_of_le h')]
    exact ⟨rfl, rfl⟩

/-- The same as one equation, for what follows a step. -/
theorem exists_step_run (m : Machine) :
    ∃ accesses, step.run m = ⟨m.step.1, m.step.2, accesses⟩ := by
  obtain ⟨hr, hm⟩ := step_agrees m
  refine ⟨(step.run m).accesses, ?_⟩
  rw [← hr, ← hm]

/-- Without a fault the handler is not asked. -/
theorem recover_of_ok {p : Procedure α} {handler : Fault → Procedure α} {a : α}
    {before : List Access} (h : p.run m = ⟨.ok a, m', before⟩) :
    (recover p handler).run m = ⟨.ok a, m', before⟩ := by
  simp only [recover, h]

/-- The handler goes on from the machine that the fault has left. -/
theorem recover_of_error {p : Procedure α} {handler : Fault → Procedure α} {fault : Fault}
    {before : List Access} (h : p.run m = ⟨.error fault, m', before⟩) :
    (recover p handler).run m = ((handler fault).run m').after before := by
  simp only [recover, h]

/-- A step of the driver that is made in place never fails, and its outcome is the driver after the
step. -/
theorem attempt_agrees (d : Driver) :
    ∃ halts, ((attempt d.options.onUnknown).run d.machine).result = .ok halts ∧
      d.attempt = { d with
        machine := ((attempt d.options.onUnknown).run d.machine).machine
        halted := d.halted || halts } := by
  obtain ⟨accesses, ho⟩ := exists_step_run d.machine
  rcases hs : d.machine.step with ⟨answer, m'⟩
  rw [hs] at ho
  cases answer with
  | ok i =>
    refine ⟨false, ?_, ?_⟩
    · rw [attempt, recover_of_ok (bind_of_ok ho)]
    · rw [attempt, recover_of_ok (bind_of_ok ho), Driver.attempt, hs, Bool.or_false]
      rfl
  | error fault =>
    rw [attempt, recover_of_error (bind_of_error ho), Driver.attempt, hs]
    by_cases ht : Driver.tolerates d.options.onUnknown fault = true
    · refine ⟨false, ?_, ?_⟩
      · simp only [if_pos ht]
        rfl
      · simp only [if_pos ht, Bool.or_false]
        rfl
    · refine ⟨true, ?_, ?_⟩
      · simp only [if_neg ht]
        rfl
      · simp only [if_neg ht, Bool.or_true]
        rfl

/-! ### Actions of a host -/

/-- Loaded in place, an image is stored or refused as by the machine. -/
private theorem load_matches (image : List UInt8) (m : Machine) :
    ((load image).run m).Matches m (m.load image) := by
  rw [load, Machine.load, Memory.load]
  split <;> exact ⟨rfl, rfl⟩

/-- Moved in place, a key is moved or refused as by the machine. -/
private theorem moveKey_matches (key : UInt8) (isPressed : Bool) (m : Machine) :
    ((moveKey key isPressed).run m).Matches m
      ((m.keypad.move key isPressed).map fun keypad => { m with keypad := keypad }) := by
  rw [moveKey, look_bind]
  cases m.keypad.move key isPressed <;> exact ⟨rfl, rfl⟩

/-- Made in place, an action is refused exactly where the machine refuses it, and leaves the same
machine behind. -/
theorem perform_agrees {a : Machine.Action} (ha : a.InRange) (m : Machine) :
    ((perform a).run m).Agrees (m.perform a) := by
  cases a with
  | load image => exact (load_matches image m).agrees
  | execute i => exact (execute_matches ha m).agrees
  | press key => exact (moveKey_matches key true m).agrees
  | release key => exact (moveKey_matches key false m).agrees
  | step =>
    obtain ⟨accesses, ho⟩ := exists_step_run m
    rcases hs : m.step with ⟨answer, m'⟩
    rw [hs] at ho
    rw [perform, Machine.perform, hs]
    cases answer with
    | ok i =>
      rw [bind_of_ok ho]
      exact Outcome.agrees_of_ok rfl (fun _ h => by cases h) rfl
    | error reason =>
      rw [bind_of_error ho]
      exact ⟨fun fault => by simp, rfl⟩
  | reset | skip | tick | clearScreen | takeFrame =>
    exact Outcome.agrees_of_ok rfl (fun _ h => by cases h) rfl

/-- Also in place, a refused action leaves everything but the word on record as it was. -/
theorem perform_of_refused {a : Machine.Action} {fault : Fault} (ha : a.InRange)
    (h : (m.perform a).1 = .refused fault) :
    ((perform a).run m).result = .error fault ∧
      ∃ word, ((perform a).run m).machine = m.record word := by
  have hagrees := perform_agrees ha m
  obtain ⟨word, hword⟩ := Machine.perform_of_refused h
  exact ⟨(hagrees.refused_iff fault).mpr h, word, hagrees.machine_eq.trans hword⟩

end Procedure

end Chip8
