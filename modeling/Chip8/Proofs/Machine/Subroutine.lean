import Chip8.Proofs.Machine.Control
import Chip8.Proofs.Machine.History

/-!
# Subroutines

A subroutine that comes back to the depth it was entered at resumes its caller behind the call,
whatever it did in between.

## Shape of the proof

The return stack is an array with a mark, and slots above the mark hold what earlier calls left in
them. The invariant is that the slots below a floor are not written as long as the depth does not
fall below it (`AgreeBelow`): a call writes at the depth, which is on or above the floor, and
nothing else writes at all. `Undisturbed.agreeBelow` carries it over any history, and
`Nested.resumes` over any nesting of calls and returns.
-/

namespace Chip8

/-! ## Slots below a floor -/

/-- The first `floor` slots of two stacks hold the same. -/
def ReturnStack.AgreeBelow (floor : Nat) (s t : ReturnStack) : Prop :=
  ∀ k < floor, t.slots[k]? = s.slots[k]?

namespace ReturnStack

variable {floor : Nat} {s t u : ReturnStack}

theorem AgreeBelow.refl (floor : Nat) (s : ReturnStack) : AgreeBelow floor s s := fun _ _ => rfl

/-- Slots that have been left alone twice have been left alone. -/
theorem AgreeBelow.trans (h : AgreeBelow floor s t) (h' : AgreeBelow floor t u) :
    AgreeBelow floor s u := fun k hk => (h' k hk).trans (h k hk)

/-- Below a lower floor there are fewer slots. -/
theorem AgreeBelow.mono {lower : Nat} (hle : lower ≤ floor) (h : AgreeBelow floor s t) :
    AgreeBelow lower s t := fun k hk => h k (Nat.lt_of_lt_of_le hk hle)

/-- A push writes on or above every floor that is not above the depth. -/
theorem agreeBelow_push? {address : UInt16} (h : s.push? address = some t)
    (hfloor : floor ≤ s.depth) : AgreeBelow floor s t := by
  intro k hk
  rw [getElem?_push? h, if_neg (Nat.ne_of_lt (Nat.lt_of_lt_of_le hk hfloor))]

/-- A pop writes no slot. -/
theorem agreeBelow_pop? {address : UInt16} (h : s.pop? = some (address, t)) :
    AgreeBelow floor s t := by
  intro k _
  rw [(pop?_eq_some h).2.1]

/-- What comes off a stack that is back at the depth of a push is what was pushed. -/
theorem pop?_of_agreeBelow {address : UInt16} (h : s.push? address = some t)
    (hagree : AgreeBelow t.depth t u) (hdepth : u.depth = t.depth) :
    ∃ r, u.pop? = some (address, r) ∧ r.depth = s.depth ∧ AgreeBelow s.depth s r := by
  have hd := depth_push? h
  cases hp : u.pop? with
  | none =>
    have hu := pop?_eq_none_iff.mp hp
    omega
  | some top =>
    obtain ⟨top, r⟩ := top
    obtain ⟨hr, hslots, htop⟩ := pop?_eq_some hp
    have hrs : r.depth = s.depth := by omega
    -- the slot of the push lies below the depth, so it still holds what was pushed
    have htop' : some top = some address := by
      rw [← htop, hrs, hagree s.depth (by omega), getElem?_push? h, if_pos rfl]
    cases htop'
    refine ⟨r, rfl, hrs, ?_⟩
    have hpush := agreeBelow_push? h (Nat.le_refl s.depth)
    exact (hpush.trans (hagree.mono (by omega))).trans (agreeBelow_pop? hp)

end ReturnStack

namespace Machine

variable {m m' m₁ m₂ : Machine} {floor : Nat}

/-- A step of the machine, successful or not, leaves the slots below its depth alone. -/
theorem agreeBelow_step (hfloor : floor ≤ m.stack.depth) :
    ReturnStack.AgreeBelow floor m.stack m.step.2.stack := by
  rcases hs : m.step with ⟨answer, m'⟩
  cases answer with
  | error fault =>
    obtain ⟨-, rfl⟩ := step_eq_error_iff.mp hs
    exact .refl _ _
  | ok i =>
    obtain ⟨word, -, -, he⟩ := step_eq_ok_iff.mp hs
    cases moves_of_execute he with
    | call push => exact ReturnStack.agreeBelow_push? push hfloor
    | ret pop => exact ReturnStack.agreeBelow_pop? pop
    | flow _ _ stack_eq _ =>
      rw [stack_eq]
      exact .refl _ _

/-- An action that belongs to the running of a program. -/
def Action.IsRunning : Action → Prop
  | .step | .skip | .tick | .press _ | .release _ => True
  | _ => False

/-- Skips, ticks and key events have nothing to do with the stack. -/
theorem stack_perform {a : Action} (ha : a.IsRunning) (hne : a ≠ .step) :
    (m.perform a).2.stack = m.stack := by
  cases a with
  | step => exact absurd rfl hne
  | skip | tick => rfl
  | press | release => rw [perform_of_keyEvent? rfl]
  | _ => exact absurd ha id

/-- With the depth at the floor or above it, no action of a running machine writes below. -/
theorem agreeBelow_perform {a : Action} (ha : a.IsRunning) (hfloor : floor ≤ m.stack.depth) :
    ReturnStack.AgreeBelow floor m.stack (m.perform a).2.stack := by
  by_cases hs : a = .step
  · subst hs
    rw [perform_step_snd]
    exact agreeBelow_step hfloor
  · rw [stack_perform ha hs]
    exact .refl _ _

/-! ## Histories above a floor -/

/-- A history of a running program in which every step succeeds and that never takes the stack
below a floor. -/
structure Undisturbed (floor : Nat) (m : Machine) (actions : List Action) : Prop where
  running : ∀ a ∈ actions, a.IsRunning
  succeeds : ∀ before rest, actions = before ++ .step :: rest →
    ∃ i, (m.after before).step.1 = .ok i
  above : ∀ before rest, actions = before ++ rest → floor ≤ (m.after before).stack.depth

/-- What is left of an undisturbed history is undisturbed. -/
theorem Undisturbed.tail {a : Action} {as : List Action} (h : Undisturbed floor m (a :: as)) :
    Undisturbed floor (m.perform a).2 as where
  running b hb := h.running b (List.mem_cons_of_mem a hb)
  succeeds before rest he := h.succeeds (a :: before) rest (by rw [he, List.cons_append])
  above before rest he := h.above (a :: before) rest (by rw [he, List.cons_append])

theorem undisturbed_nil (h : floor ≤ m.stack.depth) : Undisturbed floor m [] where
  running a ha := absurd ha List.not_mem_nil
  succeeds before rest he := by simp at he
  above before rest he := by
    obtain ⟨rfl, -⟩ := List.append_eq_nil_iff.mp he.symm
    exact h

/-- A history is undisturbed if its first action is, and the rest from there on. -/
theorem undisturbed_cons {a : Action} {as : List Action} (hfloor : floor ≤ m.stack.depth)
    (ha : a.IsRunning) (hstep : a = .step → ∃ i, m.step.1 = .ok i)
    (h : Undisturbed floor (m.perform a).2 as) : Undisturbed floor m (a :: as) where
  running b hb := by
    rcases List.mem_cons.mp hb with rfl | hb
    · exact ha
    · exact h.running b hb
  succeeds before rest he := by
    rcases before with _ | ⟨b, before⟩
    · exact hstep (List.cons.inj he).1
    · obtain ⟨rfl, has⟩ := List.cons.inj he
      exact h.succeeds before rest has
  above before rest he := by
    rcases before with _ | ⟨b, before⟩
    · exact hfloor
    · obtain ⟨rfl, has⟩ := List.cons.inj he
      exact h.above before rest has

/-- An undisturbed history leaves the slots below the floor alone. -/
theorem Undisturbed.agreeBelow {actions : List Action} (h : Undisturbed floor m actions) :
    ReturnStack.AgreeBelow floor m.stack (m.after actions).stack := by
  induction actions generalizing m with
  | nil => exact .refl _ _
  | cons a as ih =>
    have hfloor : floor ≤ m.stack.depth := h.above [] (a :: as) rfl
    exact (agreeBelow_perform (h.running a List.mem_cons_self) hfloor).trans (ih h.tail)

/-! ## Nested calls -/

/-- A run in which calls and returns are matched. The list holds, for each call, where it stood and
where its return led. -/
inductive Nested : Machine → List (UInt16 × UInt16) → Machine → Prop where
  | refl (m : Machine) : Nested m [] m
  /-- A skip, a tick or a key event. -/
  | event {m m₁ : Machine} {pairs : List (UInt16 × UInt16)} {a : Action} (run : Nested m pairs m₁)
      (running : a.IsRunning) (not_step : a ≠ .step) : Nested m pairs (m₁.perform a).2
  /-- A step that is no call and no return. -/
  | step {m m₁ m₂ : Machine} {pairs : List (UInt16 × UInt16)} {i : Instruction}
      (run : Nested m pairs m₁) (step : m₁.step = (.ok i, m₂))
      (not_call : ∀ address, i ≠ .call address) (not_ret : i ≠ .ret) : Nested m pairs m₂
  /-- A call, its subroutine, and the return from it. -/
  | call {m m₁ m₂ m₃ m₄ : Machine} {pairs inner : List (UInt16 × UInt16)} {address : UInt16}
      (run : Nested m pairs m₁) (enter : m₁.step = (.ok (.call address), m₂))
      (subroutine : Nested m₂ inner m₃) (leave : m₃.step = (.ok .ret, m₄)) :
      Nested m (pairs ++ inner ++ [(m₁.pc, m₄.pc)]) m₄

/-- A step that is no call and no return has nothing to do with the stack. -/
theorem stack_step {i : Instruction} (h : m.step = (.ok i, m'))
    (not_call : ∀ address, i ≠ .call address) (not_ret : i ≠ .ret) : m'.stack = m.stack := by
  obtain ⟨word, -, -, he⟩ := step_eq_ok_iff.mp h
  cases moves_of_execute he with
  | call _ => exact absurd rfl (not_call _)
  | ret _ => exact absurd rfl not_ret
  | flow _ _ stack_eq _ => exact stack_eq

/-- A matched run ends at the depth it began at, leaves the slots below alone, and resumes each
caller behind its call. -/
theorem Nested.resumes {pairs : List (UInt16 × UInt16)} (h : Nested m pairs m') :
    m'.stack.depth = m.stack.depth ∧
      ReturnStack.AgreeBelow m.stack.depth m.stack m'.stack ∧
      ∀ pair ∈ pairs, pair.2 = pair.1 + 2 := by
  induction h with
  | refl m => exact ⟨rfl, .refl _ _, by simp⟩
  | event run running not_step ih =>
    rw [stack_perform running not_step]
    exact ih
  | step run step not_call not_ret ih =>
    rw [stack_step step not_call not_ret]
    exact ih
  | @call m m₁ m₂ m₃ m₄ pairs inner address run enter subroutine leave ih ih' =>
    obtain ⟨hdepth, hagree, hpairs⟩ := ih
    obtain ⟨hdepth', hagree', hinner⟩ := ih'
    obtain ⟨_, -, -, he⟩ := step_eq_ok_iff.mp enter
    obtain ⟨stack, push, rfl⟩ := call_eq_ok_iff.mp he
    obtain ⟨_, -, -, hl⟩ := step_eq_ok_iff.mp leave
    obtain ⟨back, rest, pop, rfl⟩ := ret_eq_ok_iff.mp hl
    obtain ⟨rest', pop', hrest, hbelow⟩ := ReturnStack.pop?_of_agreeBelow push hagree' hdepth'
    -- the return has taken off what the call has pushed
    cases pop.symm.trans pop'
    refine ⟨hrest.trans hdepth, hagree.trans (hbelow.mono (Nat.le_of_eq hdepth.symm)), ?_⟩
    intro pair hp
    simp only [List.mem_append, List.mem_singleton] at hp
    rcases hp with (hp | hp) | rfl
    · exact hpairs pair hp
    · exact hinner pair hp
    · rfl

/-! ## Calls -/

/-- A return in `e` leads back behind the call that `m` is about to make. -/
def Resumes (m e : Machine) : Prop :=
  ∃ m', e.execute .ret = .ok m' ∧ m'.pc = m.pc + 2 ∧ m'.stack.depth = m.stack.depth ∧
    ReturnStack.AgreeBelow m.stack.depth m.stack m'.stack

/-- What is left of a call is enough to resume its caller. -/
private theorem resumes_of_agreeBelow {e : Machine} {stack : ReturnStack}
    (push : m.stack.push? m.pc = some stack)
    (hagree : ReturnStack.AgreeBelow stack.depth stack e.stack)
    (hdepth : e.stack.depth = stack.depth) : Resumes m e := by
  obtain ⟨rest, pop, hrest, hbelow⟩ := ReturnStack.pop?_of_agreeBelow push hagree hdepth
  exact ⟨_, ret_eq_ok_iff.mpr ⟨_, _, pop, rfl⟩, rfl, hrest, hbelow⟩

/-- A call with room on the stack is made, and a return resumes its caller behind it: after any
history that never takes the stack below the depth of the subroutine and ends at that depth, and
after any matched run. All calls inside a matched run are resumed behind themselves, too. -/
theorem execute_call_resumes (m : Machine) (address : UInt16) (h : m.stack.depth < 16) :
    ∃ m₁, m.execute (.call address) = .ok m₁ ∧ m₁.pc = address ∧
      m₁.stack.depth = m.stack.depth + 1 ∧
      (∀ actions, Undisturbed (m.stack.depth + 1) m₁ actions →
        (m₁.after actions).stack.depth = m.stack.depth + 1 → Resumes m (m₁.after actions)) ∧
      ∀ pairs m₂, Nested m₁ pairs m₂ → Resumes m m₂ ∧ ∀ pair ∈ pairs, pair.2 = pair.1 + 2 := by
  cases push : m.stack.push? m.pc with
  | none =>
    have hfull := ReturnStack.push?_eq_none_iff.mp push
    omega
  | some stack =>
    have hdepth := ReturnStack.depth_push? push
    refine ⟨_, call_eq_ok_iff.mpr ⟨stack, push, rfl⟩, rfl, hdepth, ?_, ?_⟩
    · intro actions hu hd
      rw [← hdepth] at hu hd
      exact resumes_of_agreeBelow push hu.agreeBelow hd
    · intro pairs m₂ hn
      obtain ⟨hd, hagree, hpairs⟩ := hn.resumes
      exact ⟨resumes_of_agreeBelow push hagree hd, hpairs⟩

/-- A machine with room for two more calls, in front of a subroutine at `0x400` that calls one at
`0x500`, which returns. -/
def almostFull : Machine :=
  { ofSeed 0 with
    memory := (Memory.zero.write 0x400 [0x25, 0x00]).write 0x500 [0x00, 0xEE]
    stack := { slots := Vector.replicate 16 0x300, depth := 14 } }

/-- The caller is resumed after its subroutine has used the last slot of the stack, too. -/
theorem execute_call_resumes_almostFull :
    almostFull.stack.depth < 16 ∧ ∃ m₁, almostFull.execute (.call 0x400) = .ok m₁ ∧
      Undisturbed 15 m₁ [.step, .tick, .step] ∧
      (m₁.after [.step, .tick, .step]).stack.depth = 15 ∧
      Resumes almostFull (m₁.after [.step, .tick, .step]) := by
  refine ⟨by decide, ?_⟩
  obtain ⟨m₁, hm₁, -, -, hresumes, -⟩ := execute_call_resumes almostFull 0x400 (by decide)
  have he : m₁ = almostFull.after [.execute (.call 0x400)] := by
    rw [after_cons, perform, hm₁]
    rfl
  have hu : Undisturbed 15 m₁ [.step, .tick, .step] := by
    subst he
    refine undisturbed_cons (by decide) trivial
      (fun _ => ⟨.call 0x500, by decide +kernel⟩) ?_
    refine undisturbed_cons (by decide +kernel) trivial (by simp) ?_
    refine undisturbed_cons (by decide +kernel) trivial
      (fun _ => ⟨.ret, by decide +kernel⟩) ?_
    exact undisturbed_nil (by decide +kernel)
  have hd : (m₁.after [.step, .tick, .step]).stack.depth = 15 := by
    subst he
    decide +kernel
  exact ⟨m₁, hm₁, hu, hd, hresumes _ hu hd⟩

end Machine

end Chip8
