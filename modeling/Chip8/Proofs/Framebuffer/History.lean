import Chip8.Framebuffer
import Mathlib.Algebra.Ring.Parity
import Mathlib.Data.List.Induction

/-!
# What the framebuffer holds

A cell shows what it was last given, inverted once for each toggle since. A clear gives every cell a
value and a set gives one to a single cell; a new picture is as if it had just been cleared.

## Shape of the proof

A history is cut behind the last action that gives the cell a value (`LastGiven`). There always is
such a cut (`exists_lastGiven`). Behind it the cell is only toggled, and each toggle inverts it
(`get_after_of_keepsGiven`), so the parity of their number is all that counts. The mark is followed
separately: it is raised by whatever touches the picture and lowered by `takeDirty` alone
(`dirty_after`).
-/

namespace Chip8

/-- What is in a list occurs there a last time. -/
theorem exists_last_occurrence {α : Type} {a : α} {as : List α} (h : a ∈ as) :
    ∃ before since, as = before ++ a :: since ∧ a ∉ since := by
  -- the last occurrence is the first in the reversed list
  obtain ⟨since, before, hreverse, hsince⟩ := List.eq_append_cons_of_mem (List.mem_reverse.mpr h)
  refine ⟨before.reverse, since.reverse, ?_, mt List.mem_reverse.mp hsince⟩
  rw [← List.reverse_reverse as, hreverse]
  simp

namespace Framebuffer

/-- One operation on a framebuffer. -/
inductive Action where
  | clear
  | set (index : Nat) (on : Bool)
  | toggle (index : Nat)
  | get (index : Nat)
  | takeDirty
deriving DecidableEq

/-- What an operation answers, if it answers anything, and the framebuffer after it. -/
def perform (f : Framebuffer) : Action → Option Bool × Framebuffer
  | .clear => (none, f.clear)
  | .set index on => (none, f.set index on)
  | .toggle index => let (was, f) := f.toggle index; (some was, f)
  | .get index => (some (f.get index), f)
  | .takeDirty => let (dirty, f) := f.takeDirty; (some dirty, f)

/-- The framebuffer after a list of operations. -/
def after (f : Framebuffer) (actions : List Action) : Framebuffer :=
  actions.foldl (fun f a => (f.perform a).2) f

variable {f : Framebuffer} {a : Action} {i j : Nat} {value : Bool} {actions since : List Action}

@[simp] theorem after_nil (f : Framebuffer) : f.after [] = f := rfl

@[simp] theorem after_cons (f : Framebuffer) (a : Action) (as : List Action) :
    f.after (a :: as) = (f.perform a).2.after as := rfl

theorem after_append (f : Framebuffer) (first second : List Action) :
    f.after (first ++ second) = (f.after first).after second :=
  List.foldl_append

/-! ## One cell -/

/-- The operation toggles the cell of an index. -/
def Action.toggles (i : Nat) : Action → Bool
  | .toggle j => j % 2048 = i % 2048
  | _ => false

/-- The operation gives the cell of an index no value of its own. -/
def Action.KeepsGiven (i : Nat) : Action → Prop
  | .clear => False
  | .set j _ => j % 2048 ≠ i % 2048
  | _ => True

/-- A cell that is given no value is inverted if it is toggled, and left alone otherwise. -/
theorem get_perform (h : a.KeepsGiven i) :
    (f.perform a).2.get i = (f.get i ^^ a.toggles i) := by
  cases a with
  | clear => exact absurd h id
  | set j on =>
    have hne : cell j ≠ cell i := fun hcell => h (cell_eq_iff.mp hcell)
    exact (get_set f j i on).trans (by simp [hne, Action.toggles])
  | toggle j =>
    refine (get_toggle f j i).trans ?_
    simp only [Action.toggles, cell_eq_iff]
  | get | takeDirty => exact (Bool.xor_false _).symm

/-- A cell that is only toggled shows the parity of the toggles. -/
theorem get_after_of_keepsGiven (h : ∀ a ∈ since, a.KeepsGiven i) :
    (f.after since).get i = (f.get i ^^ decide (Odd (since.countP (Action.toggles i)))) := by
  induction since generalizing f with
  | nil => simp
  | cons a as ih =>
    obtain ⟨hfirst, hrest⟩ := List.forall_mem_cons.mp h
    rw [after_cons, ih hrest, get_perform hfirst, List.countP_cons, Bool.xor_assoc]
    congr 1
    by_cases ht : a.toggles i = true
    · simp only [ht, if_true, Nat.odd_add_one, decide_not, Bool.true_xor]
    · simp [ht]

/-- A history, what it last gives the cell of an index, and what comes after that. -/
inductive LastGiven (i : Nat) : List Action → Bool → List Action → Prop where
  /-- The cell is given nothing, and a new picture is blank. -/
  | never {since : List Action} (kept : ∀ a ∈ since, a.KeepsGiven i) : LastGiven i since false since
  | cleared {before since : List Action} (kept : ∀ a ∈ since, a.KeepsGiven i) :
      LastGiven i (before ++ .clear :: since) false since
  | written {before since : List Action} {j : Nat} {on : Bool} (same : j % 2048 = i % 2048)
      (kept : ∀ a ∈ since, a.KeepsGiven i) : LastGiven i (before ++ .set j on :: since) on since

/-- What a cell was last given it was last given still after an action that gives it nothing. -/
theorem LastGiven.append (h : LastGiven i actions value since) (ha : a.KeepsGiven i) :
    LastGiven i (actions ++ [a]) value (since ++ [a]) := by
  have hlonger : ∀ since : List Action, (∀ b ∈ since, b.KeepsGiven i) →
      ∀ b ∈ since ++ [a], b.KeepsGiven i := fun since kept =>
    List.forall_mem_append.mpr ⟨kept, List.forall_mem_singleton.mpr ha⟩
  cases h with
  | never kept => exact .never (hlonger _ kept)
  | cleared kept =>
    rw [List.append_assoc, List.cons_append]
    exact .cleared (hlonger _ kept)
  | written same kept =>
    rw [List.append_assoc, List.cons_append]
    exact .written same (hlonger _ kept)

/-- Every history has such a cut; for a cell that was never given anything it is at the start. -/
theorem exists_lastGiven (i : Nat) (actions : List Action) :
    ∃ value since, LastGiven i actions value since := by
  induction actions using List.reverseRecOn with
  | nil => exact ⟨false, [], .never (by simp)⟩
  | append_singleton as a ih =>
    obtain ⟨value, since, hlast⟩ := ih
    cases a with
    | clear => exact ⟨false, [], .cleared (by simp)⟩
    | set j on =>
      by_cases hsame : j % 2048 = i % 2048
      · exact ⟨on, [], .written hsame (by simp)⟩
      · exact ⟨value, _, hlast.append hsame⟩
    | toggle | get | takeDirty => exact ⟨value, _, hlast.append trivial⟩

/-- A cell shows what it was last given, inverted once for each toggle since. -/
theorem LastGiven.get_after (h : LastGiven i actions value since) :
    (blank.after actions).get i = (value ^^ decide (Odd (since.countP (Action.toggles i)))) := by
  cases h with
  | never kept =>
    rw [get_after_of_keepsGiven kept]
    congr 1
    exact get_clear blank i
  | @cleared before _ kept =>
    rw [after_append, after_cons, get_after_of_keepsGiven kept]
    congr 1
    exact get_clear (blank.after before) i
  | @written before _ j _ same kept =>
    rw [after_append, after_cons, get_after_of_keepsGiven kept]
    congr 1
    exact (get_set (blank.after before) j i value).trans (if_pos (cell_eq_iff.mpr same))

/-! ## The mark -/

/-- The operation touches the picture. -/
def Action.Touches : Action → Prop
  | .clear | .set _ _ | .toggle _ => True
  | .get _ | .takeDirty => False

/-- Unless it takes the mark, an operation raises it exactly if it touches the picture. -/
theorem dirty_perform (h : a ≠ .takeDirty) :
    (f.perform a).2.dirty = true ↔ f.dirty = true ∨ a.Touches := by
  cases a with
  | clear | set | toggle => exact iff_of_true rfl (Or.inr trivial)
  | get => exact (or_iff_left id).symm
  | takeDirty => exact absurd rfl h

/-- As long as nobody takes the mark, it is raised exactly if it was or something has touched the
picture. -/
theorem dirty_after (h : .takeDirty ∉ actions) :
    (f.after actions).dirty = true ↔ f.dirty = true ∨ ∃ a ∈ actions, a.Touches := by
  induction actions generalizing f with
  | nil => simp
  | cons a as ih =>
    simp only [List.mem_cons, not_or] at h
    obtain ⟨hfirst, hrest⟩ := h
    rw [after_cons, ih hrest, dirty_perform (Ne.symm hfirst), or_assoc]
    simp only [List.mem_cons, exists_eq_or_imp]

/-- The mark of a new picture is raised until it is taken, and from then on if something has touched
the picture since it was taken last. -/
theorem dirty_after_blank :
    (blank.after actions).dirty = true ↔ .takeDirty ∉ actions ∨
      ∃ before since, actions = before ++ .takeDirty :: since ∧ .takeDirty ∉ since ∧
        ∃ a ∈ since, a.Touches := by
  have hsince : ∀ before since : List Action, .takeDirty ∉ since →
      ((blank.after (before ++ .takeDirty :: since)).dirty = true ↔ ∃ a ∈ since, a.Touches) := by
    intro before since hnot
    rw [after_append, after_cons, dirty_after hnot]
    exact or_iff_right Bool.false_ne_true
  constructor
  · intro hdirty
    by_cases hmem : .takeDirty ∈ actions
    · obtain ⟨before, since, rfl, hnot⟩ := exists_last_occurrence hmem
      exact Or.inr ⟨before, since, rfl, hnot, (hsince before since hnot).mp hdirty⟩
    · exact Or.inl hmem
  · rintro (hnot | ⟨before, since, rfl, hnot, htouched⟩)
    · exact (dirty_after hnot).mpr (Or.inl rfl)
    · exact (hsince before since hnot).mpr htouched

/-! ## Histories -/

/-- After any history of a new picture, each cell shows what it was last given, inverted once for
each toggle since, and a toggle and a read answer just that. A set or a toggle leaves the other
cells alone. The mark is up if it is taken for the first time, or if something has touched the
picture since it was taken last. -/
theorem history_after_blank (actions : List Action) :
    let f := blank.after actions
    (∀ i, ∃ value since, LastGiven i actions value since) ∧
    (∀ i value since, LastGiven i actions value since →
      let shown := value ^^ decide (Odd (since.countP (Action.toggles i)))
      f.perform (.get i) = (some shown, f) ∧ (f.perform (.toggle i)).1 = some shown) ∧
    (∀ i j, i % 2048 ≠ j % 2048 →
      (f.perform (.toggle j)).2.get i = f.get i ∧ ∀ on, (f.perform (.set j on)).2.get i = f.get i) ∧
    ((f.perform .takeDirty).1 = some true ↔ .takeDirty ∉ actions ∨
      ∃ before since, actions = before ++ .takeDirty :: since ∧ .takeDirty ∉ since ∧
        ∃ a ∈ since, a.Touches) := by
  intro f
  refine ⟨fun i => exists_lastGiven i actions, ?_, ?_, ?_⟩
  · intro i value since hlast shown
    have hget : f.get i = shown := hlast.get_after
    exact ⟨by rw [perform, hget], congrArg some hget⟩
  · intro i j hne
    have htoggle : (Action.toggle j).toggles i = false := decide_eq_false (Ne.symm hne)
    have kept : (Action.toggle j).KeepsGiven i := trivial
    have kept' : ∀ on, (Action.set j on).KeepsGiven i := fun _ => Ne.symm hne
    refine ⟨?_, fun on => ?_⟩
    · rw [get_perform kept, htoggle, Bool.xor_false]
    · exact (get_perform (kept' on)).trans (Bool.xor_false _)
  · rw [← dirty_after_blank]
    exact Option.some_inj

/-- The last index of 64 bits names the last cell. It is switched on, taken notice of and toggled
through another name, so it is dark, and the mark is up again. Its neighbour was given nothing since
the clear and is lit by a single toggle. -/
theorem history_after_blank_lastIndex :
    let given : List Action := [.toggle 0, .clear, .set 18446744073709551615 true]
    let since : List Action := [.takeDirty, .toggle 4095, .toggle 2046, .get 7]
    let f := blank.after (given ++ since)
    LastGiven 2047 (given ++ since) true since ∧
      LastGiven 2046 (given ++ since) false (.set 18446744073709551615 true :: since) ∧
      f.perform (.get 2047) = (some false, f) ∧ (f.perform (.toggle 2046)).1 = some true ∧
      (f.perform .takeDirty).1 = some true := by
  intro given since f
  have hlast : LastGiven 2047 (given ++ since) true since :=
    @LastGiven.written 2047 [.toggle 0, .clear] since _ _ (by decide)
      (by simp [since, Action.KeepsGiven])
  have hneighbour : LastGiven 2046 (given ++ since) false
      (.set 18446744073709551615 true :: since) :=
    @LastGiven.cleared 2046 [.toggle 0] _ (by simp [since, Action.KeepsGiven])
  obtain ⟨-, hcells, -, hmark⟩ := history_after_blank (given ++ since)
  refine ⟨hlast, hneighbour, (hcells _ _ _ hlast).1, (hcells _ _ _ hneighbour).2, hmark.mpr ?_⟩
  exact Or.inr ⟨given, _, rfl, by decide, .toggle 4095, by simp, trivial⟩

end Framebuffer

end Chip8
