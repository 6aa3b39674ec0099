import Chip8.Proofs.Machine.Effect
import Chip8.Proofs.Machine.Periphery

/-!
# When a tone sounds

A timer holds what a program has put there, less one for each tick since, down to zero. A tone
sounds at the tick at which the sound timer goes from one to zero. So a sound of length `s` is heard
at the tick number `s` behind it and at no other.

## Shape of the proof

Both timers obey the same law, which is about a `Timer`. One action puts a register into the timer,
resets it, counts it down or leaves it alone. If nothing is put into it, a timer counts down along a
history (`toNat_timer_after`), and the tones of the history are those of the countdown
(`tones_performAll`). If nothing but zero is put into it, a timer that has run out stays at zero
(`timer_after_eq_zero`), so a tone needs a sound that was put there. `ToneLaw` joins the three.
-/

namespace Chip8

/-- The two timers. -/
inductive Timer where
  | delay
  | sound

/-- The instruction that puts Vx into a timer. -/
def Timer.setter : Timer → UInt8 → Instruction
  | .delay, x => .setDelay x
  | .sound, x => .setSound x

namespace Machine

variable {m m' : Machine} {t : Timer} {a : Action} {i : Instruction} {actions : List Action}
  {x : UInt8}

/-- What a timer holds. -/
def timer (m : Machine) : Timer → UInt8
  | .delay => m.delay
  | .sound => m.sound

/-! ## One action -/

/-- An instruction that does not set a timer leaves it alone. -/
theorem timer_of_execute (hi : ∀ x, i ≠ t.setter x) (h : m.execute i = .ok m') :
    m'.timer t = m.timer t := by
  by_cases hp : i.IsPeripheral
  · cases i
    case setDelay x =>
      cases h
      cases t
      · exact absurd rfl (hi x)
      · rfl
    case setSound x =>
      cases h
      cases t
      · rfl
      · exact absurd rfl (hi x)
    case waitKey x =>
      rw [execute] at h
      split at h <;> cases h <;> cases t <;> rfl
    case random | skipKey | skipNotKey | getDelay =>
      cases h
      cases t <;> rfl
    all_goals exact absurd hp id
  · have hperiphery := periphery_of_execute hp h
    cases t
    · exact congrArg Periphery.delay hperiphery
    · exact congrArg Periphery.sound hperiphery

/-- The one that does puts a register into it. -/
theorem timer_of_execute_setter (h : m.execute (t.setter x) = .ok m') : m'.timer t = m.v x := by
  cases t <;> cases h <;> rfl

/-- What is put into a timer is there afterwards. -/
theorem timer_perform_of_setter (hx : m.executed? a = some (t.setter x)) :
    (m.perform a).2.timer t = m.v x := by
  obtain ⟨word, he⟩ := execute_of_executed? hx
  have htimer : (m.perform a).2.timer t = (m.record word).v x := timer_of_execute_setter he
  exact htimer

/-- A tick counts both timers down. -/
theorem timer_perform_tick (m : Machine) (t : Timer) :
    (m.perform .tick).2.timer t = countDown (m.timer t) := by
  cases t <;> rfl

theorem timer_perform_reset (m : Machine) (t : Timer) : (m.perform .reset).2.timer t = 0 := by
  cases t <;> rfl

/-- Nothing but its instruction, a reset and a tick changes a timer. -/
theorem timer_perform (hreset : a ≠ .reset) (htick : a ≠ .tick)
    (hx : ∀ x, m.executed? a ≠ some (t.setter x)) : (m.perform a).2.timer t = m.timer t := by
  have heffect := effect_perform m a
  generalize (m.perform a).2 = m' at heffect ⊢
  cases heffect with
  | @executed _ i _ word executed_eq execute_eq =>
    have hi : ∀ x, i ≠ t.setter x := by
      rintro x rfl
      exact hx x executed_eq
    have htimer : m'.timer t = (m.record word).timer t := timer_of_execute hi execute_eq
    rw [htimer]
    cases t <;> rfl
  | reset => exact absurd rfl hreset
  | ticked => exact absurd rfl htick
  | _ => cases t <;> rfl

/-! ## Histories that leave a timer alone -/

/-- A history neither resets the machine nor puts anything into the timer. -/
def LeavesAlone (t : Timer) (m : Machine) (actions : List Action) : Prop :=
  .reset ∉ actions ∧ ∀ x, t.setter x ∉ m.executedIn actions

/-- A history leaves a timer alone if its first action does and the rest does. -/
theorem leavesAlone_cons {as : List Action} :
    LeavesAlone t m (a :: as) ↔
      (a ≠ .reset ∧ ∀ x, m.executed? a ≠ some (t.setter x)) ∧
        LeavesAlone t (m.perform a).2 as := by
  simp only [LeavesAlone, executedIn, List.mem_cons, List.mem_append, Option.mem_toList,
    not_or, forall_and, ne_comm (a := a), ne_eq]
  exact and_and_and_comm

/-- A timer that is left alone has lost one for each tick, down to zero. -/
theorem toNat_timer_after (h : LeavesAlone t m actions) :
    ((m.after actions).timer t).toNat = (m.timer t).toNat - actions.count .tick := by
  induction actions generalizing m with
  | nil => rfl
  | cons a as ih =>
    obtain ⟨⟨hreset, hx⟩, has⟩ := leavesAlone_cons.mp h
    rw [after_cons, ih has]
    by_cases ha : a = .tick
    · subst ha
      rw [timer_perform_tick, toNat_countDown, List.count_cons_self]
      omega
    · rw [timer_perform hreset ha hx, List.count_cons_of_ne ha]

/-! ## Tones -/

/-- What a tick has answered. -/
def Reply.tone? : Reply → Option Bool
  | .tone sounds => some sounds
  | _ => none

/-- The answers of the ticks among the replies, in order. -/
def tones (replies : List Reply) : List Bool :=
  replies.filterMap Reply.tone?

/-- The tones of two parts of a history, one after the other. -/
theorem tones_append (first second : List Reply) :
    tones (first ++ second) = tones first ++ tones second :=
  List.filterMap_append

theorem perform_tick_fst (m : Machine) : (m.perform .tick).1 = .tone (m.sound == 1) := rfl

/-- Only a tick answers a tone. -/
theorem tone?_perform (ha : a ≠ .tick) : (m.perform a).1.tone? = none := by
  by_cases hframe : a = .takeFrame
  · subst hframe
    rfl
  · rcases perform_fst_cases (m := m) ha hframe with h | ⟨fault, h⟩ | ⟨i, h⟩ <;> rw [h] <;> rfl

theorem tones_performAll_tick (m : Machine) (as : List Action) :
    tones (m.performAll (.tick :: as)).1 =
      (m.sound == 1) :: tones ((m.perform .tick).2.performAll as).1 := rfl

/-- No other action adds a tone. -/
theorem tones_performAll_of_ne_tick (ha : a ≠ .tick) (as : List Action) :
    tones (m.performAll (a :: as)).1 = tones ((m.perform a).2.performAll as).1 :=
  List.filterMap_cons_none (tone?_perform ha)

/-- Without ticks there are no tones. -/
theorem tones_performAll_of_tick_notMem (ha : .tick ∉ actions) :
    tones (m.performAll actions).1 = [] := by
  induction actions generalizing m with
  | nil => rfl
  | cons a as ih =>
    obtain ⟨hne, has⟩ := not_or.mp (mt List.mem_cons.mpr ha)
    rw [tones_performAll_of_ne_tick (Ne.symm hne), ih has]

/-- The tones of a countdown from `s`: the tick number `s` sounds, counted from one. -/
def countdownTones (s ticks : Nat) : List Bool :=
  (List.range ticks).map fun k => decide (s = k + 1)

/-- The first tick of a countdown sounds if one is left, and the others go on from one less. -/
theorem countdownTones_succ (s ticks : Nat) :
    countdownTones s (ticks + 1) = decide (s = 1) :: countdownTones (s - 1) ticks := by
  have hshift : ∀ k, decide (s = k + 1 + 1) = decide (s - 1 = k + 1) := fun k =>
    decide_eq_decide.mpr (by omega)
  rw [countdownTones, List.range_succ_eq_map, List.map_cons, List.map_map]
  exact congrArg _ (List.map_congr_left fun k _ => hshift k)

/-- As long as the sound timer is left alone, the ticks answer the tones of its countdown. -/
theorem tones_performAll (h : LeavesAlone .sound m actions) :
    tones (m.performAll actions).1 = countdownTones m.sound.toNat (actions.count .tick) := by
  induction actions generalizing m with
  | nil => rfl
  | cons a as ih =>
    obtain ⟨⟨hreset, hx⟩, has⟩ := leavesAlone_cons.mp h
    by_cases ha : a = .tick
    · subst ha
      have hsound : (m.perform .tick).2.sound.toNat = m.sound.toNat - 1 := toNat_countDown _
      have hfirst : (m.sound == 1) = decide (m.sound.toNat = 1) := by
        rw [Bool.beq_eq_decide_eq, decide_eq_decide, ← UInt8.toNat_inj]
        rfl
      rw [tones_performAll_tick, ih has, hsound, hfirst, List.count_cons_self, countdownTones_succ]
    · have hsound : (m.perform a).2.sound = m.sound := timer_perform (t := .sound) hreset ha hx
      rw [tones_performAll_of_ne_tick ha, ih has, hsound, List.count_cons_of_ne ha]

/-! ## What comes before a tone -/

/-- The action puts something other than zero into the timer. -/
def Arms (t : Timer) (m : Machine) (a : Action) : Prop :=
  ∃ x, m.executed? a = some (t.setter x) ∧ m.v x ≠ 0

/-- A timer that has run out is not set going by any action that does not arm it. -/
theorem timer_perform_eq_zero (h : m.timer t = 0) (ha : ¬ Arms t m a) :
    (m.perform a).2.timer t = 0 := by
  by_cases hx : ∃ x, m.executed? a = some (t.setter x)
  · obtain ⟨x, hx⟩ := hx
    rw [timer_perform_of_setter hx]
    exact not_not.mp fun hne => ha ⟨x, hx, hne⟩
  · by_cases hreset : a = .reset
    · rw [hreset, timer_perform_reset]
    · by_cases htick : a = .tick
      · rw [htick, timer_perform_tick, h]
        rfl
      · rw [timer_perform hreset htick (not_exists.mp hx), h]

/-- A timer that has run out stays at zero until it is armed. -/
theorem timer_after_eq_zero (h : m.timer t = 0) (ha : ¬ OccursIn (Arms t) m actions) :
    (m.after actions).timer t = 0 := by
  induction actions generalizing m with
  | nil => exact h
  | cons a as ih =>
    obtain ⟨hfirst, hrest⟩ := not_or.mp (mt occursIn_cons.mpr ha)
    exact ih (timer_perform_eq_zero h hfirst) hrest

/-- A point of a history from which no tone is due: the start of a new machine, behind a reset, or
behind a tick that has sounded. -/
inductive Silent (m : Machine) : List Action → Prop where
  | fresh {random : RandomSource} {keypad : Keypad} (eq_fresh : m = .fresh random keypad) :
      Silent m []
  | reset (before : List Action) : Silent m (before ++ [.reset])
  | sounded {before : List Action}
      (reply_eq : ((m.after before).perform .tick).1 = .tone true) : Silent m (before ++ [.tick])

/-- A tick sounds exactly if the sound timer is at one. -/
theorem perform_tick_fst_eq_true_iff : (m.perform .tick).1 = .tone true ↔ m.sound = 1 := by
  rw [perform_tick_fst]
  simp

/-- At such a point the sound timer has run out. -/
theorem Silent.sound_eq (h : m.Silent actions) : (m.after actions).sound = 0 := by
  cases h with
  | fresh eq_fresh =>
    rw [eq_fresh]
    rfl
  | reset before =>
    rw [after_append]
    rfl
  | @sounded before reply_eq =>
    have hsound := perform_tick_fst_eq_true_iff.mp reply_eq
    have hafter : (m.after (before ++ [.tick])).sound = countDown (m.after before).sound := by
      rw [after_append]
      rfl
    rw [hafter, hsound]
    rfl

/-! ## The law -/

/-- What a history says about tones and about the delay timer. -/
structure ToneLaw (m : Machine) (history : List Action) : Prop where
  /-- Before a tone, and behind the tone before it, a sound other than zero is put into the
  timer. -/
  armed : ∀ before since rest, history = before ++ since ++ .tick :: rest → m.Silent before →
    ((m.after (before ++ since)).perform .tick).1 = .tone true →
    OccursIn (Arms .sound) (m.after before) since
  /-- A sound is heard at the tick that its length says, if it is left alone until then. -/
  sounds : ∀ before a since rest x, history = before ++ a :: since ++ rest →
    (m.after before).executed? a = some (.setSound x) →
    LeavesAlone .sound (m.after (before ++ [a])) since →
    tones (m.performAll history).1 =
      tones (m.performAll before).1 ++
        countdownTones ((m.after before).v x).toNat (since.count .tick) ++
        tones ((m.after (before ++ a :: since)).performAll rest).1
  /-- The delay timer has lost one for each tick, and so it is read. -/
  delays : ∀ before a since rest x, history = before ++ a :: since ++ rest →
    (m.after before).executed? a = some (.setDelay x) →
    LeavesAlone .delay (m.after (before ++ [a])) since →
    (m.after (before ++ a :: since)).delay.toNat =
        ((m.after before).v x).toNat - since.count .tick ∧
      ∀ b y, (m.after (before ++ a :: since)).executed? b = some (.getDelay y) →
        ((m.after (before ++ a :: since ++ [b])).v y).toNat =
          ((m.after before).v x).toNat - since.count .tick

/-- The delay timer is read as it stands. -/
theorem v_perform_of_getDelay (hx : m.executed? a = some (.getDelay x)) :
    (m.perform a).2.v x = m.delay := by
  obtain ⟨word, he⟩ := execute_of_executed? hx
  have hm : (m.record word).setV x m.delay = (m.perform a).2 := Except.ok.inj he
  rw [← hm]
  exact Registers.get_set_self _ _ _

/-- The law holds for every machine and every history. -/
theorem toneLaw (m : Machine) (history : List Action) : m.ToneLaw history where
  armed before since rest _ hsilent htone := by
    -- a timer at zero that is not set stays there, and then the tick is silent
    by_contra hnot
    have hzero := timer_after_eq_zero (t := .sound) hsilent.sound_eq hnot
    rw [← after_append] at hzero
    have hone := perform_tick_fst_eq_true_iff.mp htone
    exact absurd (hone.symm.trans hzero) (by decide)
  sounds before a since rest x hsplit hx halone := by
    have ha : a ≠ .tick := by
      rintro rfl
      cases hx
    have hset : (m.after (before ++ [a])).sound = (m.after before).v x := by
      rw [after_concat]
      exact timer_perform_of_setter (t := .sound) hx
    -- the tones are those of the parts of the history, and the setting itself is no tick
    have hsince := tones_performAll halone
    rw [hset, after_concat] at hsince
    rw [hsplit, performAll_append_fst, performAll_append_fst, tones_append, tones_append,
      tones_performAll_of_ne_tick ha, hsince]
  delays before a since rest x _ hx halone := by
    have hset : (m.after (before ++ [a])).delay = (m.after before).v x := by
      rw [after_concat]
      exact timer_perform_of_setter (t := .delay) hx
    have hdelay : (m.after (before ++ a :: since)).delay.toNat =
        ((m.after before).v x).toNat - since.count .tick := by
      rw [List.append_cons, after_append, ← hset]
      exact toNat_timer_after halone
    refine ⟨hdelay, ?_⟩
    intro b y hy
    rw [after_concat, v_perform_of_getDelay hy]
    exact hdelay

end Machine

end Chip8
