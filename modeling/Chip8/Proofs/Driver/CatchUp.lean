import Chip8.Driver.Schedule
import Mathlib.Data.Set.Card

/-!
# Catching up with a schedule

Frames are due at a start and at every whole interval after it. A host that never falls four
intervals behind plays each of them once, however its wake-ups are spread; one that does plays four
frames and starts its schedule anew.

## Shape of the proof

`dueCount` is the number of frames due, in closed form, and `lt_dueCount_iff` is what it means. A
wake-up that is in time plays `dueCount` frames (`framesDue_of_lt`), and counts add up over wake-ups
(`dueCount_add`), so a run of wake-ups plays what its last one alone would have found due.
-/

namespace Chip8.Schedule

variable {d next now : Nat}

/-! ## The frames due -/

/-- The number of frames due at `now`, when the next is due at `next` and the others at intervals of
`d` after it. -/
def dueCount (d next now : Nat) : Nat :=
  if next ≤ now then (now - next) / d + 1 else 0

/-- Frame `k` is counted exactly if its time has come. -/
theorem lt_dueCount_iff (hd : 0 < d) {k : Nat} :
    k < dueCount d next now ↔ next + k * d ≤ now := by
  unfold dueCount
  split
  next h =>
    rw [Nat.lt_succ_iff, Nat.le_div_iff_mul_le hd]
    omega
  next h =>
    have hle : next ≤ next + k * d := Nat.le_add_right _ _
    omega

/-- The first frame that is not counted lies ahead. -/
theorem lt_add_dueCount_mul (hd : 0 < d) : now < next + dueCount d next now * d := by
  by_contra h
  exact lt_irrefl _ ((lt_dueCount_iff hd).mpr (not_lt.mp h))

/-- The frames due at a time are those due at an earlier one and those that come due after it. -/
theorem dueCount_add (hd : 0 < d) (next : Nat) {earlier : Nat} (h : earlier ≤ now) :
    dueCount d next earlier + dueCount d (next + dueCount d next earlier * d) now =
      dueCount d next now := by
  refine eq_of_forall_lt_iff fun k => ?_
  rw [lt_dueCount_iff hd]
  rcases lt_or_ge k (dueCount d next earlier) with hk | hk
  · have hearlier := (lt_dueCount_iff hd).mp hk
    exact iff_of_true (by omega) (by omega)
  · obtain ⟨j, rfl⟩ := Nat.exists_eq_add_of_le hk
    rw [Nat.add_lt_add_iff_left, lt_dueCount_iff hd, Nat.add_mul, Nat.add_assoc]

/-- The frames due, as a set of numbers. -/
theorem encard_due (hd : 0 < d) : {k | next + k * d ≤ now}.encard = dueCount d next now := by
  have hset : {k | next + k * d ≤ now} = (Finset.range (dueCount d next now) : Set Nat) := by
    ext k
    rw [Finset.mem_coe, Finset.mem_range, lt_dueCount_iff hd]
    rfl
  rw [hset, Set.encard_coe_eq_coe_finsetCard, Finset.card_range]

/-! ## One wake-up -/

/-- Unless the limit is reached, the loop plays the frames due, and the schedule goes on. -/
theorem catchUp_of_lt (hd : 0 < d) {limit : Nat} (h : now < next + limit * d) :
    catchUp d now limit next = (dueCount d next now, next + dueCount d next now * d) := by
  induction limit generalizing next with
  | zero =>
    have hlt : ¬ next ≤ now := by omega
    rw [catchUp, if_neg hlt, dueCount, if_neg hlt, Nat.zero_mul, Nat.add_zero]
  | succ limit ih =>
    rw [catchUp]
    split
    next hle =>
      have hfirst : dueCount d next next = 1 := by simp [dueCount]
      have hrest := dueCount_add hd next hle
      rw [hfirst, Nat.one_mul] at hrest
      rw [Nat.succ_mul] at h
      rw [ih (by omega), ← hrest, Nat.add_mul]
      simp only [Nat.one_mul, Prod.mk.injEq]
      omega
    next hlt => rw [dueCount, if_neg hlt, Nat.zero_mul, Nat.add_zero]

/-- Where it is reached, the loop plays as many as that, and the schedule starts anew. -/
theorem catchUp_of_le {limit : Nat} (h : next + limit * d ≤ now) :
    catchUp d now limit next = (limit, now + d) := by
  induction limit generalizing next with
  | zero => rw [catchUp, if_pos (by omega)]
  | succ limit ih =>
    rw [Nat.succ_mul] at h
    rw [catchUp, if_pos (by omega), ih (by omega)]

/-- A wake-up in time plays the frames due. -/
theorem framesDue_of_lt (hd : 0 < d) (h : now < next + maxCatchUp * d) :
    framesDue d next now = (dueCount d next now, next + dueCount d next now * d) :=
  catchUp_of_lt hd h

/-- A late one plays the most that may be caught up with, and gives up the rest. -/
theorem framesDue_of_le (h : next + maxCatchUp * d ≤ now) :
    framesDue d next now = (maxCatchUp, now + d) :=
  catchUp_of_le h

/-- Nothing is due before the schedule. -/
theorem framesDue_of_now_lt (h : now < next) : framesDue d next now = (0, next) := by
  rw [framesDue, catchUp, if_neg (by omega)]

/-- The next frame always lies ahead. -/
theorem now_lt_framesDue (hd : 0 < d) : now < (framesDue d next now).2 := by
  rcases lt_or_ge now (next + maxCatchUp * d) with h | h
  · rw [framesDue_of_lt hd h]
    exact lt_add_dueCount_mul hd
  · rw [framesDue_of_le h]
    exact Nat.lt_add_of_pos_right hd

/-- No wake-up plays more frames than may be caught up with. -/
theorem framesDue_fst_le (hd : 0 < d) : (framesDue d next now).1 ≤ maxCatchUp := by
  rcases lt_or_ge now (next + maxCatchUp * d) with h | h
  · rw [framesDue_of_lt hd h]
    by_contra hlt
    have hdue := (lt_dueCount_iff hd).mp (not_le.mp hlt)
    omega
  · rw [framesDue_of_le h]

/-! ## Many wake-ups -/

/-- The wake-ups of a host at given times: the frames that each of them plays, and the schedule
after the last. -/
def wakeUps (d : Nat) : Nat → List Nat → List Nat × Nat
  | next, [] => ([], next)
  | next, now :: times =>
    let (due, next) := framesDue d next now
    let (dues, next) := wakeUps d next times
    (due :: dues, next)

/-- Each wake-up comes before the schedule that it finds is four intervals old. -/
def InTime (d : Nat) : Nat → List Nat → Prop
  | _, [] => True
  | next, now :: times =>
    now < next + maxCatchUp * d ∧ InTime d (framesDue d next now).2 times

/-- Each wake-up leaves its schedule to the next one. -/
theorem wakeUps_cons (times : List Nat) :
    wakeUps d next (now :: times) =
      ((framesDue d next now).1 :: (wakeUps d (framesDue d next now).2 times).1,
        (wakeUps d (framesDue d next now).2 times).2) :=
  rfl

/-- Wake-ups in time play what is due at the last of them, and move the schedule past that. -/
theorem wakeUps_of_inTime (hd : 0 < d) {times : List Nat} {last : Nat}
    (hlast : (now :: times).getLast (List.cons_ne_nil _ _) = last)
    (hsorted : (now :: times).Pairwise (· ≤ ·)) (hinTime : InTime d next (now :: times)) :
    (wakeUps d next (now :: times)).1.sum = dueCount d next last ∧
      (wakeUps d next (now :: times)).2 = next + dueCount d next last * d := by
  induction times generalizing next now with
  | nil =>
    subst hlast
    simp [wakeUps, framesDue_of_lt hd hinTime.1]
  | cons time times ih =>
    obtain ⟨hle, hsorted⟩ := List.pairwise_cons.mp hsorted
    obtain ⟨hnow, hlater⟩ := hinTime
    rw [List.getLast_cons (List.cons_ne_nil _ _)] at hlast
    have hlate : now ≤ last := hle _ (hlast ▸ List.getLast_mem _)
    rw [framesDue_of_lt hd hnow] at hlater
    obtain ⟨hsum, hnext⟩ := ih hlast hsorted hlater
    have hadd := dueCount_add hd next hlate
    rw [wakeUps_cons, framesDue_of_lt hd hnow]
    constructor
    · rw [List.sum_cons, hsum, ← hadd]
    · rw [hnext, ← hadd, Nat.add_mul, Nat.add_assoc]

/-- No frame is lost or played twice. Wake-ups that are in time play as many frames as are due at
the last of them, whatever the others were, and leave the schedule at the first frame after it. A
wake-up four intervals late plays four frames and starts the schedule anew. None plays more than
four, and a second one at the same time plays none. -/
theorem wakeUps_play_each_frame (hd : 0 < d) :
    (∀ (start : Nat) (times : List Nat) (hne : times ≠ []),
      times.Pairwise (· ≤ ·) → InTime d start times →
      let last := times.getLast hne
      let run := wakeUps d start times
      {k | start + k * d ≤ last}.encard = run.1.sum ∧
        run.2 = start + run.1.sum * d ∧ last < run.2) ∧
    (∀ next now, next + 4 * d ≤ now → framesDue d next now = (4, now + d)) ∧
    (∀ next now, (framesDue d next now).1 ≤ 4) ∧
    (∀ next now, (framesDue d (framesDue d next now).2 now).1 = 0) := by
  refine ⟨?_, fun next now => framesDue_of_le, fun next now => framesDue_fst_le hd, ?_⟩
  · intro start times hne hsorted hinTime
    obtain ⟨now, times, rfl⟩ := List.exists_cons_of_ne_nil hne
    obtain ⟨hsum, hnext⟩ := wakeUps_of_inTime hd rfl hsorted hinTime
    refine ⟨?_, ?_, ?_⟩
    · rw [hsum, encard_due hd]
    · rw [hnext, hsum]
    · rw [hnext]
      exact lt_add_dueCount_mul hd
  · intro next now
    rw [framesDue_of_now_lt (now_lt_framesDue hd)]

/-- Three wake-ups on a schedule of ten: one before it, one on its first frame and one as late as
can be. Another one comes a single unit later than that. -/
theorem wakeUps_play_each_frame_lastMoment :
    let times := [3, 5, 54]
    (0 < 10 ∧ times.Pairwise (· ≤ ·) ∧ InTime 10 5 times) ∧
      wakeUps 10 5 times = ([0, 1, 4], 55) ∧
      {k | 5 + k * 10 ≤ 54}.encard = 5 ∧
      framesDue 10 15 55 = (4, 65) ∧ (framesDue 10 65 55).1 = 0 := by
  intro times
  have hsorted : times.Pairwise (· ≤ ·) := by decide
  have hinTime : InTime 10 5 times :=
    ⟨by decide, by decide, by decide, trivial⟩
  obtain ⟨hrun, hlate, -, hagain⟩ := wakeUps_play_each_frame (d := 10) (by decide)
  obtain ⟨hcount, -, -⟩ := hrun 5 times (by decide) hsorted hinTime
  have hfour := hlate 15 55 (by decide)
  have hnone := hagain 15 55
  rw [hfour] at hnone
  exact ⟨⟨by decide, hsorted, hinTime⟩, by decide, hcount, hfour, hnone⟩

end Chip8.Schedule
