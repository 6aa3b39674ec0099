import Chip8.CommandLine.Parse
import Chip8.Proofs.Driver.CatchUp
import Mathlib.Data.Rat.Cast.Order
import Mathlib.Tactic.Linarith

/-!
# The interval of a tick rate

The interval is a second divided by the rate, rounded twice: to a binary number and then to whole
nanoseconds. It is still the nearest whole number. Rates above two thousand million have no
nanosecond to themselves: their interval is zero, and a schedule that has come due stays due.

## Shape of the proof

`exists_ofRatio_one` describes the reciprocal of a rate as a binary number and bounds its error.
A quotient of naturals that is no half is away from every half by a part of its denominator, so an
error that small cannot move the second rounding past one (`roundHalfEven_of_near`).
-/

namespace Chip8

namespace Binary64

/-! ## Reciprocals -/

/-- A natural exponent scales up by its power. -/
@[simp] theorem scaleUp_natCast (base n k : Nat) : scaleUp base n (k : Int) = n * base ^ k :=
  rfl

/-- A negative exponent scales nothing up. -/
@[simp] theorem scaleUp_neg_natCast (base n k : Nat) : scaleUp base n (-(k : Int)) = n := by
  have h : (-(k : Int)).toNat = 0 := by omega
  rw [scaleUp, h]
  exact Nat.mul_one n

/-- The exponent of a reciprocal is that of the power of two next above the number. -/
theorem exists_binaryExponent_one {n : Nat} (hn : 0 < n) :
    ∃ k : Nat, binaryExponent 1 n = -(k : Int) ∧ n ≤ 2 ^ k ∧ 2 ^ k < 2 * n := by
  have hlow : 2 ^ n.log2 ≤ n := Nat.log2_self_le hn.ne'
  have hhigh : n < 2 ^ (n.log2 + 1) := Nat.lt_log2_self
  have hone : Nat.log2 1 = 0 := by decide
  have hlog : ((Nat.log2 1 : Nat) : Int) - (n.log2 : Int) = -(n.log2 : Int) := by
    rw [hone]
    omega
  rw [binaryExponent, hlog]
  simp only [scaleUp_neg_natCast, neg_neg, scaleUp_natCast, one_mul]
  split
  next h => exact ⟨n.log2, rfl, h, by omega⟩
  next h =>
    refine ⟨n.log2 + 1, by omega, hhigh.le, ?_⟩
    rw [pow_succ]
    omega

/-- The reciprocal of a number is `s / 2 ^ k`, and `s` is off by at most a half. -/
theorem exists_ofRatio_one {n : Nat} (hn : 0 < n) (hmax : n < 2 ^ 32) :
    ∃ s k : Nat, ofRatio false 1 n = finite false s (-(k : Int)) ∧ 2 ^ 51 * n ≤ 2 ^ k ∧
      2 * 2 ^ k ≤ (2 * s + 1) * n ∧ 2 * s * n ≤ 2 * 2 ^ k + n := by
  obtain ⟨m, hm, hlow, hhigh⟩ := exists_binaryExponent_one hn
  have hm33 : m < 33 := by
    refine (Nat.pow_lt_pow_iff_right (by decide : 1 < 2)).mp (hhigh.trans ?_)
    rw [pow_succ]
    omega
  have he : max minExponent (-(m : Int) - 52) = -((m + 52 : Nat) : Int) := by
    rw [minExponent]
    omega
  obtain ⟨hnear, hfar⟩ := roundHalfEven_near (2 ^ (m + 52)) n hn
  rw [ofRatio, if_neg one_ne_zero, hm, he]
  simp only [scaleUp_neg_natCast, neg_neg, scaleUp_natCast, one_mul]
  have hpow : 2 ^ (m + 52) = 2 * 2 ^ (m + 51) := pow_succ' 2 (m + 51)
  have hsmall : 2 ^ 51 * n ≤ 2 ^ (m + 51) := by
    rw [Nat.add_comm, pow_add]
    exact Nat.mul_le_mul_left _ hlow
  by_cases hs : roundHalfEven (2 ^ (m + 52)) n = Nat.pow 2 53
  · -- rounding has gained a digit, and the significand is halved
    have hexp : -((m + 52 : Nat) : Int) + 1 = -((m + 51 : Nat) : Int) := by omega
    have hmaxExp : ¬ -((m + 51 : Nat) : Int) > maxExponent := by
      rw [maxExponent]
      omega
    have hcarry : Nat.pow 2 53 = 2 * Nat.pow 2 52 := by decide
    rw [hs, hpow, hcarry] at hnear hfar
    simp only [if_pos hs, hexp, if_neg hmaxExp]
    exact ⟨_, m + 51, rfl, hsmall, by linarith, by linarith⟩
  · have hmaxExp : ¬ -((m + 52 : Nat) : Int) > maxExponent := by
      rw [maxExponent]
      omega
    simp only [if_neg hs, if_neg hmaxExp]
    exact ⟨_, m + 52, rfl, by omega, hnear, hfar⟩

/-! ## Rounding twice -/

/-- If `s / p` is so near to `1 / n` that `c` times its error is no part of a denominator, then
rounding `c * s / p` gives a nearest number to `c / n`. -/
theorem roundHalfEven_of_near {n s p c : Nat} (hp : c * n < p) (hlow : 2 * p ≤ (2 * s + 1) * n)
    (hhigh : 2 * s * n ≤ 2 * p + n) :
    2 * c ≤ (2 * roundHalfEven (s * c) p + 1) * n ∧
      2 * roundHalfEven (s * c) p * n ≤ 2 * c + n := by
  obtain ⟨hnear, hfar⟩ := roundHalfEven_near (s * c) p (Nat.zero_lt_of_lt hp)
  generalize roundHalfEven (s * c) p = r at hnear hfar
  constructor
  · by_contra h
    have hn := Nat.mul_le_mul_right n hnear
    have hc := Nat.mul_le_mul_right c hlow
    have hlt := Nat.mul_le_mul_right p (not_le.mp h)
    linarith
  · by_contra h
    have hn := Nat.mul_le_mul_right n hfar
    have hc := Nat.mul_le_mul_right c hhigh
    have hlt := Nat.mul_le_mul_right p (not_le.mp h)
    linarith

end Binary64

namespace Schedule

/-! ## The interval -/

/-- The interval is the whole number of nanoseconds nearest to a second divided by the rate. -/
theorem interval_near {n : Nat} (hn : 0 < n) (hmax : n < 2 ^ 32) :
    2 * 1000000000 ≤ (2 * interval n + 1) * n ∧ 2 * interval n * n ≤ 2 * 1000000000 + n := by
  obtain ⟨s, k, hs, hk, hlow, hhigh⟩ := Binary64.exists_ofRatio_one hn hmax
  have hinterval : interval n = Binary64.roundHalfEven (s * 1000000000) (2 ^ k) := by
    rw [interval, hs, nanoseconds]
    simp only [Binary64.scaleUp_neg_natCast, neg_neg, Binary64.scaleUp_natCast, one_mul]
  have hp : 1000000000 * n < 2 ^ k := by omega
  rw [hinterval]
  exact Binary64.roundHalfEven_of_near hp hlow hhigh

/-- At two thousand million ticks a second the nearest whole numbers are zero and one, and the
reciprocal rounds up. -/
theorem interval_pos_iff {n : Nat} (hn : 0 < n) (hmax : n < 2 ^ 32) :
    0 < interval n ↔ n ≤ 2000000000 := by
  obtain ⟨hlow, hhigh⟩ := interval_near hn hmax
  constructor
  · intro hpos
    have hone := Nat.mul_le_mul_right (2 * n) (Nat.succ_le_of_lt hpos)
    linarith
  · intro hle
    rcases hle.lt_or_eq with hlt | rfl
    · by_contra hzero
      rw [Nat.eq_zero_of_not_pos hzero] at hlow
      omega
    · decide +kernel

/-- Without an interval a schedule that has come due is never past. -/
theorem framesDue_zero {next now : Nat} (h : next ≤ now) :
    framesDue 0 next now = (maxCatchUp, now) :=
  framesDue_of_le h

end Schedule

namespace Driver

/-- The interval of a driver is the nearest whole number of nanoseconds. Up to two thousand million
ticks a second it moves the schedule past the present, so that nothing is due a second time. At
higher rates it is zero: whatever was due has four frames played and is due again. -/
theorem framesDue_moves_past_now (d : Driver) (hmin : 1 ≤ d.options.tickRate)
    (hmax : d.options.tickRate ≤ CommandLine.Values.maxCount) :
    |(d.interval : ℚ) - 10 ^ 9 / d.options.tickRate| ≤ 1 / 2 ∧
    (d.options.tickRate ≤ 2 * 10 ^ 9 → ∀ next now, now < (d.framesDue next now).2 ∧
      (d.framesDue (d.framesDue next now).2 now).1 = 0) ∧
    (2 * 10 ^ 9 < d.options.tickRate → ∀ next now, next ≤ now →
      d.framesDue next now = (4, now)) := by
  have hlt : d.options.tickRate < 2 ^ 32 := by
    rw [CommandLine.Values.maxCount] at hmax
    omega
  obtain ⟨hlow, hhigh⟩ := Schedule.interval_near hmin hlt
  have hpos := Schedule.interval_pos_iff hmin hlt
  refine ⟨?_, ?_, ?_⟩
  · -- the bounds are proved without division, over the natural numbers
    have hrate : (0 : ℚ) < d.options.tickRate := by exact_mod_cast hmin
    have hlow' : (2 * 1000000000 : ℚ) ≤ (2 * d.interval + 1) * d.options.tickRate := by
      exact_mod_cast hlow
    have hhigh' : (2 * d.interval * d.options.tickRate : ℚ) ≤
        2 * 1000000000 + d.options.tickRate := by
      exact_mod_cast hhigh
    rw [abs_sub_le_iff, sub_le_comm, le_div_iff₀ hrate, sub_le_iff_le_add, div_le_iff₀ hrate]
    constructor <;> linarith
  · intro hle next now
    have hpast : now < (d.framesDue next now).2 := Schedule.now_lt_framesDue (hpos.mpr (by omega))
    exact ⟨hpast, congrArg Prod.fst (Schedule.framesDue_of_now_lt hpast)⟩
  · intro hgt next now hdue
    have hzero : d.interval = 0 := Nat.eq_zero_of_not_pos fun h => by
      have := hpos.mp h
      omega
    rw [framesDue, hzero]
    exact Schedule.framesDue_zero hdue

/-- The greatest rate with an interval has one of a single nanosecond. -/
theorem framesDue_moves_past_now_oneNanosecond :
    let d := start (.ofSeed 0) { RunOptions.standard with tickRate := 2000000000 }
    (1 ≤ d.options.tickRate ∧ d.options.tickRate ≤ CommandLine.Values.maxCount) ∧
      |(d.interval : ℚ) - 10 ^ 9 / d.options.tickRate| ≤ 1 / 2 ∧
      d.framesDue 1000 1000 = (1, 1001) ∧ 1000 < (d.framesDue 1000 1000).2 ∧
      (d.framesDue (d.framesDue 1000 1000).2 1000).1 = 0 := by
  intro d
  obtain ⟨hnear, hpast, -⟩ := framesDue_moves_past_now d (by decide) (by decide)
  have h := hpast (by decide) 1000 1000
  exact ⟨⟨by decide, by decide⟩, hnear, by decide +kernel, h⟩

/-- The command line takes a rate at which a frame that is due stays due: four frames are played at
each wake-up, and the host never waits. -/
theorem framesDue_stays_due_fastest :
    CommandLine.parse ["run", "game.ch8", "--tick-rate", "4294967295"] =
        .ok ⟨.run "game.ch8" { RunOptions.standard with tickRate := 4294967295 }, none⟩ ∧
      (let d := start (.ofSeed 0) { RunOptions.standard with tickRate := 4294967295 }
      d.interval = 0 ∧ d.framesDue 1000 1000 = (4, 1000) ∧
        ¬ 1000 < (d.framesDue 1000 1000).2) := by
  refine ⟨?_, ?_⟩
  · decide +kernel
  · decide +kernel

end Driver

end Chip8
