/-!
# Overwriting part of a vector

`overwrite v start xs` stores a list of values in consecutive positions. Memory uses it for program
images and stored registers, and the registers use it when they are restored.

## Shape of the law

One equation describes the result at every position (`getElem_overwrite`): inside the written span
the list, everywhere else the old vector.
-/

namespace Chip8

/-- The vector with `xs` stored from position `start` on; values past the end are dropped. -/
def overwrite {α : Type} {n : Nat} (v : Vector α n) (start : Nat) : List α → Vector α n
  | [] => v
  | x :: xs => overwrite (v.setIfInBounds start x) (start + 1) xs

/-- Positions in the written span hold the list, all others what they held before. -/
theorem getElem_overwrite {α : Type} {n : Nat} (v : Vector α n) (start : Nat) (xs : List α)
    (i : Nat) (hi : i < n) :
    (overwrite v start xs)[i] =
      if h : start ≤ i ∧ i < start + xs.length then xs[i - start] else v[i] := by
  induction xs generalizing v start with
  | nil =>
    have h : ¬ (start ≤ i ∧ i < start + ([] : List α).length) := by
      simp only [List.length_nil]
      omega
    rw [dif_neg h]
    rfl
  | cons x xs ih =>
    rw [overwrite, ih, Vector.getElem_setIfInBounds]
    simp only [List.length_cons]
    by_cases h₁ : start + 1 ≤ i ∧ i < start + 1 + xs.length
    · have h₂ : start ≤ i ∧ i < start + (xs.length + 1) := by omega
      rw [dif_pos h₁, dif_pos h₂]
      have h₃ : i - start = i - (start + 1) + 1 := by omega
      simp only [h₃, List.getElem_cons_succ]
    · -- the first position, or one outside the span
      rw [dif_neg h₁]
      by_cases h₂ : start = i
      · subst h₂
        have h₃ : start ≤ start ∧ start < start + (xs.length + 1) := by omega
        simp
      · have h₃ : ¬ (start ≤ i ∧ i < start + (xs.length + 1)) := by omega
        rw [if_neg h₂, dif_neg h₃]

end Chip8
