import Mathlib.Tactic.NormNum
import Mathlib.Tactic.Ring
import Prevision.Proofs.Numeral.Grammar

/-!
# The decimal of a floating-point number

The reals that round to a number of the binary format make up an interval
around it (`Binary64.contains_size`), and the search for a short decimal does
not leave the interval (`Interval.contains_shortest`). So the decimal that the
number is written as rounds to the number (`Binary64.contains_abs_toDecimal`).
-/

namespace Prevision.Numeral

variable {I : Interval} {q step r : ℚ}

namespace Interval

theorem contains_of_lt (low : I.low < q) (high : q < I.high) : I.contains q = true := by
  unfold contains
  split <;> simp [low, low.le, high, high.le]

theorem low_le_of_contains (h : I.contains q = true) : I.low ≤ q := by
  unfold contains at h
  split at h <;> simp only [Bool.and_eq_true, decide_eq_true_eq] at h
  exacts [h.1, h.1.le]

theorem contains_neighbour? (h : I.neighbour? q step = some r) : I.contains r = true := by
  simp only [neighbour?] at h
  split at h <;> grind

/-- The shortest decimal lies in the interval, if the point it is sought by does. -/
theorem contains_shortest (h : I.contains q = true) (grids : ℕ) : I.contains (I.shortest q grids) = true := by
  unfold shortest
  cases e : (List.range grids).findSome? _ with
  | none => exact h
  | some r =>
    obtain ⟨i, -, hi⟩ := List.exists_of_findSome?_eq_some e
    exact contains_neighbour? hi

end Interval

namespace Binary64

variable {x : Binary64}

/-- The absolute value of a finite number. -/
def size (x : Binary64) : ℚ := Rat.ofInt (Int.ofNat x.significand) * power 2 x.exponent

theorem power_pos (e : ℤ) : 0 < power 2 e := by
  rw [power_eq_zpow]
  exact zpow_pos (by norm_num) e

/-- The absolute value in quarters of the last bit. -/
theorem size_eq (x : Binary64) : x.size = (4 * x.significand : ℤ) * power 2 (x.exponent - 2) := by
  rw [size, power_eq_zpow, power_eq_zpow, zpow_sub₀ (by norm_num)]
  norm_num
  ring

theorem low_eq (x : Binary64) : x.rounding.low =
    (4 * x.significand - if x.fractionField = 0 ∧ 1 < x.exponentField then 1 else 2 : ℤ) *
      power 2 (x.exponent - 2) := by
  simp [rounding]

theorem high_eq (x : Binary64) :
    x.rounding.high = (4 * x.significand + 2 : ℤ) * power 2 (x.exponent - 2) := by
  simp [rounding]

theorem contains_size (x : Binary64) : x.rounding.contains x.size = true := by
  refine Interval.contains_of_lt ?_ ?_
  · rw [low_eq, size_eq]
    refine mul_lt_mul_of_pos_right (Int.cast_lt.2 ?_) (power_pos _)
    split <;> omega
  · rw [high_eq, size_eq]
    exact mul_lt_mul_of_pos_right (Int.cast_lt.2 (by omega)) (power_pos _)

theorem low_pos (nonzero : x.significand ≠ 0) : 0 < x.rounding.low := by
  rw [low_eq]
  refine mul_pos (Int.cast_pos.2 ?_) (power_pos _)
  split <;> omega

/-- The decimal that a number is written as rounds to it, and has its sign. -/
theorem contains_abs_toDecimal (nonzero : x.significand ≠ 0) :
    x.rounding.contains |x.toDecimal| = true ∧ (x.toDecimal < 0 ↔ x.isNegative = true) := by
  have inside := Interval.contains_shortest (contains_size x) 24
  have positive := (low_pos nonzero).trans_le (Interval.low_le_of_contains inside)
  have written : x.toDecimal = if x.isNegative then -x.rounding.shortest x.size 24
      else x.rounding.shortest x.size 24 := if_neg nonzero
  rw [written]
  cases x.isNegative with
  | true =>
    rw [if_pos rfl, abs_neg, abs_of_pos positive]
    exact ⟨inside, iff_of_true (neg_neg_of_pos positive) rfl⟩
  | false =>
    rw [if_neg Bool.false_ne_true, abs_of_pos positive]
    exact ⟨inside, iff_of_false positive.not_gt Bool.false_ne_true⟩

end Binary64

end Prevision.Numeral
