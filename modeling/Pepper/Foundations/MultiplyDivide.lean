import Mathlib.Algebra.Order.Ring.Int
import Mathlib.Data.Int.DivMod
import Mathlib.Tactic.LinearCombination
import Mathlib.Tactic.Linarith
import Mathlib.Tactic.Positivity
import Mathlib.Tactic.Ring

/-!
# Division by multiplication

Division by `d` replaced by a multiplication with `M` and a division by `P`, where `M * d` is the
next multiple `P + e` of `d`. Main results: `mul_ediv_of_nonneg` for dividends that are not
negative, `mul_add_ediv_of_neg` for negative ones with the quotient rounded toward zero, and
`tdiv_eq_mul_ediv` for both.
-/

set_option autoImplicit false

namespace Pepper.Foundations.MultiplyDivide

/-- `M` stands for division by `d`: `M * d` exceeds the scale `P` by `e`, at most by `d`. -/
structure IsMultiplier (d P M e : ℤ) : Prop where
  divisor_pos : 0 < d
  scale_pos : 0 < P
  excess_pos : 0 < e
  product : M * d = P + e

variable {d P M e n : ℤ}

/-- The remainder of a division that rounds toward zero is less than the divisor. -/
theorem abs_sub_mul_tdiv_lt (hd : 0 < d) (n : ℤ) : |n - d * n.tdiv d| < d := by
  have hrest := Int.mul_tdiv_add_tmod n d
  have hlt := Int.tmod_lt_of_pos n hd
  have hgt := Int.lt_tmod_of_pos n hd
  rw [abs_lt]
  constructor <;> linarith

namespace IsMultiplier

theorem multiplier_pos (h : IsMultiplier d P M e) : 0 < M := by
  have hproduct : 0 < M * d := by
    rw [h.product]
    exact add_pos h.scale_pos h.excess_pos
  exact pos_of_mul_pos_left hproduct h.divisor_pos.le

/-- A quotient is between two multiples of the scale. -/
theorem ediv_eq_of_bounds (hP : 0 < P) {a q : ℤ} (hle : q * P ≤ a) (hlt : a < (q + 1) * P) :
    a / P = q := by
  refine le_antisymm ?_ ((Int.le_ediv_iff_mul_le hP).2 hle)
  exact Int.lt_add_one_iff.1 ((Int.ediv_lt_iff_lt_mul hP).2 hlt)

/-- The excess over `P * n` stays below the scale. -/
theorem mul_ediv_of_nonneg (h : IsMultiplier d P M e) (hn : 0 ≤ n) (hsmall : e * n < P) :
    M * n / P = n / d := by
  have hd := h.divisor_pos
  have hscaled : d * (M * n) = P * n + e * n := by
    linear_combination n * h.product
  have hexcess : 0 ≤ e * n := mul_nonneg h.excess_pos.le hn
  have hfloor : d * (n / d) ≤ n := Int.mul_ediv_self_le hd.ne'
  have hceil : n + 1 ≤ d * (n / d + 1) := by
    have hlt := Int.lt_mul_ediv_self_add (x := n) hd
    linarith
  refine ediv_eq_of_bounds h.scale_pos ?_ ?_
  · refine le_of_mul_le_mul_left ?_ hd
    calc d * (n / d * P) = P * (d * (n / d)) := by ring
      _ ≤ P * n := mul_le_mul_of_nonneg_left hfloor h.scale_pos.le
      _ ≤ d * (M * n) := by linarith
  · refine lt_of_mul_lt_mul_left ?_ hd.le
    calc d * (M * n) < P * (n + 1) := by linarith
      _ ≤ P * (d * (n / d + 1)) := mul_le_mul_of_nonneg_left hceil h.scale_pos.le
      _ = d * ((n / d + 1) * P) := by ring

/-- Below zero the excess pulls down, and one scale more rounds up. -/
theorem mul_add_ediv_of_neg (h : IsMultiplier d P M e) (hn : n < 0) (hsmall : -(e * n + 1) < P) :
    (M * n + P) / P = n.tdiv d := by
  have hd := h.divisor_pos
  have hscaled : d * (M * n) = P * n + e * n := by
    linear_combination n * h.product
  have hexcess : e * n < 0 := mul_neg_of_pos_of_neg h.excess_pos hn
  have hneg : n.tdiv d = -(-n / d) := by
    rw [← Int.tdiv_eq_ediv_of_nonneg (by linarith : 0 ≤ -n), Int.neg_tdiv, neg_neg]
  have hfloor : d * (-n / d) ≤ -n := Int.mul_ediv_self_le hd.ne'
  have hceil : -n + 1 ≤ d * (-n / d + 1) := by
    have hlt := Int.lt_mul_ediv_self_add (x := -n) hd
    linarith
  rw [hneg]
  generalize -n / d = q at hfloor hceil
  refine ediv_eq_of_bounds h.scale_pos ?_ ?_
  · refine le_of_mul_le_mul_left ?_ hd
    have hscale : P * (-n + 1) ≤ P * (d * (q + 1)) :=
      mul_le_mul_of_nonneg_left hceil h.scale_pos.le
    linarith
  · refine lt_of_mul_lt_mul_left ?_ hd.le
    have hscale : P * (d * q) ≤ P * -n := mul_le_mul_of_nonneg_left hfloor h.scale_pos.le
    linarith

/-- One multiplier for both signs. -/
theorem tdiv_eq_mul_ediv (h : IsMultiplier d P M e) (hnonneg : 0 ≤ n → e * n < P)
    (hneg : n < 0 → -(e * n + 1) < P) :
    (M * n + if n < 0 then P else 0) / P = n.tdiv d := by
  split
  · rename_i hn
    exact h.mul_add_ediv_of_neg hn (hneg hn)
  · rename_i hn
    have hn' := not_lt.1 hn
    rw [add_zero, h.mul_ediv_of_nonneg hn' (hnonneg hn'), Int.tdiv_eq_ediv_of_nonneg hn']

end IsMultiplier

end Pepper.Foundations.MultiplyDivide
