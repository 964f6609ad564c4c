import Mathlib.Algebra.Order.Field.Basic
import Mathlib.Analysis.Real.Sqrt
import Mathlib.Tactic.Positivity
import Mathlib.Tactic.Linarith

/-! Pools of two reserves owned in shares: what a share is worth, and which changes of the reserves
never take from it, with the roundings that an integer pool uses.
-/

namespace ConstantProduct

section Worth

variable {K : Type*} [Field K] [LinearOrder K] [IsStrictOrderedRing K]

/-- What a share of the reserves `x` and `y` is worth: the product of its parts of both. -/
def worth (x y s : K) : K := x * y / s ^ 2

variable {x y s x' y' s' : K}

/-- A share whose part of neither reserve falls is worth no less. -/
theorem worth_le (pos : 0 < s) (pos' : 0 < s') (x_nonneg : 0 ≤ x) (y_nonneg : 0 ≤ y)
    (left : x * s' ≤ x' * s) (right : y * s' ≤ y' * s)
    : worth x y s ≤ worth x' y' s' := by
  have product : x * s' * (y * s') ≤ x' * s * (y' * s) :=
    mul_le_mul left right (by positivity) (le_trans (by positivity) left)
  rw [worth, worth, div_le_div_iff₀ (by positivity) (by positivity)]
  linarith

/-- A trade that keeps the product keeps what a share is worth. -/
theorem worth_trade (product : x * y ≤ x' * y')
    : worth x y s ≤ worth x' y' s := by
  unfold worth
  gcongr

end Worth

/-- A share's claim by the geometric mean of its parts is the root of its worth. -/
theorem sqrt_worth (x y : ℝ) {s : ℝ} (pos : 0 < s)
    : √(worth x y s) = √(x * y) / s := by
  rw [worth, Real.sqrt_div' _ (by positivity), Real.sqrt_sq pos.le]

-----------------------------------------------------------------------------------------
-- Rounding
-----------------------------------------------------------------------------------------

variable {x y s a b : Int}

/-- Shares for a deposit, rounded down, leave every share its part of the reserve. -/
theorem deposit_floor (pos : 0 < x)
    : x * (s + s * a / x) ≤ (x + a) * s := by
  have floor := Int.ediv_mul_le (s * a) pos.ne'
  linarith

/-- So does a second reserve that is deposited at no less than the price of the first. -/
theorem deposit_priced (pos : 0 < x) (y_nonneg : 0 ≤ y) (s_nonneg : 0 ≤ s) (price : y * a ≤ b * x)
    : y * (s + s * a / x) ≤ (y + b) * s := by
  have floor := Int.ediv_mul_le (s * a) pos.ne'
  have scaled : y * (s * a / x) * x ≤ b * s * x := by
    calc y * (s * a / x) * x = y * (s * a / x * x) := by ring
      _ ≤ y * (s * a) := mul_le_mul_of_nonneg_left floor y_nonneg
      _ = y * a * s := by ring
      _ ≤ b * x * s := mul_le_mul_of_nonneg_right price s_nonneg
      _ = b * s * x := by ring
  have := le_of_mul_le_mul_right scaled pos
  linarith

/-- What leaves for burnt shares, rounded down or withheld, leaves the others their part. -/
theorem withdraw_floor (pos : 0 < s) (le : a ≤ x * b / s)
    : x * (s - b) ≤ (x - a) * s := by
  have floor := Int.ediv_mul_le (x * b) pos.ne'
  have := mul_le_mul_of_nonneg_right le pos.le
  linarith

/-- A trade whose output is rounded down keeps the product. -/
theorem trade_floor (pos : 0 < x + a)
    : x * y ≤ (x + a) * (y - y * a / (x + a)) := by
  have floor := Int.ediv_mul_le (y * a) pos.ne'
  linarith

end ConstantProduct
