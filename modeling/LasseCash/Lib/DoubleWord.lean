import Mathlib.Tactic.Linarith

/-! Products and quotients on a pair of unsigned 64-bit words, high and low, as a processor computes
them: the product of two words always fits such a pair, the quotient of a pair by a word may not fit
a word.
-/

namespace DoubleWord

/-- The number that a pair of words stands for. -/
def value (hi lo : Nat) : Nat := hi * 2 ^ 64 + lo

/-- The product of two words as a pair of words. -/
def mul64 (x y : Nat) : Nat × Nat := (x * y / 2 ^ 64, x * y % 2 ^ 64)

/-- Quotient and remainder of a pair of words; `none` where the processor traps, on a zero divisor
and on a quotient that fits no word.
-/
def div64 (hi lo y : Nat) : Option (Nat × Nat) :=
  if y = 0 ∨ y ≤ hi then none else some (value hi lo / y, value hi lo % y)

/-- A product is the number of its pair. -/
theorem value_mul64 (x y : Nat) : value (mul64 x y).1 (mul64 x y).2 = x * y :=
  Nat.div_add_mod' (x * y) (2 ^ 64)

/-- The division of a product whose high word is below the divisor is the exact one. -/
theorem div64_mul64 {x y d : Nat} (guard : (mul64 x y).1 < d)
    : div64 (mul64 x y).1 (mul64 x y).2 d = some (x * y / d, x * y % d) := by
  unfold div64
  rw [if_neg (by omega), value_mul64]

/-- A quotient that fits a word has its high word below the divisor. -/
theorem mul64_lt_of_div_lt {x y d : Nat} (positive : 0 < d) (fits : x * y / d < 2 ^ 64)
    : (mul64 x y).1 < d := by
  have small : x * y < 2 ^ 64 * d := (Nat.div_lt_iff_lt_mul positive).mp fits
  exact (Nat.div_lt_iff_lt_mul (by decide)).mpr (by linarith)

end DoubleWord
