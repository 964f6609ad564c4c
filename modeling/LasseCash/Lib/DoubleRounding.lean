import Mathlib.Data.Int.Log
import Mathlib.Data.Rat.Floor
import Mathlib.Tactic.Linarith
import Mathlib.Tactic.NormNum

/-! Rounding to the numbers that a double holds: fifty-three binary digits, the nearest of them, and
the even one of two that are as near. Exponents are unbounded, so that nothing overflows.
-/

namespace DoubleRounding

-----------------------------------------------------------------------------------------
-- To whole numbers
-----------------------------------------------------------------------------------------

/-- The nearest whole number, the even one where two are as near. -/
def roundEven (x : ℚ) : ℤ :=
  if x - ⌊x⌋ < 1 / 2 then ⌊x⌋
  else if 1 / 2 < x - ⌊x⌋ then ⌊x⌋ + 1
  else if ⌊x⌋ % 2 = 0 then ⌊x⌋
  else ⌊x⌋ + 1

theorem roundEven_floor (x : ℚ) : ⌊x⌋ ≤ roundEven x ∧ roundEven x ≤ ⌊x⌋ + 1 := by
  unfold roundEven
  split_ifs <;> omega

/-- A whole number is its own. -/
theorem roundEven_intCast (n : ℤ) : roundEven n = n := by
  unfold roundEven
  rw [Int.floor_intCast, sub_self, if_pos (by norm_num)]

/-- Rounding keeps the order; within one unit by the distance from its lower end. -/
theorem roundEven_mono {x y : ℚ} (le : x ≤ y) : roundEven x ≤ roundEven y := by
  rcases (Int.floor_le_floor le).lt_or_eq with below | same
  · have upper := (roundEven_floor x).2
    have lower := (roundEven_floor y).1
    omega
  · have closer : x - ⌊x⌋ ≤ y - ⌊x⌋ := sub_le_sub_right le _
    unfold roundEven
    rw [← same]
    split_ifs <;> first | omega | linarith

/-- Rounding is symmetric about zero; away from whole numbers the distances swap. -/
theorem roundEven_neg (x : ℚ) : roundEven (-x) = -roundEven x := by
  rcases eq_or_ne (⌊x⌋ : ℚ) x with whole | between
  · rw [← whole, ← Int.cast_neg, roundEven_intCast, roundEven_intCast]
  · have below := lt_of_le_of_ne (Int.floor_le x) between
    have above := Int.lt_floor_add_one x
    have floor : ⌊-x⌋ = -⌊x⌋ - 1 := by
      rw [Int.floor_eq_iff]
      push_cast
      constructor <;> linarith
    unfold roundEven
    rw [floor]
    push_cast
    split_ifs <;> first | omega | linarith

/-- A whole number bounds what is rounded as it bounds the number. -/
theorem le_roundEven {n : ℤ} {x : ℚ} (le : (n : ℚ) ≤ x) : n ≤ roundEven x :=
  (roundEven_intCast n).symm.trans_le (roundEven_mono le)

theorem roundEven_le {n : ℤ} {x : ℚ} (le : x ≤ n) : roundEven x ≤ n :=
  (roundEven_mono le).trans_eq (roundEven_intCast n)

/-- The nearest whole number is at most one half away. -/
theorem roundEven_near (x : ℚ) : |roundEven x - x| ≤ 1 / 2 := by
  have below := Int.floor_le x
  have above := Int.lt_floor_add_one x
  unfold roundEven
  rw [abs_le]
  split_ifs <;> push_cast <;> constructor <;> linarith

-----------------------------------------------------------------------------------------
-- To doubles
-----------------------------------------------------------------------------------------

/-- The distance between the doubles of a number's magnitude. -/
def spacing (x : ℚ) : ℚ := 2 ^ (Int.log 2 |x| - 52)

/-- The nearest double. -/
def toDouble (x : ℚ) : ℚ := roundEven (x / spacing x) * spacing x

theorem spacing_pos (x : ℚ) : 0 < spacing x := zpow_pos (by norm_num) _

@[simp]
theorem toDouble_zero : toDouble 0 = 0 := by
  have whole : roundEven (0 / spacing 0) = 0 := by
    rw [zero_div]
    exact roundEven_intCast 0
  rw [toDouble, whole, Int.cast_zero, zero_mul]

/-- A number's magnitude, counted in spacings. -/
theorem abs_div_spacing {x : ℚ} (nonzero : x ≠ 0)
    : 2 ^ 52 ≤ |x| / spacing x ∧ |x| / spacing x < 2 ^ 53 := by
  have positive := abs_pos.mpr nonzero
  have lower := Int.zpow_log_le_self (b := 2) (by decide) positive
  have upper := Int.lt_zpow_succ_log_self (b := 2) (by decide) |x|
  have two : ((2 : ℕ) : ℚ) = 2 := rfl
  rw [two] at lower upper
  have split (k : ℤ) : (2 : ℚ) ^ (52 + k) * spacing x = 2 ^ (Int.log 2 |x| + k) := by
    rw [spacing, ← zpow_add₀ (by norm_num)]
    congr 1
    ring
  rw [le_div_iff₀ (spacing_pos x), div_lt_iff₀ (spacing_pos x)]
  refine ⟨?_, ?_⟩
  · have := split 0
    norm_num at this ⊢
    linarith
  · have := split 1
    norm_num at this ⊢
    linarith

/-- A double is off by at most one part in 2^53. -/
theorem toDouble_near (x : ℚ) : |toDouble x - x| ≤ |x| / 2 ^ 53 := by
  rcases eq_or_ne x 0 with rfl | nonzero
  · simp
  have positive := spacing_pos x
  have counted : x / spacing x * spacing x = x := div_mul_cancel₀ _ positive.ne'
  have off : toDouble x - x = (roundEven (x / spacing x) - x / spacing x) * spacing x := by
    rw [sub_mul, counted, toDouble]
  have coarse := (le_div_iff₀ positive).mp (abs_div_spacing nonzero).1
  have half := mul_le_mul_of_nonneg_right (roundEven_near (x / spacing x)) positive.le
  rw [off, abs_mul, abs_of_pos positive, le_div_iff₀ (by norm_num)]
  linarith

/-- What is a whole number of its spacings is a double. -/
theorem toDouble_of_whole {x : ℚ} {n : ℤ} (whole : x / spacing x = n) : toDouble x = x := by
  rw [toDouble, whole, roundEven_intCast, ← whole, div_mul_cancel₀ _ (spacing_pos x).ne']

/-- A number of at most fifty-three binary digits is a double: its digits end at the spacing, or it
is a power of two.
-/
theorem toDouble_dyadic (m : ℤ) (j : ℤ) (digits : |m| ≤ 2 ^ 53)
    : toDouble (m * 2 ^ j) = m * 2 ^ j := by
  rcases eq_or_ne m 0 with rfl | nonzero
  · simp
  have two : ((2 : ℕ) : ℚ) = 2 := rfl
  have power : (0 : ℚ) < 2 ^ j := zpow_pos (by norm_num) j
  have size : |(m : ℚ)| ≤ 2 ^ 53 := by exact_mod_cast digits
  have magnitude : |(m : ℚ) * 2 ^ j| = |(m : ℚ)| * 2 ^ j := by rw [abs_mul, abs_of_pos power]
  obtain ⟨e, exponent⟩ : ∃ e, Int.log 2 |(m : ℚ) * 2 ^ j| = e := ⟨_, rfl⟩
  have lower : (2 : ℚ) ^ e ≤ |(m : ℚ)| * 2 ^ j := by
    have some_size : 0 < |(m : ℚ) * 2 ^ j| :=
      abs_pos.mpr (mul_ne_zero (Int.cast_ne_zero.mpr nonzero) power.ne')
    rw [← magnitude, ← exponent, ← two]
    exact Int.zpow_log_le_self (by decide) some_size
  have split (n : ℤ) (shape : (m : ℚ) * 2 ^ j = n * 2 ^ (e - 52))
      : toDouble (m * 2 ^ j) = m * 2 ^ j := by
    refine toDouble_of_whole (n := n) ?_
    rw [spacing, exponent, shape, mul_div_assoc, div_self (zpow_pos (by norm_num) _).ne', mul_one]
  rcases le_or_gt (e - 52) j with fine | coarse
  · obtain ⟨k, more⟩ := Int.eq_ofNat_of_zero_le (sub_nonneg.mpr fine)
    refine split (m * 2 ^ k) ?_
    rw [show j = (k : ℤ) + (e - 52) by omega, zpow_add₀ (by norm_num)]
    push_cast
    rw [zpow_natCast, mul_assoc]
  · have at_most : (2 : ℚ) ^ e ≤ 2 ^ (53 + j) := by
      rw [zpow_add₀ (by norm_num)]
      exact lower.trans (mul_le_mul_of_nonneg_right (by exact_mod_cast size) power.le)
    have le := (zpow_le_zpow_iff_right₀ (by norm_num : (1 : ℚ) < 2)).mp at_most
    obtain rfl : e = 53 + j := by omega
    rw [zpow_add₀ (by norm_num)] at lower
    have full : (2 : ℚ) ^ 53 ≤ |(m : ℚ)| := by exact_mod_cast le_of_mul_le_mul_right lower power
    have exact : |m| = 2 ^ 53 := le_antisymm digits (by exact_mod_cast full)
    have half : (2 : ℚ) ^ (53 + j - 52) = 2 * 2 ^ j := by
      rw [show 53 + j - 52 = 1 + j by ring, zpow_add₀ (by norm_num), zpow_one]
    rcases abs_choice m with positive | negative
    · refine split (2 ^ 52) ?_
      rw [← positive, exact, half]
      push_cast
      ring
    · refine split (-2 ^ 52) ?_
      rw [show m = -2 ^ 53 by omega, half]
      push_cast
      ring

/-- A whole number of at most fifty-three binary digits is a double. -/
theorem toDouble_intCast (n : ℤ) (digits : |n| ≤ 2 ^ 53) : toDouble n = n := by
  have plain := toDouble_dyadic n 0 digits
  rwa [zpow_zero, mul_one] at plain

/-- A positive number is rounded within the powers of two around it. -/
theorem toDouble_within {x : ℚ} (positive : 0 < x)
    : (2 : ℚ) ^ Int.log 2 x ≤ toDouble x ∧ toDouble x ≤ 2 ^ (Int.log 2 x + 1) := by
  obtain ⟨lower, upper⟩ := abs_div_spacing positive.ne'
  rw [abs_of_pos positive] at lower upper
  have least := le_roundEven (n := 2 ^ 52) (by exact_mod_cast lower)
  have most := roundEven_le (n := 2 ^ 53) (by exact_mod_cast upper.le)
  have split (k : ℤ) : (2 : ℚ) ^ (52 + k) * spacing x = 2 ^ (Int.log 2 x + k) := by
    rw [spacing, abs_of_pos positive, ← zpow_add₀ (by norm_num)]
    congr 1
    ring
  have first := split 0
  have second := split 1
  rw [add_zero, add_zero] at first
  rw [← first, ← second, toDouble]
  refine ⟨mul_le_mul_of_nonneg_right ?_ (spacing_pos x).le,
    mul_le_mul_of_nonneg_right ?_ (spacing_pos x).le⟩
  · exact_mod_cast least
  · exact_mod_cast most

theorem toDouble_neg (x : ℚ) : toDouble (-x) = -toDouble x := by
  have same : spacing (-x) = spacing x := by rw [spacing, abs_neg, spacing]
  rw [toDouble, same, neg_div, roundEven_neg, Int.cast_neg, neg_mul, toDouble]

theorem toDouble_nonneg {x : ℚ} (nonneg : 0 ≤ x) : 0 ≤ toDouble x := by
  rcases nonneg.eq_or_lt with rfl | positive
  · exact toDouble_zero.ge
  · exact (zpow_nonneg (by norm_num) _).trans (toDouble_within positive).1

/-- Rounding positive numbers keeps the order: within one magnitude by their spacing, else by the
power of two between them.
-/
theorem toDouble_mono_pos {x y : ℚ} (positive : 0 < x) (le : x ≤ y) : toDouble x ≤ toDouble y := by
  have positive' := positive.trans_le le
  rcases (Int.log_mono_right (b := 2) positive le).lt_or_eq with below | same
  · refine (toDouble_within positive).2.trans (le_trans ?_ (toDouble_within positive').1)
    exact zpow_le_zpow_right₀ (by norm_num) below
  · have spacings : spacing x = spacing y := by
      rw [spacing, spacing, abs_of_pos positive, abs_of_pos positive', same]
    rw [toDouble, toDouble, spacings]
    refine mul_le_mul_of_nonneg_right ?_ (spacing_pos y).le
    exact_mod_cast roundEven_mono (div_le_div_of_nonneg_right le (spacing_pos y).le)

/-- Rounding keeps the order. -/
theorem toDouble_mono {x y : ℚ} (le : x ≤ y) : toDouble x ≤ toDouble y := by
  rcases lt_or_ge 0 x with positive | x_le
  · exact toDouble_mono_pos positive le
  have low : toDouble x ≤ 0 := by
    have flipped := toDouble_nonneg (neg_nonneg.mpr x_le)
    rw [toDouble_neg] at flipped
    exact neg_nonneg.mp flipped
  rcases lt_or_ge y 0 with negative | y_ge
  · have flipped := toDouble_mono_pos (neg_pos.mpr negative) (neg_le_neg le)
    rw [toDouble_neg, toDouble_neg] at flipped
    exact neg_le_neg_iff.mp flipped
  · exact low.trans (toDouble_nonneg y_ge)

/-- What a double bounds, it bounds when rounded. -/
theorem toDouble_lower {d x : ℚ} (double : toDouble d = d) (le : d ≤ x) : d ≤ toDouble x :=
  double.symm.trans_le (toDouble_mono le)

theorem toDouble_upper {d x : ℚ} (double : toDouble d = d) (le : x ≤ d) : toDouble x ≤ d :=
  (toDouble_mono le).trans_eq double

/-- A whole number is rounded to a whole number. -/
theorem toDouble_whole (n : ℤ) : ∃ m : ℤ, toDouble n = m := by
  rcases le_or_gt |n| (2 ^ 53) with small | large
  · exact ⟨n, toDouble_intCast n small⟩
  · have nonzero : (n : ℚ) ≠ 0 := by
      rintro zero
      rw [Int.cast_eq_zero.mp zero] at large
      exact absurd large (by decide)
    have coarse : 52 ≤ Int.log 2 |(n : ℚ)| := by
      refine (Int.zpow_le_iff_le_log (by decide) (abs_pos.mpr nonzero)).mp ?_
      have size : (2 : ℚ) ^ 53 < |(n : ℚ)| := by exact_mod_cast large
      norm_num at size ⊢
      linarith
    obtain ⟨k, power⟩ := Int.eq_ofNat_of_zero_le (sub_nonneg.mpr coarse)
    refine ⟨roundEven (n / spacing n) * 2 ^ k, ?_⟩
    rw [toDouble]
    push_cast
    rw [← zpow_natCast, ← power, spacing]

-----------------------------------------------------------------------------------------
-- Whole doubles
-----------------------------------------------------------------------------------------

/-- The double of a whole number, which is a whole number. -/
def number (n : ℤ) : ℤ := ⌊toDouble n⌋

@[simp]
theorem number_cast (n : ℤ) : (number n : ℚ) = toDouble n := by
  obtain ⟨m, whole⟩ := toDouble_whole n
  rw [number, whole, Int.floor_intCast]

/-- A whole number of at most fifty-three binary digits is its own. -/
theorem number_safe {n : ℤ} (safe : |n| ≤ 2 ^ 53) : number n = n := by
  rw [number, toDouble_intCast n safe, Int.floor_intCast]

theorem number_mono {n m : ℤ} (le : n ≤ m) : number n ≤ number m :=
  Int.floor_le_floor (toDouble_mono (Int.cast_le.mpr le))

/-- What a safe number bounds, it bounds when rounded. -/
theorem le_number {n m : ℤ} (safe : |n| ≤ 2 ^ 53) (le : n ≤ m) : n ≤ number m :=
  (number_safe safe).symm.trans_le (number_mono le)

theorem number_le {n m : ℤ} (safe : |m| ≤ 2 ^ 53) (le : n ≤ m) : number n ≤ m :=
  (number_mono le).trans_eq (number_safe safe)

/-- A safe number is below a number as it is below its double. -/
theorem lt_number_iff {n m : ℤ} (safe : |n| < 2 ^ 53) : n < number m ↔ n < m := by
  constructor
  · intro below
    exact not_le.mp fun le => below.not_ge (number_le safe.le le)
  · intro below
    exact Int.lt_of_add_one_le (le_number (by rw [abs_le]; rw [abs_lt] at safe; omega) below)

/-- The whole part of a quotient of doubles. -/
def floorQuotient (n d : ℤ) : ℤ := ⌊toDouble (n / d)⌋

theorem floorQuotient_negative {n d : ℤ} (positive : 0 < d) (negative : n < 0)
    : floorQuotient n d < 0 := by
  have quotient : (0 : ℚ) < -(n / d) := by
    rw [← neg_div]
    exact div_pos (neg_pos.mpr (Int.cast_lt_zero.mpr negative)) (Int.cast_pos.mpr positive)
  have flipped := (zpow_pos (by norm_num) _).trans_le (toDouble_within quotient).1
  rw [toDouble_neg] at flipped
  exact Int.floor_lt.mpr (by simpa using flipped)

/-- The quotient of doubles, rounded up to a whole number. -/
def ceilQuotient (n d : ℤ) : ℤ := ⌈toDouble (n / d)⌉

/-- A whole number and a half is a double, so that a quotient beyond it is not rounded below it. -/
theorem lt_ceilQuotient {k n d : ℤ} (positive : 0 < d) (safe : |2 * k + 1| ≤ 2 ^ 53)
    (le : (2 * k + 1) * d ≤ 2 * n)
    : k < ceilQuotient n d := by
  have half : ((2 * k + 1 : ℤ) : ℚ) * 2 ^ (-1 : ℤ) ≤ n / d := by
    rw [le_div_iff₀ (Int.cast_pos.mpr positive), zpow_neg_one, mul_right_comm,
      mul_inv_le_iff₀ (by norm_num)]
    exact_mod_cast le.trans_eq (mul_comm 2 n)
  have kept := toDouble_lower (toDouble_dyadic (2 * k + 1) (-1) safe) half
  rw [zpow_neg_one] at kept
  push_cast at kept
  exact Int.lt_ceil.mpr (by linarith)

/-- The quotient of a safe number rounds to no other whole part: it is at least one part of the
divisor away from the next one, and off by less.
-/
theorem floorQuotient_safe {n d : ℤ} (positive : 0 < d) (safe : |n| < 2 ^ 53)
    : floorQuotient n d = n / d := by
  have positive' : (0 : ℚ) < d := Int.cast_pos.mpr positive
  have lower : ((n / d : ℤ) : ℚ) ≤ n / d := by
    rw [le_div_iff₀ positive']
    exact_mod_cast Int.ediv_mul_le n positive.ne'
  have upper : (n : ℚ) / d + 1 / d ≤ (n / d : ℤ) + 1 := by
    rw [← add_div, div_le_iff₀ positive']
    exact_mod_cast Int.lt_ediv_add_one_mul_self n positive
  have off : |toDouble (n / d) - n / d| < 1 / d := by
    refine (toDouble_near _).trans_lt ?_
    rw [abs_div, abs_of_pos positive', div_div, mul_comm, ← div_div]
    refine div_lt_div_of_pos_right ((div_lt_one (by norm_num)).mpr ?_) positive'
    exact_mod_cast safe
  have small : |n / d| ≤ 2 ^ 53 := by
    have := Int.abs_ediv_le_abs n d
    omega
  rw [floorQuotient, Int.floor_eq_iff]
  refine ⟨toDouble_lower (toDouble_intCast _ small) lower, ?_⟩
  have := (abs_lt.mp off).2
  linarith

end DoubleRounding
