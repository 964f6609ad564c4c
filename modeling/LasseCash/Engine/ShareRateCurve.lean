import LasseCash.Engine.LShare
import Mathlib.Data.Int.ConditionallyCompleteOrder

/-! The share rate over all heights: it rises within every year and from one year to the next
until the interpolation of the last year no longer fits an amount, and there it falls back to the
rate that year began with.
-/

namespace LasseCash.Engine

open MachineInt

/-- The rate at the start of a year, compounded exactly. -/
def yearlyRate : Nat → Int
  | 0 => genesisShareRate
  | year + 1 => yearlyRate year * (100 + shareRateRatchetPct) / 100

/-- What the interpolation adds to the rate of a year after some of its heights. -/
def yearlyBump (year frac : Nat) : Int :=
  yearlyRate year * (shareRateRatchetPct * frac) / (100 * heightsPerYear)

/-- The last year whose compounded rate is an amount. -/
def lastRateYear : Nat := 373

/-- The heights after genesis at which the last year begins. -/
def lastYearStart : Nat := lastRateYear * heightsPerYear

/-- The first heights after genesis whose interpolated rate is no amount any more. -/
def rateEnd : Nat := lastYearStart + 1648221

/-- The rate after `elapsed` heights. -/
def rateAfter (elapsed : Nat) : Int :=
  if elapsed < rateEnd then
    yearlyRate (elapsed / heightsPerYear)
      + yearlyBump (elapsed / heightsPerYear) (elapsed % heightsPerYear)
  else yearlyRate lastRateYear

-----------------------------------------------------------------------------------------
-- Compounding
-----------------------------------------------------------------------------------------

theorem yearlyRate_last : yearlyRate lastRateYear = 9123239087712637704 := by
  decide +kernel

theorem yearlyRate_ge (year : Nat) : genesisShareRate ≤ yearlyRate year := by
  induction year with
  | zero => exact le_rfl
  | succ year ih =>
      simp only [yearlyRate, genesisShareRate, shareRateRatchetPct] at ih ⊢
      omega

theorem yearlyRate_mono : Monotone yearlyRate := by
  refine monotone_nat_of_le_succ fun year => ?_
  have positive := yearlyRate_ge year
  simp only [yearlyRate, genesisShareRate, shareRateRatchetPct] at positive ⊢
  omega

/-- Until the last year every compounded rate is an amount. -/
theorem yearlyRate_le {year : Nat} (within : year ≤ lastRateYear)
    : yearlyRate year ≤ 9123239087712637704 :=
  yearlyRate_last ▸ yearlyRate_mono within

/-- One round of the compounding loop: exact before the last year, refused in it. -/
theorem mulDiv_year {year : Nat} (within : year ≤ lastRateYear)
    : mulDiv (yearlyRate year) (100 + shareRateRatchetPct) 100
      = if year < lastRateYear then some (yearlyRate (year + 1)) else none := by
  have positive := yearlyRate_ge year
  simp only [genesisShareRate] at positive
  split
  · rename_i before
    have fits := yearlyRate_le before
    simp only [yearlyRate] at fits
    exact mulDiv_of_fits (by omega) (by decide) (by decide) (fits.trans (by decide))
  · have last : year = lastRateYear := by omega
    rw [last, yearlyRate_last]
    decide

/-- The compounding loop from any year on stops at the last one. By induction on the years to
go.
-/
theorem compoundYears_eq (togo : Nat) {year : Nat} (within : year ≤ lastRateYear)
    : compoundYears togo (yearlyRate year)
      = if year + togo ≤ lastRateYear then (yearlyRate (year + togo), false)
        else (yearlyRate lastRateYear, true) := by
  induction togo generalizing year with
  | zero =>
      rw [Nat.add_zero, if_pos within]
      rfl
  | succ togo ih =>
      unfold compoundYears
      rw [mulDiv_year within]
      rcases within.lt_or_eq with before | rfl
      · rw [if_pos before]
        simp only
        rw [if_neg (not_lt.mpr (yearlyRate_mono (Nat.le_succ year))), ih before,
          show year + 1 + togo = year + (togo + 1) by omega]
      · rw [if_neg (lt_irrefl _), if_neg (by omega)]

-----------------------------------------------------------------------------------------
-- Interpolation
-----------------------------------------------------------------------------------------

theorem yearlyBump_nonneg (year frac : Nat) : 0 ≤ yearlyBump year frac := by
  have positive := yearlyRate_ge year
  simp only [genesisShareRate] at positive
  refine Int.ediv_nonneg (mul_nonneg (by omega) ?_) (by decide)
  exact mul_nonneg (by decide) (Int.natCast_nonneg _)

theorem yearlyBump_zero (year : Nat) : yearlyBump year 0 = 0 := by
  simp [yearlyBump]

theorem yearlyBump_mono (year : Nat) : Monotone (yearlyBump year) := by
  intro frac more le
  have positive := yearlyRate_ge year
  simp only [genesisShareRate] at positive
  refine Int.ediv_le_ediv (by decide) (mul_le_mul_of_nonneg_left ?_ (by omega))
  exact mul_le_mul_of_nonneg_left (by exact_mod_cast le) (by decide)

/-- The interpolation reaches the next year's rate at its end and not before. -/
theorem yearlyBump_le (year : Nat) {frac : Nat} (within : frac ≤ heightsPerYear)
    : yearlyRate year + yearlyBump year frac ≤ yearlyRate (year + 1) := by
  have most := yearlyBump_mono year within
  have whole : yearlyBump year heightsPerYear = yearlyRate year * 7 / 100 := by
    have cancel := Int.mul_ediv_mul_of_pos_left (yearlyRate year * 7) 100
      (show (0 : Int) < heightsPerYear by decide)
    unfold yearlyBump shareRateRatchetPct
    rw [← mul_assoc, cancel]
  rw [whole] at most
  simp only [yearlyRate, shareRateRatchetPct]
  omega

/-- The interpolated rate of the last year is an amount before its end and none from there on. -/
theorem yearlyBump_last (frac : Nat)
    : yearlyRate lastRateYear + yearlyBump lastRateYear frac ≤ maxAmount ↔ frac < 1648221 := by
  have mono := yearlyBump_mono lastRateYear
  unfold maxAmount
  constructor
  · intro fits
    by_contra late
    have reached := mono (not_lt.mp late)
    have beyond : yearlyBump lastRateYear 1648221 = 100132990645663698 := by
      unfold yearlyBump
      rw [yearlyRate_last]
      decide
    rw [beyond] at reached
    rw [yearlyRate_last] at fits
    omega
  · intro early
    have before := mono (show frac ≤ 1648220 by omega)
    have under : yearlyBump lastRateYear 1648220 = 100132929893500823 := by
      unfold yearlyBump
      rw [yearlyRate_last]
      decide
    rw [under] at before
    rw [yearlyRate_last]
    omega

-----------------------------------------------------------------------------------------
-- The rate of a height
-----------------------------------------------------------------------------------------

/-- The checked interpolation of a year that the compounding reached: exact where the sum is an
amount, else the year's own rate.
-/
theorem shareRate_interpolated {genesis elapsed : Nat} (started : 0 < elapsed)
    (within : elapsed / heightsPerYear ≤ lastRateYear)
    : shareRate genesis (genesis + elapsed)
      = if yearlyRate (elapsed / heightsPerYear)
            + yearlyBump (elapsed / heightsPerYear) (elapsed % heightsPerYear) ≤ maxAmount then
          yearlyRate (elapsed / heightsPerYear)
            + yearlyBump (elapsed / heightsPerYear) (elapsed % heightsPerYear)
        else yearlyRate (elapsed / heightsPerYear) := by
  generalize year_eq : elapsed / heightsPerYear = year at within
  generalize frac_eq : elapsed % heightsPerYear = frac
  have inside : frac < 10512000 := frac_eq ▸ Nat.mod_lt _ (by decide)
  have compounded := compoundYears_eq year (Nat.zero_le lastRateYear)
  rw [Nat.zero_add, if_pos within] at compounded
  have rate_nonneg : 0 ≤ yearlyRate year := le_trans (by decide) (yearlyRate_ge year)
  have rate_le := yearlyRate_le within
  have bump_nonneg := yearlyBump_nonneg year frac
  unfold shareRate
  rw [if_neg (by omega), Nat.add_sub_cancel_left]
  simp only [year_eq, frac_eq]
  rw [show genesisShareRate = yearlyRate 0 from rfl, compounded]
  simp only
  rcases Nat.eq_zero_or_pos frac with rfl | partway
  · rw [if_neg (lt_irrefl 0), yearlyBump_zero, add_zero, ite_self]
  · have fraction : i64 (shareRateRatchetPct * i64 frac) = shareRateRatchetPct * frac := by
      rw [i64_of_nonneg (x := (frac : Int)) (by omega) (by omega)]
      simp only [shareRateRatchetPct]
      exact i64_of_nonneg (by omega) (by omega)
    have bump_le : yearlyBump year frac ≤ yearlyRate year := by
      refine Int.ediv_le_of_le_mul (by decide) (mul_le_mul_of_nonneg_left ?_ rate_nonneg)
      simp only [shareRateRatchetPct, heightsPerYear]
      omega
    have bump : mulDiv (yearlyRate year) (shareRateRatchetPct * frac) (100 * heightsPerYear)
        = some (yearlyBump year frac) :=
      mulDiv_of_fits rate_nonneg (mul_nonneg (by decide) (Int.natCast_nonneg _)) (by decide)
        ((bump_le.trans rate_le).trans (by decide))
    rw [if_pos partway, fraction, bump]
    simp only
    split
    · rename_i fits
      simp only [maxAmount] at fits
      rw [addAmount_of_fits rate_nonneg bump_nonneg (by omega), Option.getD_some]
    · rename_i beyond
      simp only [maxAmount] at beyond
      cases sum : addAmount (yearlyRate year) (yearlyBump year frac) with
      | none => rfl
      | some total =>
          have := addAmount_eq_some rate_nonneg bump_nonneg (by omega) (by omega) sum
          omega

/-- The source's loop, its interpolation and its three fallbacks compute the rate after the
elapsed heights.
-/
theorem shareRate_eq (genesis height : Nat)
    : shareRate genesis height = rateAfter (height - genesis) := by
  rcases Nat.le_total height genesis with early | started
  · unfold shareRate
    rw [if_pos early, Nat.sub_eq_zero_of_le early]
    decide
  obtain ⟨elapsed, rfl⟩ := Nat.exists_eq_add_of_le started
  rw [Nat.add_sub_cancel_left]
  rcases Nat.eq_zero_or_pos elapsed with rfl | positive
  · unfold shareRate
    rw [if_pos (by omega)]
    decide
  unfold rateAfter rateEnd lastYearStart
  have split : 10512000 * (elapsed / heightsPerYear) + elapsed % heightsPerYear = elapsed :=
    Nat.div_add_mod elapsed heightsPerYear
  have frac : elapsed % heightsPerYear < 10512000 := Nat.mod_lt _ (by decide)
  have last : lastRateYear * heightsPerYear = 3920976000 := rfl
  have year : lastRateYear = 373 := rfl
  rcases Nat.lt_or_ge lastRateYear (elapsed / heightsPerYear) with beyond | within
  · have compounded := compoundYears_eq (elapsed / heightsPerYear) (Nat.zero_le lastRateYear)
    rw [Nat.zero_add, if_neg (by omega)] at compounded
    rw [if_neg (by omega)]
    unfold shareRate
    rw [if_neg (by omega), Nat.add_sub_cancel_left, show genesisShareRate = yearlyRate 0 from rfl]
    simp only [compounded]
  · rw [shareRate_interpolated positive within]
    rcases within.lt_or_eq with before | reached
    · have fits := (yearlyBump_le (elapsed / heightsPerYear) frac.le).trans (yearlyRate_le before)
      rw [if_pos (fits.trans (by decide)), if_pos (by omega)]
    · have place : elapsed % heightsPerYear < 1648221
          ↔ elapsed < lastRateYear * heightsPerYear + 1648221 := by omega
      rw [reached]
      simp only [yearlyBump_last, place]

/-- Before its end the rate only grows: within a year with the interpolation, and from one year to
a later one through the compounded rates between them.
-/
theorem rateAfter_mono {elapsed later : Nat} (order : elapsed ≤ later) (before : later < rateEnd)
    : rateAfter elapsed ≤ rateAfter later := by
  unfold rateAfter
  rw [if_pos (by omega), if_pos before]
  have split := Nat.div_add_mod elapsed heightsPerYear
  have later_split := Nat.div_add_mod later heightsPerYear
  have frac := Nat.mod_lt elapsed (show 0 < heightsPerYear by decide)
  rcases (Nat.div_le_div_right order : elapsed / heightsPerYear ≤ _).lt_or_eq with less | same
  · calc
      yearlyRate (elapsed / heightsPerYear)
          + yearlyBump (elapsed / heightsPerYear) (elapsed % heightsPerYear)
        ≤ yearlyRate (elapsed / heightsPerYear + 1) := yearlyBump_le _ frac.le
      _ ≤ yearlyRate (later / heightsPerYear) := yearlyRate_mono less
      _ ≤ yearlyRate (later / heightsPerYear)
          + yearlyBump (later / heightsPerYear) (later % heightsPerYear) :=
        le_add_of_nonneg_right (yearlyBump_nonneg _ _)
  · rw [same] at split ⊢
    have onward : elapsed % heightsPerYear ≤ later % heightsPerYear := by omega
    exact add_le_add le_rfl (yearlyBump_mono _ onward)

theorem lastYearStart_lt : lastYearStart < rateEnd :=
  Nat.lt_add_of_pos_right (Nat.succ_pos _)

/-- The rate the last year begins with, at its first height. -/
theorem rateAfter_lastYearStart : rateAfter lastYearStart = yearlyRate lastRateYear := by
  have year : lastYearStart / heightsPerYear = lastRateYear :=
    Nat.mul_div_cancel lastRateYear (Nat.succ_pos _)
  have frac : lastYearStart % heightsPerYear = 0 := Nat.mul_mod_left lastRateYear heightsPerYear
  unfold rateAfter
  rw [if_pos lastYearStart_lt, year, frac, yearlyBump_zero, add_zero]

/-- Inside the last year the interpolation has raised the rate by at least one base unit. -/
theorem rateAfter_raised {elapsed : Nat} (begun : lastYearStart < elapsed)
    (before : elapsed < rateEnd)
    : yearlyRate lastRateYear < rateAfter elapsed := by
  have start : lastYearStart = 3920976000 := rfl
  have beyond : rateEnd = 3922624221 := rfl
  have year : elapsed / heightsPerYear = lastRateYear := by
    change elapsed / 10512000 = 373
    omega
  have frac : 1 ≤ elapsed % heightsPerYear := by
    change 1 ≤ elapsed % 10512000
    omega
  have first : 0 < yearlyBump lastRateYear 1 := by
    unfold yearlyBump
    rw [yearlyRate_last]
    decide
  unfold rateAfter
  rw [if_pos before, year]
  have := yearlyBump_mono lastRateYear frac
  omega

/-- The share rate does not fall between two heights, unless the first lies inside the last year
before its interpolation ends and the second does not.
-/
theorem shareRate_le_iff (genesis : Nat) {height later : Nat} (order : height ≤ later)
    : shareRate genesis height ≤ shareRate genesis later
      ↔ ¬(genesis + lastYearStart < height ∧ height < genesis + rateEnd
        ∧ genesis + rateEnd ≤ later) := by
  rw [shareRate_eq, shareRate_eq]
  have ending := lastYearStart_lt
  have shift : height - genesis ≤ later - genesis := by omega
  rcases Nat.lt_or_ge (later - genesis) rateEnd with before | beyond
  · exact iff_of_true (rateAfter_mono shift before) (by omega)
  have fallen : rateAfter (later - genesis) = yearlyRate lastRateYear := by
    unfold rateAfter
    rw [if_neg (by omega)]
  rw [fallen]
  rcases Nat.lt_or_ge (height - genesis) rateEnd with inside | both
  · rcases Nat.lt_or_ge lastYearStart (height - genesis) with raised | low
    · exact iff_of_false (not_le.mpr (rateAfter_raised raised inside)) (by omega)
    · refine iff_of_true ?_ (by omega)
      exact rateAfter_lastYearStart ▸ rateAfter_mono low lastYearStart_lt
  · refine iff_of_true (le_of_eq ?_) (by omega)
    unfold rateAfter
    rw [if_neg (by omega)]

/-- Across the first anniversary the rate rises. -/
theorem shareRate_anniversary : shareRate 7 10512006 ≤ shareRate 7 10512008 :=
  (shareRate_le_iff 7 (by decide)).mpr fun inside => by
    have start : lastYearStart = 3920976000 := rfl
    omega

/-- The rate at the last height whose interpolation is an amount, and at the next. -/
theorem shareRate_falls
    : shareRate 0 (lastYearStart + 1648220) = 9223372017606138527
      ∧ shareRate 0 (lastYearStart + 1648221) = 9123239087712637704
      ∧ ¬∀ genesis height later : Nat, later < 2 ^ 64 → height ≤ later →
        shareRate genesis height ≤ shareRate genesis later := by
  have high : shareRate 0 (lastYearStart + 1648220) = 9223372017606138527 := by decide +kernel
  have low : shareRate 0 (lastYearStart + 1648221) = 9123239087712637704 := by decide +kernel
  refine ⟨high, low, fun never => ?_⟩
  have rises := never 0 (lastYearStart + 1648220) (lastYearStart + 1648221) (by decide) (by decide)
  rw [high, low] at rises
  exact absurd rises (by decide)

end LasseCash.Engine
