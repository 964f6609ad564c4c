import LasseCash.Engine.Pool
import LasseCash.Lib.ConstantProduct
import Mathlib.Algebra.Order.Floor.Ring
import Mathlib.Data.Rat.Floor

/-! Round trips through the pool: the HBD that a deposit is asked for is its exact price rounded
up, what a deposit has earned releases no more than was brought, and trading an output back returns
no more than the input.
-/

namespace LasseCash.Engine

open MachineInt

-----------------------------------------------------------------------------------------
-- The price of a deposit
-----------------------------------------------------------------------------------------

/-- What is asked for is the floored price, raised by one where the price is not whole. The check
that decides this cannot overflow.
-/
theorem hbdRequiredFor_eq {lcIn lcReserve hbdReserve : Int} (word : lcIn < 2 ^ 63)
    (deposits : 0 < lcIn) (lc : 0 < lcReserve) (hbd : 0 < hbdReserve)
    (fits : hbdReserve * lcIn / lcReserve ≤ maxAmount)
    : hbdRequiredFor lcIn lcReserve hbdReserve
      = some (if hbdReserve * lcIn / lcReserve * lcReserve < hbdReserve * lcIn
          then i64 (hbdReserve * lcIn / lcReserve + 1) else hbdReserve * lcIn / lcReserve) := by
  have nonneg : 0 ≤ hbdReserve * lcIn / lcReserve :=
    Int.ediv_nonneg (mul_nonneg hbd.le deposits.le) lc.le
  have floored := Int.ediv_mul_le (hbdReserve * lcIn) lc.ne'
  have back : hbdReserve * lcIn / lcReserve * lcReserve / hbdReserve ≤ lcIn :=
    Int.ediv_le_of_le_mul hbd (by rwa [mul_comm lcIn])
  have short : hbdReserve * lcIn / lcReserve * lcReserve / hbdReserve < lcIn
      ↔ hbdReserve * lcIn / lcReserve * lcReserve < hbdReserve * lcIn := by
    rw [Int.ediv_lt_iff_lt_mul hbd, mul_comm lcIn]
  unfold hbdRequiredFor
  rw [if_neg (by omega), if_neg (by omega), mulDiv_of_fits hbd.le deposits.le lc fits]
  dsimp only
  rw [mulDiv_of_fits nonneg lc.le hbd (by unfold maxAmount; omega)]
  simp only [short]

/-- The price of a deposit as a fraction. -/
def depositPrice (lcIn lcReserve hbdReserve : Int) : ℚ := hbdReserve * lcIn / lcReserve

theorem ceil_depositPrice {lcIn lcReserve hbdReserve need : Int} (lc : 0 < lcReserve)
    : ⌈depositPrice lcIn lcReserve hbdReserve⌉ = need
      ↔ (need - 1) * lcReserve < hbdReserve * lcIn ∧ hbdReserve * lcIn ≤ need * lcReserve := by
  have positive : (0 : ℚ) < lcReserve := by exact_mod_cast lc
  rw [depositPrice, Int.ceil_eq_iff, lt_div_iff₀ positive, div_le_iff₀ positive]
  exact_mod_cast Iff.rfl

/-- The HBD asked for is the price rounded up, or nothing where that is no amount, unless the price
lies above the largest word and its floor does not: then the raise wraps.
-/
theorem hbdRequiredFor_ceil {lcIn lcReserve hbdReserve : Int} (word : lcIn < 2 ^ 63)
    (deposits : 0 < lcIn) (lc : 0 < lcReserve) (hbd : 0 < hbdReserve)
    : hbdRequiredFor lcIn lcReserve hbdReserve
        = (if ⌈depositPrice lcIn lcReserve hbdReserve⌉ ≤ maxAmount then
            some ⌈depositPrice lcIn lcReserve hbdReserve⌉ else none)
      ↔ ¬((2 ^ 63 - 1) * lcReserve < hbdReserve * lcIn
        ∧ hbdReserve * lcIn < 2 ^ 63 * lcReserve) := by
  have nonneg : 0 ≤ hbdReserve * lcIn / lcReserve :=
    Int.ediv_nonneg (mul_nonneg hbd.le deposits.le) lc.le
  have floored := Int.ediv_mul_le (hbdReserve * lcIn) lc.ne'
  have above := Int.lt_ediv_add_one_mul_self (hbdReserve * lcIn) lc
  by_cases fits : hbdReserve * lcIn / lcReserve ≤ maxAmount
  · rw [hbdRequiredFor_eq word deposits lc hbd fits]
    unfold maxAmount at fits
    generalize hbdReserve * lcIn / lcReserve = floor at *
    rcases floored.lt_or_eq with part | whole
    · have ceil : ⌈depositPrice lcIn lcReserve hbdReserve⌉ = floor + 1 :=
        (ceil_depositPrice lc).mpr (by rw [add_sub_cancel_right]; exact ⟨part, above.le⟩)
      rw [if_pos part, ceil]
      unfold maxAmount
      rcases fits.lt_or_eq with less | rfl
      · rw [i64_of_nonneg (by omega) (by omega), if_pos (by omega)]
        refine iff_of_true rfl fun between => ?_
        have reached : (floor + 1) * lcReserve ≤ (2 ^ 63 - 1) * lcReserve :=
          mul_le_mul_of_nonneg_right (by omega) lc.le
        omega
      · rw [if_neg (by omega)]
        exact iff_of_false nofun (not_not.mpr ⟨part, by linarith⟩)
    · have ceil : ⌈depositPrice lcIn lcReserve hbdReserve⌉ = floor :=
        (ceil_depositPrice lc).mpr ⟨by linarith, whole.ge⟩
      rw [if_neg (by omega), ceil]
      unfold maxAmount
      rw [if_pos fits]
      refine iff_of_true rfl fun between => ?_
      rw [← whole] at between
      have lower := lt_of_mul_lt_mul_right between.1 lc.le
      omega
  · have refused : hbdRequiredFor lcIn lcReserve hbdReserve = none := by
      unfold hbdRequiredFor
      rw [if_neg (by omega), if_neg (by omega)]
      cases price : mulDiv hbdReserve lcIn lcReserve with
      | none => rfl
      | some need =>
          obtain ⟨rfl, le⟩ := mulDiv_eq_some hbd.le deposits.le lc price
          exact absurd le fits
    unfold maxAmount at fits
    have reached : 2 ^ 63 * lcReserve ≤ hbdReserve * lcIn / lcReserve * lcReserve :=
      mul_le_mul_of_nonneg_right (by omega) lc.le
    have beyond : ¬⌈depositPrice lcIn lcReserve hbdReserve⌉ ≤ maxAmount := by
      intro within
      obtain ⟨-, covered⟩ := (ceil_depositPrice lc).mp
        (rfl : ⌈depositPrice lcIn lcReserve hbdReserve⌉ = _)
      have bounded := mul_le_mul_of_nonneg_right within lc.le
      unfold maxAmount at bounded
      linarith
    rw [refused, if_neg beyond]
    exact iff_of_true rfl (by omega)

/-- A price of three halves of an odd amount, just below the word that does not exist, is asked for
as the least word.
-/
theorem hbdRequiredFor_wraps
    : hbdRequiredFor 6148914691236517205 2 3 = some (-2 ^ 63)
      ∧ ⌈depositPrice 6148914691236517205 2 3⌉ = 2 ^ 63 := by
  refine ⟨by decide +kernel, (ceil_depositPrice (by decide)).mpr (by decide)⟩

-----------------------------------------------------------------------------------------
-- Deposits and withdrawals
-----------------------------------------------------------------------------------------

/-- Shares release no more of a reserve than was added for them, where they were issued at no
better price. Sums that wrap release nothing.
-/
theorem released_le {reserve added total shares out : Int} (stocked : 0 < reserve)
    (adds : 0 ≤ added) (word : reserve < 2 ^ 63) (word' : added < 2 ^ 63) (issued : 0 < shares)
    (price : reserve * shares ≤ added * total) (whole : 0 < total + shares)
    (release : mulDiv (i64 (reserve + added)) shares (total + shares) = some out)
    : out ≤ added := by
  rcases lt_or_ge (reserve + added) (2 ^ 63) with fits | wraps
  · rw [i64_of_nonneg (by omega) fits] at release
    obtain ⟨rfl, -⟩ := mulDiv_eq_some (by omega) issued.le whole release
    refine Int.ediv_le_of_le_mul whole ?_
    linarith
  · have negative : i64 (reserve + added) ≤ 0 := by
      unfold i64
      omega
    have nothing := mulDiv_nonpos negative issued.le whole
    rw [release, Option.getD_some] at nothing
    exact nothing.trans adds

/-- What a deposit has earned releases no more of either reserve than it brought. -/
theorem deposit_withdraw_le {lcIn lcReserve hbdReserve total need shares lcOut hbdOut : Int}
    (lc : 0 < lcReserve) (hbd : 0 < hbdReserve) (stock : 0 < total) (word : lcIn < 2 ^ 63)
    (lc_word : lcReserve < 2 ^ 63) (hbd_word : hbdReserve < 2 ^ 63) (total_word : total < 2 ^ 63)
    (deposits : 0 < lcIn) (priced : hbdRequiredFor lcIn lcReserve hbdReserve = some need)
    (drawn : 0 < need) (need_word : need < 2 ^ 63)
    (earned : lpSharesFor lcIn lcReserve total = some shares)
    (released : withdrawAmounts shares (i64 (total + shares)) (i64 (lcReserve + lcIn))
      (i64 (hbdReserve + need)) = some (lcOut, hbdOut))
    : lcOut ≤ lcIn ∧ hbdOut ≤ need := by
  obtain ⟨floor, shares_word⟩ := lpSharesFor_eq_some lc stock earned
  have price := hbdRequiredFor_price word priced drawn
  unfold withdrawAmounts at released
  split at released
  · cases released
  rename_i guarded
  push Not at guarded
  obtain ⟨issued, positive, -⟩ := guarded
  have whole : i64 (total + shares) = total + shares := by
    unfold i64 at positive ⊢
    omega
  rw [whole] at released positive
  have lcPrice : lcReserve * shares ≤ lcIn * total := by
    rw [floor, mul_comm lcReserve, mul_comm lcIn]
    exact Int.ediv_mul_le _ lc.ne'
  have hbdPrice : hbdReserve * shares ≤ need * total := by
    refine le_of_mul_le_mul_right ?_ lc
    calc hbdReserve * shares * lcReserve = hbdReserve * (lcReserve * shares) := by ring
      _ ≤ hbdReserve * (lcIn * total) := mul_le_mul_of_nonneg_left lcPrice hbd.le
      _ = hbdReserve * lcIn * total := by ring
      _ ≤ need * lcReserve * total := mul_le_mul_of_nonneg_right price stock.le
      _ = need * total * lcReserve := by ring
  split at released
  · rename_i lc' hbd' lcPart hbdPart
    obtain ⟨rfl, rfl⟩ := Prod.mk.inj (Option.some.inj released)
    exact ⟨released_le lc deposits.le lc_word word issued lcPrice positive lcPart,
      released_le hbd drawn.le hbd_word need_word issued hbdPrice positive hbdPart⟩
  · cases released

-----------------------------------------------------------------------------------------
-- Trades
-----------------------------------------------------------------------------------------

/-- Trading the whole output of a swap back, in the reserves that it has left, returns no more than
its input.
-/
theorem swap_back_le {reserveIn reserveOut amountIn out back : Int} (word : reserveIn < 2 ^ 63)
    (out_word : reserveOut < 2 ^ 63) (amount : amountIn < 2 ^ 63)
    (there : swapOut reserveIn reserveOut amountIn = some out)
    (again : swapOut (i64 (reserveOut - out)) (i64 (reserveIn + amountIn)) out = some back)
    : back ≤ amountIn := by
  obtain ⟨stocked, positive, fits, floor, some_out, part⟩ := swapOut_eq_some word amount there
  rw [i64_of_nonneg (by omega) (by omega), i64_of_nonneg (by omega) fits] at again
  obtain ⟨-, -, -, floor', -, -⟩ := swapOut_eq_some (by omega) (by omega) again
  have taken : out * (reserveIn + amountIn) ≤ reserveOut * amountIn := by
    rw [floor]
    exact Int.ediv_mul_le _ (by omega)
  rw [floor', sub_add_cancel]
  refine Int.ediv_le_of_le_mul (by omega) ?_
  linarith

end LasseCash.Engine
