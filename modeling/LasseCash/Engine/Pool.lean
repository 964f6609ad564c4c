import LasseCash.Engine.Accumulator
import LasseCash.Engine.LShare

/-! The constant-product pool and its loyalty weights of `engine/pool.go`. -/

namespace LasseCash.Engine

open MachineInt

def loyaltyMaxDays : Int := 90

def loyaltyPerDayPct : Int := 1

/-- A tranche's reward multiplier for its age: one percent a day, at most ninety days. -/
def loyaltyMultiplier (ageDays : Int) : Int :=
  if ageDays ≤ 0 then multScale
  else
    let days := if ageDays > loyaltyMaxDays then loyaltyMaxDays else ageDays
    multScale + days * loyaltyPerDayPct * multScale / 100

def ageDays (startHeight height : Nat) : Int :=
  if height ≤ startHeight then 0 else i64 ((height - startHeight) / heightsPerDay : Nat)

/-- The floored constant-product output, without a fee. -/
def swapOut (reserveIn reserveOut amountIn : Int) : Option Int :=
  if reserveIn ≤ 0 ∨ reserveOut ≤ 0 ∨ amountIn ≤ 0 then none
  else
    match addAmount reserveIn amountIn with
    | none => none
    | some denom =>
        if denom ≤ 0 then none
        else
          match mulDiv reserveOut amountIn denom with
          | none => none
          | some out => if out ≤ 0 ∨ out ≥ reserveOut then none else some out

/-- A swap that is possible has a whole input and floors its output, which leaves a part. -/
theorem swapOut_eq_some {reserveIn reserveOut amountIn out : Int} (word : reserveIn < 2 ^ 63)
    (amount : amountIn < 2 ^ 63) (h : swapOut reserveIn reserveOut amountIn = some out)
    : 0 < reserveIn ∧ 0 < amountIn ∧ reserveIn + amountIn < 2 ^ 63
      ∧ out = reserveOut * amountIn / (reserveIn + amountIn) ∧ 0 < out ∧ out < reserveOut := by
  unfold swapOut at h
  split at h
  · cases h
  split at h
  · cases h
  rename_i positive denom sum
  obtain ⟨rfl, fits⟩ := addAmount_eq_some (by omega) (by omega) word amount sum
  split at h
  · cases h
  split at h
  · cases h
  rename_i out' quotient
  split at h
  · cases h
  obtain rfl := Option.some.inj h
  exact ⟨by omega, by omega, fits,
    (mulDiv_eq_some (by omega) (by omega) (by omega) quotient).1, by omega, by omega⟩

/-- Whatever a swap is asked for, it returns a part of its reserve. -/
theorem swapOut_part {reserveIn reserveOut amountIn out : Int}
    (h : swapOut reserveIn reserveOut amountIn = some out)
    : 0 < out ∧ out < reserveOut := by
  unfold swapOut at h
  split at h
  · cases h
  split at h
  · cases h
  split at h
  · cases h
  split at h
  · cases h
  split at h
  · cases h
  · obtain rfl := Option.some.inj h
    omega

/-- The pool shares minted for a deposit; the first provider receives its LASSECASH. -/
def lpSharesFor (lcIn lcReserve totalShares : Int) : Option Int :=
  if lcIn ≤ 0 then none
  else if totalShares ≤ 0 ∨ lcReserve ≤ 0 then some lcIn
  else
    match mulDiv totalShares lcIn lcReserve with
    | none => none
    | some s => if s ≤ 0 then none else some s

/-- A deposit into a stocked pool earns its floored part of the shares. -/
theorem lpSharesFor_eq_some {lcIn lcReserve totalShares s : Int} (stocked : 0 < lcReserve)
    (issued : 0 < totalShares) (h : lpSharesFor lcIn lcReserve totalShares = some s)
    : s = totalShares * lcIn / lcReserve ∧ s < 2 ^ 63 := by
  unfold lpSharesFor at h
  split at h
  · cases h
  split at h
  · omega
  split at h
  · cases h
  rename_i s' quotient
  split at h
  · cases h
  obtain rfl := Option.some.inj h
  obtain ⟨floor, le⟩ := mulDiv_eq_some issued.le (by omega) stocked quotient
  exact ⟨floor, by unfold maxAmount at le; omega⟩

/-- The first deposit earns what it brings. -/
theorem lpSharesFor_first {lcIn lcReserve totalShares : Int} (positive : 0 < lcIn)
    (first : totalShares ≤ 0 ∨ lcReserve ≤ 0)
    : lpSharesFor lcIn lcReserve totalShares = some lcIn := by
  rw [lpSharesFor, if_neg (not_le.mpr positive), if_pos first]

/-- The HBD that keeps the price of a deposit, rounded up. -/
def hbdRequiredFor (lcIn lcReserve hbdReserve : Int) : Option Int :=
  if lcIn ≤ 0 then none
  else if lcReserve ≤ 0 ∨ hbdReserve ≤ 0 then none
  else
    match mulDiv hbdReserve lcIn lcReserve with
    | none => none
    | some need =>
        match mulDiv need lcReserve hbdReserve with
        | none => some need
        | some check => some (if check < lcIn then i64 (need + 1) else need)

/-- The HBD asked for is no less than the price of the deposit, by cases on the check that
decides whether to round up.
-/
theorem hbdRequiredFor_price {lcIn lcReserve hbdReserve need : Int} (word : lcIn < 2 ^ 63)
    (h : hbdRequiredFor lcIn lcReserve hbdReserve = some need) (positive : 0 < need)
    : hbdReserve * lcIn ≤ need * lcReserve := by
  unfold hbdRequiredFor at h
  split at h
  · cases h
  split at h
  · cases h
  rename_i lcIn_pos stocked
  split at h
  · cases h
  rename_i floor quotient
  obtain ⟨floored, le⟩ := mulDiv_eq_some (by omega) (by omega) (by omega) quotient
  have nonneg : 0 ≤ floor := floored ▸ Int.ediv_nonneg (mul_nonneg (by omega) (by omega)) (by omega)
  split at h
  · rename_i unchecked
    obtain rfl := Option.some.inj h
    -- the check only overflows on a price that is high enough
    have beyond : maxAmount < floor * lcReserve / hbdReserve := by
      by_contra small
      rw [mulDiv_of_fits nonneg (by omega) (by omega) (not_lt.mp small)] at unchecked
      cases unchecked
    have enough : lcIn ≤ floor * lcReserve / hbdReserve := by
      unfold maxAmount at beyond
      omega
    rw [mul_comm hbdReserve]
    exact (Int.le_ediv_iff_mul_le (by omega)).mp enough
  · rename_i check checked
    obtain ⟨rfl, _⟩ := mulDiv_eq_some nonneg (by omega) (by omega) checked
    have rounded := Option.some.inj h
    split at rounded
    · have whole : need = floor + 1 := by
        unfold maxAmount i64 at *
        omega
      rw [whole, floored]
      exact le_of_lt (Int.lt_ediv_add_one_mul_self _ (by omega))
    · rename_i enough
      subst rounded
      rw [mul_comm hbdReserve]
      exact (Int.le_ediv_iff_mul_le (by omega)).mp (not_lt.mp enough)

/-- What burning pool shares releases of each reserve; both floor. -/
def withdrawAmounts (shares totalShares lcReserve hbdReserve : Int) : Option (Int × Int) :=
  if shares ≤ 0 ∨ totalShares ≤ 0 ∨ shares > totalShares then none
  else
    match mulDiv lcReserve shares totalShares, mulDiv hbdReserve shares totalShares with
    | some lc, some hbd => some (lc, hbd)
    | _, _ => none

theorem withdrawAmounts_eq_some {shares totalShares lcReserve hbdReserve lc hbd : Int}
    (lc_nonneg : 0 ≤ lcReserve) (hbd_nonneg : 0 ≤ hbdReserve)
    (h : withdrawAmounts shares totalShares lcReserve hbdReserve = some (lc, hbd))
    : 0 < shares ∧ shares ≤ totalShares ∧ lc = lcReserve * shares / totalShares
      ∧ hbd = hbdReserve * shares / totalShares := by
  unfold withdrawAmounts at h
  split at h
  · cases h
  split at h
  · rename_i lc' hbd' lcPart hbdPart
    obtain ⟨rfl, rfl⟩ := Prod.mk.inj (Option.some.inj h)
    exact ⟨by omega, by omega,
      (mulDiv_eq_some lc_nonneg (by omega) (by omega) lcPart).1,
      (mulDiv_eq_some hbd_nonneg (by omega) (by omega) hbdPart).1⟩
  · cases h

/-- A withdrawal releases a part of the HBD, and none of a reserve that is below zero. -/
theorem withdrawAmounts_part {shares totalShares lcReserve hbdReserve lc hbd : Int}
    (h : withdrawAmounts shares totalShares lcReserve hbdReserve = some (lc, hbd))
    : 0 ≤ hbdReserve ∧ 0 ≤ hbd ∧ hbd ≤ hbdReserve ∨ hbdReserve < 0 ∧ hbd ≤ 0 := by
  unfold withdrawAmounts at h
  split at h
  · cases h
  split at h
  · rename_i lc' hbd' lcPart hbdPart
    obtain ⟨rfl, rfl⟩ := Prod.mk.inj (Option.some.inj h)
    rcases le_or_gt 0 hbdReserve with stocked | short
    · exact .inl ⟨stocked, mulDiv_le_self stocked (by omega) (by omega) (by omega) hbdPart⟩
    · have none_left := mulDiv_nonpos short.le (by omega : 0 ≤ shares) (by omega : 0 < totalShares)
      rw [hbdPart] at none_left
      exact .inr ⟨short, none_left⟩
  · cases h

/-- A tranche's claim weight on the liquidity rewards. -/
def trancheWeight (shares ageDays : Int) : Int :=
  if shares ≤ 0 then 0 else (mulDiv shares (loyaltyMultiplier ageDays) multScale).getD shares

theorem trancheWeight_nonneg (shares ageDays : Int) : 0 ≤ trancheWeight shares ageDays := by
  unfold trancheWeight
  split
  · exact le_rfl
  · have scaled : 0 ≤ loyaltyMultiplier ageDays := by
      unfold loyaltyMultiplier loyaltyMaxDays loyaltyPerDayPct multScale
      split
      · decide
      · dsimp only
        split <;> omega
    cases quotient : mulDiv shares (loyaltyMultiplier ageDays) multScale with
    | none => simpa using by omega
    | some weight =>
        obtain ⟨rfl, _⟩ := mulDiv_eq_some (by omega) scaled (by decide) quotient
        exact Int.ediv_nonneg (mul_nonneg (by omega) scaled) (by decide)

/-- What a tranche would be paid right now: at the accumulator as it reads with the inflow that is
not synced yet, and never more than the pool holds.
-/
def poolRewardsOwed (weight accStart pool seen held acc totalWeight : Int) : Int :=
  if weight ≤ 0 then 0
  else
    let acc :=
      if pool > seen then (accumulatorStep acc (i64 (pool - seen)) held totalWeight).1 else acc
    let owed := entitlement weight accStart acc
    if owed > pool then pool else owed

def hbdUnitsPerMilli : Int := 100000

/-- The milli-HBD to draw so that at least `units` are in custody. -/
def hbdDrawMilli (units : Int) : Int :=
  if units ≤ 0 then 0 else (i64 (units + hbdUnitsPerMilli - 1)).tdiv hbdUnitsPerMilli

/-- The milli-HBD to pay for `units`, never more. -/
def hbdPayMilli (units : Int) : Int :=
  if units ≤ 0 then 0 else units / hbdUnitsPerMilli

/-- A draw brings at least what is booked, and where it would wrap it brings nothing. -/
theorem hbdDrawMilli_covers {units : Int} (word : units < 2 ^ 63)
    (some_drawn : 0 < hbdDrawMilli units)
    : 0 < units ∧ units ≤ hbdDrawMilli units * hbdUnitsPerMilli := by
  unfold hbdDrawMilli at some_drawn ⊢
  split at some_drawn
  · omega
  · rename_i positive
    rw [if_neg positive]
    rcases lt_or_ge (units + hbdUnitsPerMilli - 1) (2 ^ 63) with fits | wraps
    · rw [i64_of_nonneg (by unfold hbdUnitsPerMilli; omega) fits,
        Int.tdiv_eq_ediv_of_nonneg (by unfold hbdUnitsPerMilli; omega)]
      unfold hbdUnitsPerMilli
      omega
    · have negative : i64 (units + hbdUnitsPerMilli - 1) ≤ 0 := by
        unfold i64 hbdUnitsPerMilli at *
        omega
      have none_drawn := Int.tdiv_nonneg (neg_nonneg.mpr negative)
        (by decide : 0 ≤ hbdUnitsPerMilli)
      rw [Int.neg_tdiv] at none_drawn
      omega

/-- A payout takes no more than is booked. -/
theorem hbdPayMilli_le {units : Int} (positive : 0 ≤ units)
    : 0 ≤ hbdPayMilli units ∧ hbdPayMilli units * hbdUnitsPerMilli ≤ units := by
  unfold hbdPayMilli hbdUnitsPerMilli
  split <;> omega

def trancheDormantDays : Nat := 180

def trancheEvictHeight (lastTouch : Nat) : Nat :=
  u64 (lastTouch + trancheDormantDays * heightsPerDay)

def trancheIsDormant (lastTouch height : Nat) : Bool := height ≥ trancheEvictHeight lastTouch

end LasseCash.Engine
