import LasseCash.Engine.Units

/-! The cumulative reward-per-share accumulator of `engine/accumulator.go`. -/

namespace LasseCash.Engine

open MachineInt

/-- Fixed-point scale of the accumulator. -/
def accScale : Int := 1000000000000

/-- The share base below which an inflow is held instead of distributed. -/
def minSharesForAccrual : Int := 10000000000

def maxAccumulator : Int := 2 ^ 63 - 1

/-- One inflow: either the whole of `inflow + held` raises the accumulator, or all of it
stays held. Returns the new accumulator and what is still held.
-/
def accumulatorStep (acc inflow held activeShares : Int) : Int × Int :=
  let total := i64 (inflow + held)
  if total ≤ 0 then (acc, 0)
  else if activeShares < minSharesForAccrual then (acc, total)
  else
    match mulDiv total accScale activeShares with
    | none => (acc, total)
    | some rise =>
        if rise ≤ 0 then (acc, total)
        else if acc > i64 (maxAccumulator - rise) then (acc, total)
        else (i64 (acc + rise), 0)

/-- The accumulator stays a word. -/
theorem accumulatorStep_word {acc : Int} (h : InI64 acc) (inflow held activeShares : Int)
    : InI64 (accumulatorStep acc inflow held activeShares).1 := by
  unfold accumulatorStep
  dsimp only
  split
  · exact h
  split
  · exact h
  split
  · exact h
  split
  · exact h
  split
  · exact h
  · exact i64_mem _

/-- The accumulator never falls, and so never turns negative: a rise is positive, and one that would
pass the largest word is refused.
-/
theorem accumulatorStep_le {acc : Int} (nonneg : 0 ≤ acc) (word : acc < 2 ^ 63)
    (inflow held activeShares : Int)
    : acc ≤ (accumulatorStep acc inflow held activeShares).1 := by
  unfold accumulatorStep
  dsimp only
  split
  · exact le_refl acc
  rename_i total_pos
  split
  · exact le_refl acc
  rename_i enough
  have base : 0 < activeShares := lt_of_lt_of_le (by decide) (not_lt.mp enough)
  cases quotient : mulDiv (i64 (inflow + held)) accScale activeShares with
  | none => exact le_refl acc
  | some rise =>
      obtain ⟨-, rise_le⟩ := mulDiv_eq_some (not_le.mp total_pos).le (by decide) base quotient
      unfold maxAmount at rise_le
      dsimp only
      split
      · exact le_refl acc
      rename_i positive
      rw [not_le] at positive
      have room : i64 (maxAccumulator - rise) = 2 ^ 63 - 1 - rise :=
        i64_of_nonneg (by unfold maxAccumulator; omega) (by unfold maxAccumulator; omega)
      rw [room]
      split
      · exact le_refl acc
      rename_i fits
      rw [i64_of_nonneg (by omega) (by omega)]
      omega

/-- What one unit of share is credited of a total. -/
def riseOf (total activeShares : Int) : Int := total * accScale / activeShares

/-- A total that is positive and a word is distributed exactly where the share base is large
enough, the rise at least one, and the risen accumulator a word; by cases on the checks.
-/
theorem accumulatorStep_eq {acc inflow held activeShares : Int} (acc_nonneg : 0 ≤ acc)
    (acc_le : acc ≤ maxAccumulator) (total_pos : 0 < inflow + held)
    (total_lt : inflow + held < 2 ^ 63)
    : accumulatorStep acc inflow held activeShares
      = if minSharesForAccrual ≤ activeShares ∧ 0 < riseOf (inflow + held) activeShares
            ∧ acc + riseOf (inflow + held) activeShares ≤ maxAccumulator
        then (acc + riseOf (inflow + held) activeShares, 0) else (acc, inflow + held) := by
  unfold accumulatorStep
  simp only [i64_of_nonneg total_pos.le total_lt, if_neg (not_le.mpr total_pos)]
  by_cases enough : minSharesForAccrual ≤ activeShares
  · rw [if_neg (not_lt.mpr enough)]
    have base : 0 < activeShares := lt_of_lt_of_le (by decide) enough
    have nonneg : 0 ≤ riseOf (inflow + held) activeShares :=
      Int.ediv_nonneg (mul_nonneg total_pos.le (by decide)) base.le
    by_cases small : riseOf (inflow + held) activeShares ≤ maxAmount
    · rw [mulDiv_of_fits total_pos.le (by decide) base small]
      change (if riseOf (inflow + held) activeShares ≤ 0 then _ else _) = _
      simp only [← riseOf.eq_def]
      unfold maxAccumulator maxAmount at *
      rw [i64_of_nonneg (x := 2 ^ 63 - 1 - riseOf (inflow + held) activeShares) (by omega)
        (by omega)]
      by_cases some_rise : riseOf (inflow + held) activeShares ≤ 0
      · rw [if_pos some_rise, if_neg (by omega)]
      · rw [if_neg some_rise]
        by_cases room : acc + riseOf (inflow + held) activeShares ≤ 2 ^ 63 - 1
        · rw [if_neg (by omega), if_pos ⟨enough, by omega, room⟩,
            i64_of_nonneg (by omega) (by omega)]
        · rw [if_pos (by omega), if_neg (by omega)]
    · have overflow : mulDiv (inflow + held) accScale activeShares = none := by
        cases quotient : mulDiv (inflow + held) accScale activeShares with
        | none => rfl
        | some rise =>
            obtain ⟨rfl, le⟩ := mulDiv_eq_some total_pos.le (by decide) base quotient
            exact absurd le small
      rw [overflow, if_neg]
      rintro ⟨_, _, room⟩
      unfold maxAccumulator maxAmount at *
      omega
  · rw [if_pos (not_le.mp enough), if_neg fun h => enough h.1]

/-- What `shares` earned between two accumulator readings. -/
def entitlement (shares accStart accEnd : Int) : Int :=
  if shares ≤ 0 ∨ accEnd ≤ accStart then 0
  else (mulDiv (i64 (accEnd - accStart)) shares accScale).getD 0

/-- An entitlement is non-negative and, in the accumulator's scale, no more than what is due. -/
theorem entitlement_bounds {shares accStart accEnd : Int} (start_nonneg : 0 ≤ accStart)
    (shares_nonneg : 0 ≤ shares) (later : accStart ≤ accEnd) (word : accEnd < 2 ^ 63)
    : 0 ≤ entitlement shares accStart accEnd
      ∧ entitlement shares accStart accEnd * accScale ≤ shares * (accEnd - accStart) := by
  have due_nonneg := mul_nonneg shares_nonneg (sub_nonneg.mpr later)
  unfold entitlement
  split
  · exact ⟨le_rfl, by simpa using due_nonneg⟩
  · rw [i64_of_nonneg (sub_nonneg.mpr later) (by omega)]
    cases quotient : mulDiv (accEnd - accStart) shares accScale with
    | none => exact ⟨le_rfl, by simpa using due_nonneg⟩
    | some owed =>
        obtain ⟨rfl, _⟩ := mulDiv_eq_some (sub_nonneg.mpr later) shares_nonneg (by decide) quotient
        rw [mul_comm shares] at *
        exact ⟨Int.ediv_nonneg due_nonneg (by decide), Int.ediv_mul_le _ (by decide)⟩

/-- What `shares` earn from one reading to another, in whole units. -/
def earned (shares accStart accEnd : Int) : Int :=
  max 0 shares * max 0 (accEnd - accStart) / accScale

theorem earned_nonneg (shares accStart accEnd : Int) : 0 ≤ earned shares accStart accEnd :=
  Int.ediv_nonneg (mul_nonneg (le_max_left ..) (le_max_left ..)) (by decide)

theorem earned_mono (shares accStart : Int) {accEnd later : Int} (le : accEnd ≤ later)
    : earned shares accStart accEnd ≤ earned shares accStart later := by
  unfold earned
  refine Int.ediv_le_ediv (by decide) (mul_le_mul_of_nonneg_left ?_ (le_max_left ..))
  exact max_le_max_left 0 (sub_le_sub_right le accStart)

/-- An entitlement is what the shares earned, unless that is no word. -/
theorem entitlement_eq {accStart accEnd : Int} (shares : Int) (start_nonneg : 0 ≤ accStart)
    (word : accEnd < 2 ^ 63)
    : entitlement shares accStart accEnd
      = if earned shares accStart accEnd ≤ maxAmount then earned shares accStart accEnd else 0 := by
  unfold entitlement
  split
  · rename_i nothing
    have none_earned : earned shares accStart accEnd = 0 := by
      unfold earned
      rcases nothing with idle | flat
      · rw [max_eq_left idle, zero_mul, Int.zero_ediv]
      · rw [max_eq_left (sub_nonpos.mpr flat), mul_zero, Int.zero_ediv]
    rw [none_earned, if_pos (by decide)]
  · rename_i due
    obtain ⟨shares_pos, later⟩ := not_or.mp due
    rw [not_le] at shares_pos later
    have rise : 0 ≤ accEnd - accStart := sub_nonneg.mpr later.le
    have whole : earned shares accStart accEnd = (accEnd - accStart) * shares / accScale := by
      unfold earned
      rw [max_eq_right shares_pos.le, max_eq_right rise, mul_comm]
    rw [i64_of_nonneg rise (by omega), whole]
    split
    · rename_i fits
      rw [mulDiv_of_fits rise shares_pos.le (by decide) fits, Option.getD_some]
    · rename_i unfit
      cases quotient : mulDiv (accEnd - accStart) shares accScale with
      | none => rfl
      | some owed =>
          obtain ⟨rfl, fits⟩ := mulDiv_eq_some rise shares_pos.le (by decide) quotient
          exact absurd fits unfit

/-- Per-account expiry entries in one stored chunk. -/
def expiryChunkSize : Nat := 25

/-- Retirements one `advance` performs. -/
def maxRetirePerWalk : Nat := 50

/-- Retirements an ordinary transaction performs as a side effect. -/
def userRetireBudget : Nat := expiryChunkSize

end LasseCash.Engine
