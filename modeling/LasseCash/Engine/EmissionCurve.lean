import LasseCash.Engine.EmissionTotals

/-! The emission schedule of the main network in closed form: what has been issued after a
number of heights, that it never exceeds the cap, and what one day issues.
-/

namespace LasseCash.Engine

open MachineInt

/-- The schedule bound to a genesis height. -/
def boundSchedule (genesis : Nat) : EmissionSchedule :=
  { defaultSchedule with genesisHeight := genesis }

/-- The budget of era `n`: half the cap, halved once for each era before it. -/
def halvedBudget (n : Nat) : Nat := 1000000000000000 / 2 ^ n

/-- The issuance for each height of era `n`. -/
def perHeight (n : Nat) : Nat := halvedBudget n / heightsPerEra

/-- The issuance of the first `n` eras. -/
def fullErasIssued : Nat → Nat
  | 0 => 0
  | n + 1 => fullErasIssued n + heightsPerEra * perHeight n

/-- The issuance of the first `elapsed` heights. -/
def issuedAfter (elapsed : Nat) : Nat :=
  fullErasIssued (elapsed / heightsPerEra)
    + elapsed % heightsPerEra * perHeight (elapsed / heightsPerEra)

-----------------------------------------------------------------------------------------
-- The curve
-----------------------------------------------------------------------------------------

theorem halvedBudget_succ (n : Nat) : halvedBudget (n + 1) = halvedBudget n / 2 := by
  unfold halvedBudget
  rw [pow_succ, ← Nat.div_div_eq_div_mul]

/-- An era never issues more than its budget, as the reward floors. -/
theorem era_le_budget (n : Nat) : heightsPerEra * perHeight n ≤ halvedBudget n := by
  unfold perHeight
  exact Nat.mul_div_le _ _

/-- What the first eras issued and twice the budget of the next stay within the cap, by
induction: a halved budget doubles back to at most the one before.
-/
theorem fullErasIssued_le (n : Nat)
    : fullErasIssued n + 2 * halvedBudget n ≤ 2000000000000000 := by
  induction n with
  | zero => decide
  | succ n ih =>
      have := era_le_budget n
      have := halvedBudget_succ n
      simp only [fullErasIssued]
      omega

/-- Rewards only ever fall, by monotonicity of division. -/
theorem perHeight_anti {m n : Nat} (h : m ≤ n) : perHeight n ≤ perHeight m :=
  Nat.div_le_div_right (Nat.div_le_div_left (Nat.pow_le_pow_right (by decide) h) (by positivity))

/-- A part of an era issues no more than the whole. -/
theorem partial_era_le (elapsed : Nat)
    : elapsed % heightsPerEra * perHeight (elapsed / heightsPerEra)
      ≤ heightsPerEra * perHeight (elapsed / heightsPerEra) :=
  Nat.mul_le_mul_right _ (Nat.mod_lt _ (by decide)).le

/-- The issuance never exceeds the cap. -/
theorem issuedAfter_le (elapsed : Nat) : issuedAfter elapsed ≤ 2000000000000000 := by
  have eras := fullErasIssued_le (elapsed / heightsPerEra)
  have budget := era_le_budget (elapsed / heightsPerEra)
  have remainder := partial_era_le elapsed
  unfold issuedAfter
  omega

/-- A day lies within one era, so it issues a whole number of rewards; witness: an era is
1095 days, and the day either starts or continues the era's remainder.
-/
theorem issuedAfter_day (day : Nat)
    : issuedAfter ((day + 1) * heightsPerDay)
      = issuedAfter (day * heightsPerDay) + heightsPerDay * perHeight (day / 1095) := by
  have quotient (d : Nat) : d * heightsPerDay / heightsPerEra = d / 1095 := by
    unfold heightsPerDay heightsPerEra
    omega
  have remainder (d : Nat) : d * heightsPerDay % heightsPerEra = d % 1095 * heightsPerDay := by
    unfold heightsPerDay heightsPerEra
    omega
  unfold issuedAfter
  simp only [quotient, remainder]
  rcases Nat.lt_or_ge (day % 1095 + 1) 1095 with inside | last
  · have era : (day + 1) / 1095 = day / 1095 := by omega
    have place : (day + 1) % 1095 = day % 1095 + 1 := by omega
    rw [era, place]
    ring
  · have era : (day + 1) / 1095 = day / 1095 + 1 := by omega
    have place : (day + 1) % 1095 = 0 := by omega
    have ending : day % 1095 = 1094 := by omega
    rw [era, place, ending, fullErasIssued]
    unfold heightsPerEra heightsPerDay
    ring

/-- The issuance only grows from day to day. -/
theorem issuedAfter_day_mono {m n : Nat} (h : m ≤ n)
    : issuedAfter (m * heightsPerDay) ≤ issuedAfter (n * heightsPerDay) := by
  induction n, h using Nat.le_induction with
  | base => exact le_rfl
  | succ n _ ih =>
      rw [issuedAfter_day]
      omega

-----------------------------------------------------------------------------------------
-- The source's loops compute the curve
-----------------------------------------------------------------------------------------

/-- The schedule of the main network is sound at every genesis. -/
theorem boundSchedule_sound (genesis : Nat) : (boundSchedule genesis).Sound where
  valid := by
    simp [boundSchedule, defaultSchedule, EmissionSchedule.valid, heightsPerEra, emissionCap]
  capWord := by
    simp only [boundSchedule, defaultSchedule]
    decide
  divisorWord := by
    simp only [boundSchedule, defaultSchedule]
    decide
  eraWord := by
    simp only [boundSchedule, defaultSchedule]
    decide

/-- Its budgets are the halved ones, by induction on the era. -/
theorem eraBudget_eq (genesis n : Nat) : (boundSchedule genesis).eraBudget n = halvedBudget n := by
  have sound := boundSchedule_sound genesis
  induction n with
  | zero =>
      rw [sound.eraBudget_zero]
      simp only [boundSchedule, defaultSchedule]
      decide
  | succ n ih =>
      rw [sound.eraBudget_succ, ih, halvedBudget_succ]
      simp [EmissionSchedule.nextBudget, boundSchedule, defaultSchedule]

/-- The reward of an era, from its budget. -/
theorem rewardPerHeight_eq (genesis n : Nat)
    : (boundSchedule genesis).rewardPerHeight n = perHeight n := by
  rw [(boundSchedule_sound genesis).rewardPerHeight_eq, eraBudget_eq]
  exact (Int.natCast_ediv _ _).symm

/-- The whole eras issue what the curve says, by induction on their number. -/
theorem erasIssued_eq (genesis n : Nat)
    : (boundSchedule genesis).erasIssued n = fullErasIssued n := by
  induction n with
  | zero => rfl
  | succ n ih =>
      rw [EmissionSchedule.erasIssued, ih, rewardPerHeight_eq, fullErasIssued]
      push_cast
      rw [mul_comm (heightsPerEra : Int)]
      rfl

/-- The schedule's total is the curve at the elapsed heights. -/
theorem totalEmittedAt_eq (genesis elapsed : Nat)
    : (boundSchedule genesis).totalEmittedAt (genesis + elapsed) = issuedAfter elapsed := by
  have closed := (boundSchedule_sound genesis).totalEmittedAt_eq elapsed
  have era : (boundSchedule genesis).eraHeights = heightsPerEra := rfl
  rw [erasIssued_eq, rewardPerHeight_eq, era] at closed
  refine closed.trans ?_
  unfold issuedAfter
  push_cast
  rw [mul_comm]

/-- What one day after genesis issues, when its last height is a word. -/
theorem emissionBetween_day (genesis day : Nat)
    : (boundSchedule genesis).emissionBetween (genesis + day * heightsPerDay)
        (genesis + (day + 1) * heightsPerDay)
      = (heightsPerDay * perHeight (day / 1095) : Nat) := by
  unfold EmissionSchedule.emissionBetween
  have := issuedAfter_day day
  have := issuedAfter_le ((day + 1) * heightsPerDay)
  rw [if_neg (by unfold heightsPerDay; omega), totalEmittedAt_eq, totalEmittedAt_eq,
    i64_of_nonneg (by omega) (by omega)]
  omega

end LasseCash.Engine
