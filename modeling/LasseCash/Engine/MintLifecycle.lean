import LasseCash.Engine.LShare
import LasseCash.Lib.ProRata
import Mathlib.Data.Int.ConditionallyCompleteOrder

/-! What closing a mint pays over its whole life: less than the principal before maturity, all of
it with the yield through the grace, and from there on less and less until nothing is left.
-/

namespace LasseCash.Engine

open MachineInt ProRata

namespace Mint

variable {m : Mint}

/-- The heights of the lock. -/
def lockHeights (m : Mint) : Nat := m.days.toNat * heightsPerDay

/-- The last height of the grace after maturity. -/
def graceEnd (m : Mint) : Nat := m.maturityHeight + m.graceDaysFor * heightsPerDay

/-- The mint with its longer grace. -/
def armed (m : Mint) : Mint := { m with goodAccounting := true }

theorem lockHeights_bounds (m : Mint) : 0 < m.lockHeights ∧ m.lockHeights ≤ 31536000 := by
  have lock := m.days_mem
  simp only [minMintDays, maxMintDays] at lock
  unfold lockHeights heightsPerDay
  omega

/-- The heights of a mint that starts in the lower quarter of the words do not wrap. -/
theorem maturityHeight_eq (early : m.startHeight < 2 ^ 62)
    : m.maturityHeight = m.startHeight + m.lockHeights := by
  have lock := m.days_mem
  simp only [minMintDays, maxMintDays] at lock
  unfold maturityHeight lockHeights heightsPerDay
  have locked : u64 (m.days.toNat * 28800) = m.days.toNat * 28800 := u64_of_lt (by omega)
  rw [toU64_of_nonneg (by omega) (by omega), locked, u64_of_lt (by omega)]

/-- A maturity beyond the start has not wrapped. -/
theorem maturityHeight_of_lt (started : m.startHeight < m.maturityHeight)
    : m.maturityHeight = m.startHeight + m.lockHeights := by
  have lock := m.days_mem
  simp only [minMintDays, maxMintDays] at lock
  have locked : u64 (m.days.toNat * 28800) = m.days.toNat * 28800 := u64_of_lt (by omega)
  unfold maturityHeight lockHeights heightsPerDay at *
  rw [toU64_of_nonneg (by omega) (by omega), locked] at started ⊢
  unfold u64 at started ⊢
  omega

theorem graceDaysFor_bounds (m : Mint) : graceDays ≤ m.graceDaysFor ∧ m.graceDaysFor ≤ 1095 := by
  unfold graceDaysFor graceDays goodAccountingGraceDays
  split <;> omega

theorem liquidationHeight_eq (early : m.startHeight < 2 ^ 62)
    : m.liquidationHeight = m.graceEnd + bleedDays * heightsPerDay := by
  have mature := maturityHeight_eq early
  have lock := m.lockHeights_bounds
  have grace := m.graceDaysFor_bounds
  unfold liquidationHeight graceEnd bleedDays heightsPerDay
  rw [u64_of_lt (by omega)]
  omega

-----------------------------------------------------------------------------------------
-- The fractions
-----------------------------------------------------------------------------------------

/-- The floored part of a half that the lock has earned back at a height. -/
def recoveryBonus (m : Mint) (height : Nat) : Int :=
  part (height - m.startHeight : Nat) (multScale - minEarlyEndRecovery) m.lockHeights

theorem recoveryBonus_bounds {height : Nat} (before : height < m.maturityHeight)
    : 0 ≤ m.recoveryBonus height ∧ m.recoveryBonus height < multScale - minEarlyEndRecovery := by
  have lock := m.lockHeights_bounds
  refine ⟨part_nonneg (Int.natCast_nonneg _) (by decide) (Int.natCast_nonneg _), ?_⟩
  have elapsed : height - m.startHeight < m.lockHeights := by
    rcases Nat.lt_or_ge m.startHeight height with started | early
    · have := maturityHeight_of_lt (started.trans before)
      omega
    · omega
  unfold recoveryBonus part
  rw [mul_comm]
  exact part_lt (by decide) (by omega) (by omega)

/-- Before maturity the recovery is a half and what the lock has earned back of the other. -/
theorem earlyEndRecovery_eq {height : Nat} (before : height < m.maturityHeight)
    : m.earlyEndRecovery height = minEarlyEndRecovery + m.recoveryBonus height := by
  have lock := m.lockHeights_bounds
  obtain ⟨least, most⟩ := recoveryBonus_bounds before
  unfold earlyEndRecovery
  split
  · rename_i low
    simp [Nat.sub_eq_zero_of_le low, recoveryBonus, part]
  · rename_i high
    have mature := maturityHeight_of_lt ((not_le.mp high).trans before)
    have total : u64 (m.maturityHeight + 2 ^ 64 - m.startHeight) = m.lockHeights := by
      unfold u64
      omega
    rw [total, if_neg (by omega)]
    simp only [recoveryBonus, part, multScale, minEarlyEndRecovery] at most least ⊢
    rw [i64_of_nonneg (x := ((height - m.startHeight : Nat) : Int)) (by omega) (by omega),
      i64_of_nonneg (x := (m.lockHeights : Int)) (by omega) (by omega),
      i64_of_nonneg (x := ((height - m.startHeight : Nat) : Int) * _) (by omega) (by omega),
      Int.tdiv_eq_ediv_of_nonneg (by omega)]
    exact i64_of_nonneg (by omega) (by omega)

/-- While the lock runs, at least half of the principal is recoverable, and less than all. -/
theorem earlyEndRecovery_bounds {height : Nat} (locked : m.isMature height = false)
    : minEarlyEndRecovery ≤ m.earlyEndRecovery height
      ∧ m.earlyEndRecovery height < multScale := by
  have before : height < m.maturityHeight := by simpa [isMature] using locked
  obtain ⟨least, most⟩ := recoveryBonus_bounds before
  rw [earlyEndRecovery_eq before]
  omega

theorem earlyEndRecovery_mono {height later : Nat} (order : height ≤ later)
    (before : later < m.maturityHeight)
    : m.earlyEndRecovery height ≤ m.earlyEndRecovery later := by
  have lock := m.lockHeights_bounds
  rw [earlyEndRecovery_eq (by omega), earlyEndRecovery_eq before]
  refine add_le_add le_rfl ?_
  exact part_mono (Int.natCast_nonneg _) (by decide) (by omega) (by omega) le_rfl

/-- Through the grace nothing is lost, and from the next height on something is. -/
theorem bleedRemaining_whole_iff {height : Nat}
    : m.bleedRemaining height = multScale ↔ height ≤ m.graceEnd := by
  unfold bleedRemaining graceEnd
  simp only [multScale, bleedDays, heightsPerDay]
  split_ifs <;> omega

theorem bleedRemaining_anti : Antitone m.bleedRemaining := by
  intro height later order
  unfold bleedRemaining
  simp only [multScale, bleedDays, heightsPerDay]
  split_ifs <;> omega

theorem bleedRemaining_over {height : Nat}
    (late : m.graceEnd + bleedDays * heightsPerDay ≤ height)
    : m.bleedRemaining height = 0 := by
  have past : m.maturityHeight + m.graceDaysFor * 28800 + 2592000 ≤ height := late
  unfold bleedRemaining
  simp only [bleedDays, heightsPerDay]
  split_ifs <;> omega

/-- A longer grace bleeds later. -/
theorem bleedRemaining_armed (m : Mint) (height : Nat)
    : m.bleedRemaining height ≤ m.armed.bleedRemaining height := by
  have longest : m.graceDaysFor ≤ m.armed.graceDaysFor := m.graceDaysFor_bounds.2
  have mature : m.armed.maturityHeight = m.maturityHeight := rfl
  unfold bleedRemaining
  rw [mature]
  simp only [multScale, bleedDays, heightsPerDay]
  split_ifs <;> omega

-----------------------------------------------------------------------------------------
-- The settlement
-----------------------------------------------------------------------------------------

/-- What the owner is paid, exactly. -/
def payout (m : Mint) (height : Nat) (accrued : Int) : Int :=
  if m.isMature height = false then part m.principal (m.earlyEndRecovery height) multScale
  else part (m.principal + accrued) (m.bleedRemaining height) multScale

theorem isMature_iff (height : Nat) : m.isMature height = true ↔ m.maturityHeight ≤ height := by
  simp [isMature]

theorem isMature_false (height : Nat) : m.isMature height = false ↔ height < m.maturityHeight := by
  simp [isMature]

section Settlement

variable {accrued : Int} (early : m.startHeight < 2 ^ 62) (nonneg : 0 ≤ accrued)

include nonneg in
theorem payout_bounds (height : Nat)
    : 0 ≤ m.payout height accrued ∧ m.payout height accrued ≤ m.principal + accrued := by
  have principal := m.principal_pos
  unfold payout
  split
  · rename_i locked
    obtain ⟨least, most⟩ := earlyEndRecovery_bounds locked
    have le := part_le principal.le most.le (show 0 < multScale by decide)
    exact ⟨part_nonneg principal.le (le_trans (by decide) least) (by decide), by omega⟩
  · obtain ⟨least, most⟩ := m.bleedRemaining_mem height
    exact ⟨part_nonneg (by omega) least (by decide), part_le (by omega) most (by decide)⟩

include nonneg in
/-- The settlement pays the owner's part and keeps the rest, without any overflow. -/
theorem settle_eq (word : m.principal + accrued < 2 ^ 63) (height : Nat)
    : m.settle height accrued
      = ⟨m.payout height accrued, m.principal + accrued - m.payout height accrued,
        !m.isMature height⟩ := by
  have principal := m.principal_pos
  obtain ⟨least, most⟩ := payout_bounds nonneg height
  have total : i64 (m.principal + accrued) = m.principal + accrued :=
    i64_of_nonneg (by omega) (by omega)
  unfold payout at least most
  unfold settle payout
  simp only [total]
  split
  · rename_i locked
    rw [if_pos locked] at least most
    have recovered : mulDiv m.principal (m.earlyEndRecovery height) multScale
        = some (part m.principal (m.earlyEndRecovery height) multScale) := by
      have fraction := earlyEndRecovery_bounds locked
      refine mulDiv_of_fits principal.le (le_trans (by decide) fraction.1) (by decide)
        (most.trans ?_)
      unfold maxAmount
      omega
    rw [recovered, Option.getD_some, i64_of_nonneg (by omega) (by omega), locked]
    rfl
  · rename_i mature
    rw [if_neg mature] at least most
    have kept : mulDiv (m.principal + accrued) (m.bleedRemaining height) multScale
        = some (part (m.principal + accrued) (m.bleedRemaining height) multScale) := by
      refine mulDiv_of_fits (by omega) (m.bleedRemaining_mem height).1 (by decide)
        (most.trans ?_)
      unfold maxAmount
      omega
    rw [Bool.not_eq_false] at mature
    rw [kept, Option.getD_some, i64_of_nonneg (by omega) (by omega), mature]
    rfl

include nonneg in
/-- More yield never pays less. -/
theorem payout_le {more : Int} (le : accrued ≤ more) (height : Nat)
    : m.payout height accrued ≤ m.payout height more := by
  have principal := m.principal_pos
  unfold payout
  split
  · exact le_rfl
  · exact part_mono (by omega) (m.bleedRemaining_mem height).1 (by decide) (by omega) le_rfl

include nonneg in
/-- Until the grace ends a later height never pays less: the recovery rises, at maturity it
becomes the whole, and the grace keeps it.
-/
theorem payout_mono {height later : Nat} (order : height ≤ later) (within : later ≤ m.graceEnd)
    : m.payout height accrued ≤ m.payout later accrued := by
  have principal := m.principal_pos
  rcases Nat.lt_or_ge later m.maturityHeight with locked | mature
  · unfold payout
    have before : m.isMature height = false := (isMature_false _).mpr (by omega)
    rw [if_pos before, if_pos ((isMature_false _).mpr locked)]
    exact part_mono principal.le (le_trans (by decide) (earlyEndRecovery_bounds before).1)
      (by decide) le_rfl (earlyEndRecovery_mono order locked)
  · have whole : m.payout later accrued = m.principal + accrued := by
      unfold payout
      rw [if_neg (by simp [(isMature_iff later).mpr mature]),
        bleedRemaining_whole_iff.mpr within, part_whole (by decide)]
    rw [whole]
    exact (payout_bounds nonneg height).2

include nonneg in
/-- From the end of the grace on a later height never pays more. -/
theorem payout_anti {height later : Nat} (late : m.graceEnd ≤ height) (order : height ≤ later)
    : m.payout later accrued ≤ m.payout height accrued := by
  have principal := m.principal_pos
  have mature : m.maturityHeight ≤ height := (Nat.le_add_right _ _).trans late
  unfold payout
  rw [if_neg (by simp [(isMature_iff later).mpr (mature.trans order)]),
    if_neg (by simp [(isMature_iff height).mpr mature])]
  exact part_mono (by omega) (m.bleedRemaining_mem later).1 (by decide) le_rfl
    (bleedRemaining_anti order)

include early in
theorem payout_liquidated {height : Nat} (late : m.liquidationHeight ≤ height)
    : m.payout height accrued = 0 := by
  rw [liquidationHeight_eq early] at late
  have mature : m.maturityHeight ≤ height := by
    unfold graceEnd at late
    omega
  unfold payout
  rw [if_neg (by simp [(isMature_iff height).mpr mature]), bleedRemaining_over late]
  simp [part]

include nonneg in
/-- An armed mint is never paid less. -/
theorem payout_armed (height : Nat) : m.payout height accrued ≤ m.armed.payout height accrued := by
  have principal := m.principal_pos
  have same : m.armed.isMature height = m.isMature height := rfl
  have recovery : m.armed.earlyEndRecovery height = m.earlyEndRecovery height := rfl
  have amount : m.armed.principal = m.principal := rfl
  unfold payout
  rw [same, recovery, amount]
  split
  · exact le_rfl
  · exact part_mono (by omega) (m.bleedRemaining_mem height).1 (by decide) le_rfl
      (m.bleedRemaining_armed height)

end Settlement

/-- Good Accounting may be armed exactly on a live mint without it that is mature and whole. -/
theorem canArmGoodAccounting_iff (early : m.startHeight < 2 ^ 62) (height : Nat)
    : m.canArmGoodAccounting height = true
      ↔ m.ended = false ∧ m.goodAccounting = false ∧ m.isMature height = true
        ∧ m.bleedRemaining height = multScale := by
  have mature := maturityHeight_eq early
  have lock := m.lockHeights_bounds
  have word : u64 (m.maturityHeight + goodAccountingArmDays * heightsPerDay)
      = m.maturityHeight + 2592000 := by
    unfold goodAccountingArmDays graceDays heightsPerDay
    exact u64_of_lt (by omega)
  rw [bleedRemaining_whole_iff, isMature_iff]
  unfold canArmGoodAccounting graceEnd graceDaysFor
  simp only [word]
  cases m.ended <;> cases m.goodAccounting <;> simp [graceDays, heightsPerDay]

/-- The life of a mint with a fixed yield: every settlement splits the whole, the owner's part
rises until the grace ends, falls from there on and is gone at the liquidation, Good Accounting
may be armed exactly while the mature mint is whole, and arming never costs the owner anything.
-/
theorem settle_lifecycle {accrued : Int} (early : m.startHeight < 2 ^ 62) (nonneg : 0 ≤ accrued)
    (capped : m.principal + accrued ≤ historicHardCap)
    : (∀ height,
        (m.settle height accrued).toOwner + (m.settle height accrued).toRewardPool
            = m.principal + accrued
          ∧ 0 ≤ (m.settle height accrued).toOwner ∧ 0 ≤ (m.settle height accrued).toRewardPool)
      ∧ (∀ height later, height ≤ later → later ≤ m.graceEnd →
        (m.settle height accrued).toOwner ≤ (m.settle later accrued).toOwner)
      ∧ (∀ height later, m.graceEnd ≤ height → height ≤ later →
        (m.settle later accrued).toOwner ≤ (m.settle height accrued).toOwner)
      ∧ (∀ height, m.liquidationHeight ≤ height → (m.settle height accrued).toOwner = 0)
      ∧ (∀ height, m.canArmGoodAccounting height = true
        ↔ m.ended = false ∧ m.goodAccounting = false ∧ m.isMature height = true
          ∧ m.bleedRemaining height = multScale)
      ∧ ∀ height later, m.canArmGoodAccounting height = true → height ≤ later →
        (m.settle later accrued).toOwner ≤ (m.armed.settle later accrued).toOwner := by
  have word : m.principal + accrued < 2 ^ 63 := by
    unfold historicHardCap at capped
    omega
  have paid (height : Nat) := settle_eq nonneg word height
  have armed_paid (height : Nat) : (m.armed.settle height accrued).toOwner
      = m.armed.payout height accrued :=
    congrArg Settlement.toOwner (settle_eq (m := m.armed) nonneg word height)
  simp only [paid, armed_paid]
  refine ⟨?_, ?_, ?_, ?_, canArmGoodAccounting_iff early, ?_⟩
  · intro height
    obtain ⟨least, most⟩ := payout_bounds nonneg height
    exact ⟨by omega, least, by omega⟩
  · intro height later order within
    exact payout_mono nonneg order within
  · intro height later late order
    exact payout_anti nonneg late order
  · intro height late
    exact payout_liquidated early late
  · intro _ later _ _
    exact payout_armed nonneg later

/-- A mint of one day at genesis with a yield of two. -/
theorem settle_oneDay
    : ((⟨"a", 100, 100, 0, 1, false, false, 0, 0, by decide, by decide, by decide, by decide⟩
        : Mint).settle 14400 2).toOwner
      + ((⟨"a", 100, 100, 0, 1, false, false, 0, 0, by decide, by decide, by decide, by decide⟩
        : Mint).settle 14400 2).toRewardPool = 102 :=
  ((settle_lifecycle (by decide) (by decide) (by decide)).1 14400).1

end Mint

end LasseCash.Engine
