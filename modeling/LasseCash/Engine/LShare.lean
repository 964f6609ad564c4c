import LasseCash.Engine.Emission

/-! L-Share minting and the mint lifecycle of `engine/lshare.go`. -/

namespace LasseCash.Engine

open MachineInt

/-- Fixed-point scale of multipliers and fractions: `1.0` is `multScale`. -/
def multScale : Int := 100000000

def shareUnit : Int := 100000000

def minMintDays : Int := 1

def maxMintDays : Int := 1095

def maxDurationBonus : Int := multScale / 2

def maxVolumeBonus : Int := multScale / 2

def shareRateRatchetPct : Int := 7

def graceDays : Nat := 90

def bleedDays : Nat := 90

def goodAccountingArmDays : Nat := graceDays

def goodAccountingGraceDays : Nat := 1095

def minEarlyEndRecovery : Int := multScale / 2

/-- The cost of one whole L-Share at migration: one LASSECASH. -/
def genesisShareRate : Int := 100000000

/-- The compounding loop of `ShareRate`: the flag is `true` where the source returns from
inside the loop because a step overflowed or fell.
-/
def compoundYears : Nat → Int → Int × Bool
  | 0, rate => (rate, false)
  | years + 1, rate =>
      match mulDiv rate (100 + shareRateRatchetPct) 100 with
      | none => (rate, true)
      | some next => if next < rate then (rate, true) else compoundYears years next

/-- The cost in base units of one whole L-Share at `height`: seven percent a year, whole
years compounding and the current year interpolated.
-/
def shareRate (genesisHeight height : Nat) : Int :=
  if height ≤ genesisHeight then genesisShareRate
  else
    let elapsed := height - genesisHeight
    let years := elapsed / heightsPerYear
    let frac := elapsed % heightsPerYear
    match compoundYears years genesisShareRate with
    | (rate, true) => rate
    | (rate, false) =>
        if frac > 0 then
          match mulDiv rate (i64 (shareRateRatchetPct * i64 frac)) (100 * heightsPerYear) with
          | none => rate
          | some bump => (addAmount rate bump).getD rate
        else rate

/-- A compounded rate stays a word and never falls below the rate it starts from, by
induction on the years.
-/
theorem compoundYears_bounds {rate : Int} (years : Nat) (lower : 0 ≤ rate) (upper : rate < 2 ^ 63)
    : rate ≤ (compoundYears years rate).1 ∧ (compoundYears years rate).1 < 2 ^ 63 := by
  induction years generalizing rate with
  | zero => exact ⟨le_rfl, upper⟩
  | succ years ih =>
      unfold compoundYears
      split
      · exact ⟨le_rfl, upper⟩
      · rename_i next raised
        split
        · exact ⟨le_rfl, upper⟩
        · have risen : rate ≤ next := not_lt.mp ‹_›
          have fits := (mulDiv_eq_some lower (by decide) (by decide) raised).2
          simp only [maxAmount] at fits
          obtain ⟨low, high⟩ := ih (lower.trans risen) (by omega)
          exact ⟨risen.trans low, high⟩

/-- A checked sum of non-negative words is at least its left operand. -/
theorem le_addAmount_getD {a b : Int} (ha : 0 ≤ a) (hb : 0 ≤ b) (ua : a < 2 ^ 63)
    (ub : b < 2 ^ 63)
    : a ≤ (addAmount a b).getD a := by
  cases h : addAmount a b with
  | none => exact le_rfl
  | some s =>
      have := (addAmount_eq_some ha hb ua ub h).1
      simp only [Option.getD_some]
      omega

/-- The share rate only ever ratchets upward from the one of genesis: the compounding
keeps it, and the current year's bump is not negative.
-/
theorem shareRate_ge (genesisHeight height : Nat)
    : genesisShareRate ≤ shareRate genesisHeight height := by
  unfold shareRate
  split
  · exact le_rfl
  dsimp only
  have years := compoundYears_bounds ((height - genesisHeight) / heightsPerYear)
    (show 0 ≤ genesisShareRate by decide) (by decide)
  split
  · rename_i rate stopped
    rw [stopped] at years
    exact years.1
  rename_i rate compounded
  rw [compounded] at years
  split
  swap
  · exact years.1
  split
  · exact years.1
  rename_i bump raised
  have frac : (height - genesisHeight) % heightsPerYear < 10512000 := Nat.mod_lt _ (by decide)
  rw [i64_of_nonneg (x := ((height - genesisHeight) % heightsPerYear : Nat)) (by omega)
    (by omega)] at raised
  rw [i64_of_nonneg (by simp only [shareRateRatchetPct]; omega)
    (by simp only [shareRateRatchetPct]; omega)] at raised
  have low : 0 ≤ rate := le_trans (by decide) years.1
  obtain ⟨value, fits⟩ := mulDiv_eq_some low (by simp only [shareRateRatchetPct]; omega)
    (by decide) raised
  have bump_nonneg : 0 ≤ bump := by
    rw [value]
    exact Int.ediv_nonneg (mul_nonneg low (by simp only [shareRateRatchetPct]; omega)) (by decide)
  simp only [maxAmount] at fits
  exact years.1.trans (le_addAmount_getD low bump_nonneg years.2 (by omega))

/-- Longer Pays Better: `1.0` at one day up to `1.5` at three years, linear between. -/
def durationMultiplier (days : Int) : Int :=
  if days ≤ minMintDays then multScale
  else if days ≥ maxMintDays then multScale + maxDurationBonus
  else multScale + (days - minMintDays) * maxDurationBonus / (maxMintDays - minMintDays)

/-- Bigger Pays Better between two governed amounts. -/
def volumeMultiplier (principal start «end» : Int) : Int :=
  if «end» ≤ start then multScale
  else if principal ≤ start then multScale
  else if principal ≥ «end» then multScale + maxVolumeBonus
  else
    match mulDiv (i64 (principal - start)) maxVolumeBonus (i64 («end» - start)) with
    | none => multScale
    | some bonus => i64 (multScale + bonus)

/-- The duration bonus lies between nothing and a half. -/
theorem durationMultiplier_bounds (days : Int)
    : multScale ≤ durationMultiplier days ∧ durationMultiplier days ≤ 150000000 := by
  unfold durationMultiplier multScale maxDurationBonus minMintDays maxMintDays multScale
  split
  · omega
  · split <;> omega

/-- The volume bonus lies between nothing and a half, when the ramp is one of words that
starts at a non-negative amount.
-/
theorem volumeMultiplier_bounds {principal start «end» : Int} (lower : 0 ≤ start)
    (upper : «end» < 2 ^ 63)
    : multScale ≤ volumeMultiplier principal start «end»
      ∧ volumeMultiplier principal start «end» ≤ 150000000 := by
  unfold volumeMultiplier
  split
  · simp [multScale]
  split
  · simp [multScale]
  split
  · simp [multScale, maxVolumeBonus]
  have ramp : i64 («end» - start) = «end» - start := i64_of_nonneg (by omega) (by omega)
  have above : i64 (principal - start) = principal - start := i64_of_nonneg (by omega) (by omega)
  rw [ramp, above]
  split
  · simp [multScale]
  · rename_i bonus paid
    have value := (mulDiv_eq_some (by omega) (by decide) (by omega) paid).1
    have low : 0 ≤ bonus := by
      rw [value]
      exact Int.ediv_nonneg (mul_nonneg (by omega) (by decide)) (by omega)
    have high : bonus ≤ maxVolumeBonus := by
      rw [value]
      refine Int.ediv_le_of_le_mul (by omega) ?_
      rw [mul_comm]
      exact mul_le_mul_of_nonneg_left (by omega) (by decide)
    simp only [multScale, maxVolumeBonus] at high ⊢
    rw [i64_of_nonneg (by omega) (by omega)]
    omega

/-- The governed inputs captured when a mint is created: the ramp of the registry's bounds
and a share rate that never fell below the one of genesis.
-/
structure MintParams where
  volumeStart : Int
  volumeEnd : Int
  shareRate : Int
  start_nonneg : 0 ≤ volumeStart
  end_lt : volumeEnd < 2 ^ 63
  rate_ge : genesisShareRate ≤ shareRate

/-- `(principal / shareRate) * duration * volume`, every step flooring. -/
def computeShares (principal days : Int) (p : MintParams) : Option Int :=
  if principal ≤ 0 ∨ days < minMintDays ∨ days > maxMintDays then none
  else if p.shareRate ≤ 0 then none
  else do
    let base ← mulDiv principal shareUnit p.shareRate
    let withDuration ← mulDiv base (durationMultiplier days) multScale
    mulDiv withDuration (volumeMultiplier principal p.volumeStart p.volumeEnd) multScale

/-- Shares are granted for a positive principal and an allowed duration only, and both
bonuses together give at most nine quarters of the principal.
-/
theorem computeShares_bounds {principal days shares : Int} {p : MintParams}
    (granted : computeShares principal days p = some shares)
    : 0 < principal ∧ (minMintDays ≤ days ∧ days ≤ maxMintDays) ∧ 4 * shares ≤ 9 * principal := by
  unfold computeShares at granted
  split at granted
  · cases granted
  rename_i args
  push Not at args
  split at granted
  · cases granted
  simp only [Option.bind_eq_bind, Option.bind_eq_some_iff] at granted
  obtain ⟨base, hbase, withDuration, hduration, hvolume⟩ := granted
  have rate := p.rate_ge
  have duration := durationMultiplier_bounds days
  have volume : multScale ≤ volumeMultiplier principal p.volumeStart p.volumeEnd
      ∧ volumeMultiplier principal p.volumeStart p.volumeEnd ≤ 150000000 :=
    volumeMultiplier_bounds p.start_nonneg p.end_lt
  simp only [genesisShareRate, multScale] at rate duration volume
  obtain ⟨base_nonneg, base_le⟩ :=
    mulDiv_le_self (by omega) (by decide) (by omega) (by simp only [shareUnit]; omega) hbase
  have hw := (mulDiv_eq_some base_nonneg (by omega) (by decide) hduration).1
  have w_nonneg : 0 ≤ withDuration := by
    rw [hw]
    exact Int.ediv_nonneg (mul_nonneg base_nonneg (by omega)) (by decide)
  have hs := (mulDiv_eq_some w_nonneg (by omega) (by decide) hvolume).1
  have w_le : 2 * withDuration ≤ 3 * base := by
    have := Int.ediv_mul_le (base * durationMultiplier days) (by decide : multScale ≠ 0)
    rw [← hw] at this
    have := mul_le_mul_of_nonneg_left duration.2 base_nonneg
    simp only [multScale] at *
    omega
  have s_le : 2 * shares ≤ 3 * withDuration := by
    have := Int.ediv_mul_le (withDuration * volumeMultiplier principal p.volumeStart p.volumeEnd)
      (by decide : multScale ≠ 0)
    rw [← hs] at this
    have := mul_le_mul_of_nonneg_left volume.2 w_nonneg
    simp only [multScale] at *
    omega
  exact ⟨by omega, ⟨by omega, by omega⟩, by omega⟩

/-- A time-lock position. Shares are computed once, at creation, and every position that is
ever created satisfies the bounds it carries.
-/
structure Mint where
  owner : String
  principal : Int
  shares : Int
  startHeight : Nat
  days : Int
  goodAccounting : Bool := false
  ended : Bool := false
  accStart : Int := 0
  expChunk : Nat := 0
  principal_pos : 0 < principal
  shares_pos : 0 < shares
  shares_le : 4 * shares ≤ 9 * principal
  days_mem : minMintDays ≤ days ∧ days ≤ maxMintDays
  deriving DecidableEq

/-- A new position; the caller has debited the principal. -/
def newMint (owner : String) (principal days : Int) (height : Nat) (p : MintParams)
    : Option Mint :=
  match granted : computeShares principal days p with
  | none => none
  | some shares =>
      if none_left : shares ≤ 0 then none
      else
        some {
          owner, principal, shares, startHeight := height, days
          principal_pos := (computeShares_bounds granted).1
          shares_pos := not_le.mp none_left
          shares_le := (computeShares_bounds granted).2.2
          days_mem := (computeShares_bounds granted).2.1 }

/-- The lock, in days, of a mint that carries migrated stake. -/
def migrationMintDays : Nat := 30

/-- Legacy stake becomes L-Shares one to one, with no multiplier and no share rate. -/
def newMigrationMint (owner : String) (staked : Int) (height : Nat) : Option Mint :=
  if nothing : staked ≤ 0 then none
  else
    some {
      owner, principal := staked, shares := staked, startHeight := height
      days := migrationMintDays
      principal_pos := not_le.mp nothing
      shares_pos := not_le.mp nothing
      shares_le := by omega
      days_mem := by decide }

namespace Mint

variable (m : Mint)

/-- The height at which the lock completes. -/
def maturityHeight : Nat := u64 (m.startHeight + u64 (toU64 m.days * heightsPerDay))

def isMature (height : Nat) : Bool := height ≥ m.maturityHeight

/-- Good Accounting may be armed from maturity until the bleed would start, inclusive. -/
def canArmGoodAccounting (height : Nat) : Bool :=
  if m.ended || m.goodAccounting then false
  else
    let mat := m.maturityHeight
    height ≥ mat && height ≤ u64 (mat + goodAccountingArmDays * heightsPerDay)

/-- The recoverable fraction of the principal on an early end: half at creation, rising
linearly to all of it at maturity.
-/
def earlyEndRecovery (height : Nat) : Int :=
  if height ≤ m.startHeight then minEarlyEndRecovery
  else
    -- a `uint64` difference: it wraps where the maturity height itself wrapped
    let total := u64 (m.maturityHeight + 2 ^ 64 - m.startHeight)
    if total = 0 ∨ height ≥ m.maturityHeight then multScale
    else
      let elapsed := height - m.startHeight
      i64 (minEarlyEndRecovery
        + (i64 (i64 elapsed * (multScale - minEarlyEndRecovery))).tdiv (i64 total))

/-- Good Accounting does not disable the bleed, it extends the grace before it. -/
def graceDaysFor : Nat := if m.goodAccounting then goodAccountingGraceDays else graceDays

/-- The fraction of the value that survives the bleed after maturity and grace. -/
def bleedRemaining (height : Nat) : Int :=
  let mat := m.maturityHeight
  if height ≤ mat then multScale
  else
    let past := height - mat
    let graceEnd := m.graceDaysFor * heightsPerDay
    if past ≤ graceEnd then multScale
    else
      let bleedSpan := bleedDays * heightsPerDay
      let into := past - graceEnd
      if into ≥ bleedSpan then 0
      else ((bleedSpan - into : Nat) : Int) * multScale / bleedSpan

/-- The height at which nothing of the position is left. -/
def liquidationHeight : Nat :=
  u64 (m.maturityHeight + (m.graceDaysFor + bleedDays) * heightsPerDay)

/-- What survives the bleed is a fraction of the whole. -/
theorem bleedRemaining_mem (height : Nat)
    : 0 ≤ m.bleedRemaining height ∧ m.bleedRemaining height ≤ multScale := by
  unfold bleedRemaining
  simp only [multScale, bleedDays, heightsPerDay]
  split_ifs <;> omega

end Mint

/-- The outcome of closing a position. -/
structure Settlement where
  toOwner : Int
  toRewardPool : Int
  early : Bool
  deriving DecidableEq

/-- What a position pays when it is closed at `height` with `accrued` yield. -/
def Mint.settle (m : Mint) (height : Nat) (accrued : Int) : Settlement :=
  let total := i64 (m.principal + accrued)
  if m.isMature height = false then
    let recovered := (mulDiv m.principal (m.earlyEndRecovery height) multScale).getD 0
    { toOwner := recovered, toRewardPool := i64 (total - recovered), early := true }
  else
    let kept := (mulDiv total (m.bleedRemaining height) multScale).getD 0
    { toOwner := kept, toRewardPool := i64 (total - kept), early := false }

/-- A mature position without yield pays its owner a part of the principal. -/
theorem Mint.settle_part {m : Mint} {height : Nat} (mature : m.isMature height = true)
    (word : m.principal < 2 ^ 63)
    : 0 ≤ (m.settle height 0).toOwner ∧ (m.settle height 0).toOwner ≤ m.principal := by
  obtain ⟨nonneg, le⟩ := m.bleedRemaining_mem height
  have positive := m.principal_pos
  have whole : i64 (m.principal + 0) = m.principal := by
    rw [add_zero, i64_of_nonneg positive.le word]
  simp only [settle, mature, Bool.true_eq_false, if_false, whole]
  cases kept : mulDiv m.principal (m.bleedRemaining height) multScale with
  | none => exact ⟨le_rfl, positive.le⟩
  | some kept =>
      rw [Option.getD_some]
      exact mulDiv_le_self positive.le nonneg (by decide) le ‹_›

end LasseCash.Engine
