import LasseCash.Engine.LShare
import LasseCash.Lib.ProRata
import Mathlib.Data.Int.ConditionallyCompleteOrder

/-! How many shares a mint is granted, compared with other mints: more principal or more days never
give fewer, a higher share rate never gives more, and nothing is gained by splitting a mint.
-/

namespace LasseCash.Engine

open MachineInt ProRata

-----------------------------------------------------------------------------------------
-- The multipliers
-----------------------------------------------------------------------------------------

theorem durationMultiplier_mono : Monotone durationMultiplier := by
  intro days longer le
  unfold durationMultiplier
  simp only [multScale, minMintDays, maxMintDays, maxDurationBonus]
  split_ifs <;> omega

/-- Between its bounds the volume multiplier is the exact interpolation. -/
theorem volumeMultiplier_between (p : MintParams) {principal : Int}
    (above : p.volumeStart < principal) (below : principal < p.volumeEnd)
    : volumeMultiplier principal p.volumeStart p.volumeEnd
      = multScale
        + part (principal - p.volumeStart) maxVolumeBonus (p.volumeEnd - p.volumeStart) := by
  have lower := p.start_nonneg
  have upper := p.end_lt
  have bonus_le : part (principal - p.volumeStart) maxVolumeBonus (p.volumeEnd - p.volumeStart)
      ≤ part (p.volumeEnd - p.volumeStart) maxVolumeBonus (p.volumeEnd - p.volumeStart) :=
    part_mono (by omega) (by decide) (by omega) (by omega) le_rfl
  have bonus_nonneg := part_nonneg (show 0 ≤ principal - p.volumeStart by omega)
    (show 0 ≤ maxVolumeBonus by decide) (show 0 ≤ p.volumeEnd - p.volumeStart by omega)
  have whole : part (p.volumeEnd - p.volumeStart) maxVolumeBonus (p.volumeEnd - p.volumeStart)
      = maxVolumeBonus :=
    Int.mul_ediv_cancel_left _ (by omega)
  rw [whole] at bonus_le
  simp only [maxVolumeBonus, multScale] at bonus_le bonus_nonneg ⊢
  have quotient : mulDiv (principal - p.volumeStart) (100000000 / 2)
      (p.volumeEnd - p.volumeStart)
      = some (part (principal - p.volumeStart) (100000000 / 2) (p.volumeEnd - p.volumeStart)) :=
    mulDiv_of_fits (by omega) (by decide) (by omega) (bonus_le.trans (by decide))
  unfold volumeMultiplier
  rw [if_neg (by omega), if_neg (by omega), if_neg (by omega),
    i64_of_nonneg (x := principal - p.volumeStart) (by omega) (by omega),
    i64_of_nonneg (x := p.volumeEnd - p.volumeStart) (by omega) (by omega)]
  simp only [maxVolumeBonus, multScale, quotient]
  exact i64_of_nonneg (by omega) (by omega)

theorem MintParams.volume_bounds (p : MintParams) (principal : Int)
    : multScale ≤ volumeMultiplier principal p.volumeStart p.volumeEnd
      ∧ volumeMultiplier principal p.volumeStart p.volumeEnd ≤ 150000000 :=
  volumeMultiplier_bounds p.start_nonneg p.end_lt

/-- The volume multiplier grows with the principal: at the ends of the ramp by its bounds, on the
ramp as a floored fraction.
-/
theorem MintParams.volume_mono (p : MintParams)
    : Monotone fun principal => volumeMultiplier principal p.volumeStart p.volumeEnd := by
  intro principal more le
  simp only
  obtain ⟨least, _⟩ := p.volume_bounds more
  obtain ⟨_, most⟩ := p.volume_bounds principal
  rcases Int.lt_or_le p.volumeStart p.volumeEnd with ramp | flat
  swap
  · unfold volumeMultiplier
    rw [if_pos flat, if_pos flat]
  rcases Int.lt_or_le p.volumeStart principal with above | low
  swap
  · have first : volumeMultiplier principal p.volumeStart p.volumeEnd = multScale := by
      unfold volumeMultiplier
      rw [if_neg (not_le.mpr ramp), if_pos low]
    rw [first]
    exact least
  rcases Int.lt_or_le more p.volumeEnd with below | high
  swap
  · have last : volumeMultiplier more p.volumeStart p.volumeEnd = 150000000 := by
      unfold volumeMultiplier
      rw [if_neg (not_le.mpr ramp), if_neg (by omega), if_pos high]
      rfl
    rw [last]
    exact most
  · rw [volumeMultiplier_between p above (by omega),
      volumeMultiplier_between p (by omega) below]
    refine add_le_add le_rfl ?_
    exact part_mono (by omega) (by decide) (by omega) (by omega) le_rfl

-----------------------------------------------------------------------------------------
-- The grant
-----------------------------------------------------------------------------------------

/-- What a principal buys before the multipliers. -/
def baseShares (principal : Int) (p : MintParams) : Int := part principal shareUnit p.shareRate

/-- The base with the bonus of the duration. -/
def durationShares (principal days : Int) (p : MintParams) : Int :=
  part (baseShares principal p) (durationMultiplier days) multScale

/-- The shares of a mint, exactly. -/
def grantedShares (principal days : Int) (p : MintParams) : Int :=
  part (durationShares principal days p)
    (volumeMultiplier principal p.volumeStart p.volumeEnd) multScale

variable {principal days : Int} {p : MintParams}

theorem MintParams.rate_pos (p : MintParams) : 0 < p.shareRate :=
  lt_of_lt_of_le (by decide) p.rate_ge

theorem durationMultiplier_nonneg (days : Int) : 0 ≤ durationMultiplier days :=
  le_trans (by decide) (durationMultiplier_bounds days).1

theorem MintParams.volume_nonneg (p : MintParams) (principal : Int)
    : 0 ≤ volumeMultiplier principal p.volumeStart p.volumeEnd :=
  le_trans (by decide) (p.volume_bounds principal).1

theorem baseShares_bounds (p : MintParams) (nonneg : 0 ≤ principal)
    : 0 ≤ baseShares principal p ∧ baseShares principal p ≤ principal :=
  ⟨part_nonneg nonneg (by decide) p.rate_pos.le, part_le nonneg p.rate_ge p.rate_pos⟩

theorem durationShares_bounds (days : Int) (p : MintParams) (nonneg : 0 ≤ principal)
    : baseShares principal p ≤ durationShares principal days p
      ∧ 2 * durationShares principal days p ≤ 3 * baseShares principal p := by
  obtain ⟨least, most⟩ := durationMultiplier_bounds days
  have base := (baseShares_bounds p nonneg).1
  refine ⟨le_part base least (by decide), ?_⟩
  have top : part (baseShares principal p) (durationMultiplier days) multScale
      ≤ part (baseShares principal p) 150000000 multScale :=
    part_mono base (durationMultiplier_nonneg days) (by decide) le_rfl most
  unfold durationShares
  simp only [part, multScale] at top ⊢
  omega

/-- Both multipliers only add, and together make at most nine quarters of the base. -/
theorem grantedShares_bounds (days : Int) (p : MintParams) (nonneg : 0 ≤ principal)
    : baseShares principal p ≤ grantedShares principal days p
      ∧ 4 * grantedShares principal days p ≤ 9 * baseShares principal p := by
  obtain ⟨least, most⟩ := p.volume_bounds principal
  obtain ⟨more, bonus⟩ := durationShares_bounds days p nonneg
  have base := (baseShares_bounds p nonneg).1
  have held : 0 ≤ durationShares principal days p := base.trans more
  refine ⟨more.trans (le_part held least (by decide)), ?_⟩
  have top : part (durationShares principal days p)
      (volumeMultiplier principal p.volumeStart p.volumeEnd) multScale
      ≤ part (durationShares principal days p) 150000000 multScale :=
    part_mono held (p.volume_nonneg principal) (by decide) le_rfl most
  unfold grantedShares
  simp only [part, multScale] at top ⊢
  omega

/-- The three multiply-divides of a mint within the hard cap are never refused. -/
theorem computeShares_eq (positive : 0 < principal) (capped : principal ≤ historicHardCap)
    (lock : minMintDays ≤ days ∧ days ≤ maxMintDays)
    : computeShares principal days p = some (grantedShares principal days p) := by
  obtain ⟨base, base_le⟩ := baseShares_bounds p positive.le
  obtain ⟨more, bonus⟩ := durationShares_bounds days p positive.le
  obtain ⟨_, granted⟩ := grantedShares_bounds days p positive.le
  simp only [historicHardCap] at capped
  have first : mulDiv principal shareUnit p.shareRate = some (baseShares principal p) :=
    mulDiv_of_fits positive.le (by decide) p.rate_pos (by
      change baseShares principal p ≤ maxAmount
      unfold maxAmount
      omega)
  have second : mulDiv (baseShares principal p) (durationMultiplier days) multScale
      = some (durationShares principal days p) :=
    mulDiv_of_fits base (durationMultiplier_nonneg days) (by decide) (by
      change durationShares principal days p ≤ maxAmount
      unfold maxAmount
      omega)
  have third : mulDiv (durationShares principal days p)
      (volumeMultiplier principal p.volumeStart p.volumeEnd) multScale
      = some (grantedShares principal days p) :=
    mulDiv_of_fits (base.trans more) (p.volume_nonneg principal) (by decide) (by
      change grantedShares principal days p ≤ maxAmount
      unfold maxAmount
      omega)
  unfold computeShares
  rw [if_neg (by omega), if_neg (not_le.mpr p.rate_pos)]
  simp only [first, second, third, Option.bind_eq_bind, Option.bind_some]

theorem grantedShares_mono_principal {more : Int} (nonneg : 0 ≤ principal) (le : principal ≤ more)
    : grantedShares principal days p ≤ grantedShares more days p := by
  have base := (baseShares_bounds p nonneg).1
  have held := base.trans (durationShares_bounds days p nonneg).1
  have bases : baseShares principal p ≤ baseShares more p :=
    part_mono nonneg (by decide) p.rate_pos le le_rfl
  have durations : durationShares principal days p ≤ durationShares more days p :=
    part_mono base (durationMultiplier_nonneg days) (by decide) bases le_rfl
  exact part_mono held (p.volume_nonneg principal) (by decide) durations (p.volume_mono le)

theorem grantedShares_mono_days {longer : Int} (nonneg : 0 ≤ principal) (le : days ≤ longer)
    : grantedShares principal days p ≤ grantedShares principal longer p := by
  have base := (baseShares_bounds p nonneg).1
  have held := base.trans (durationShares_bounds days p nonneg).1
  have durations : durationShares principal days p ≤ durationShares principal longer p :=
    part_mono base (durationMultiplier_nonneg days) (by decide) le_rfl
      (durationMultiplier_mono le)
  exact part_mono held (p.volume_nonneg principal) (by decide) durations le_rfl

/-- A higher rate, at the same bounds of the ramp. -/
theorem grantedShares_anti_rate {q : MintParams} (nonneg : 0 ≤ principal)
    (start : q.volumeStart = p.volumeStart) (ending : q.volumeEnd = p.volumeEnd)
    (dearer : p.shareRate ≤ q.shareRate)
    : grantedShares principal days q ≤ grantedShares principal days p := by
  have base := (baseShares_bounds q nonneg).1
  have held := base.trans (durationShares_bounds days q nonneg).1
  have bases : baseShares principal q ≤ baseShares principal p :=
    part_anti nonneg (by decide) p.rate_pos dearer
  have durations : durationShares principal days q ≤ durationShares principal days p :=
    part_mono base (durationMultiplier_nonneg days) (by decide) bases le_rfl
  refine part_mono held (q.volume_nonneg principal) (by decide) durations ?_
  rw [start, ending]

/-- Two mints get no more than one of their principals together: every floor is superadditive, and
the volume bonus of the whole is at least that of each part.
-/
theorem grantedShares_split {first second : Int} (first_nonneg : 0 ≤ first)
    (second_nonneg : 0 ≤ second)
    : grantedShares first days p + grantedShares second days p
      ≤ grantedShares (first + second) days p := by
  have first_base := (baseShares_bounds p first_nonneg).1
  have second_base := (baseShares_bounds p second_nonneg).1
  have first_held := first_base.trans (durationShares_bounds days p first_nonneg).1
  have second_held :=
    second_base.trans (durationShares_bounds days p second_nonneg).1
  have bases : baseShares first p + baseShares second p ≤ baseShares (first + second) p :=
    part_add_le first second p.rate_pos
  have durations : durationShares first days p + durationShares second days p
      ≤ durationShares (first + second) days p :=
    (part_add_le _ _ (by decide)).trans (part_mono (add_nonneg first_base second_base)
      (durationMultiplier_nonneg days) (by decide) bases le_rfl)
  have volume := p.volume_nonneg (first + second)
  calc
    grantedShares first days p + grantedShares second days p
      ≤ part (durationShares first days p)
          (volumeMultiplier (first + second) p.volumeStart p.volumeEnd) multScale
        + part (durationShares second days p)
          (volumeMultiplier (first + second) p.volumeStart p.volumeEnd) multScale := by
        refine add_le_add ?_ ?_
        · exact part_mono first_held (p.volume_nonneg first) (by decide) le_rfl
            (p.volume_mono (by omega))
        · exact part_mono second_held (p.volume_nonneg second) (by decide) le_rfl
            (p.volume_mono (by omega))
    _ ≤ part (durationShares first days p + durationShares second days p)
          (volumeMultiplier (first + second) p.volumeStart p.volumeEnd) multScale :=
        part_add_le _ _ (by decide)
    _ ≤ grantedShares (first + second) days p :=
        part_mono (add_nonneg first_held second_held) volume (by decide) durations le_rfl

/-- The grant of a mint is fair: it is returned, it lies between the base and nine quarters of it,
it grows with the principal and the days, it shrinks as the rate grows, and two mints of the same
terms get no more than one of both principals.
-/
theorem computeShares_fair (positive : 0 < principal) (capped : principal ≤ historicHardCap)
    (lock : minMintDays ≤ days ∧ days ≤ maxMintDays)
    : ∃ shares, computeShares principal days p = some shares
      ∧ principal * shareUnit / p.shareRate ≤ shares
      ∧ 4 * shares ≤ 9 * (principal * shareUnit / p.shareRate)
      ∧ (∀ more, principal ≤ more → more ≤ historicHardCap →
        ∃ granted, computeShares more days p = some granted ∧ shares ≤ granted)
      ∧ (∀ longer, days ≤ longer → longer ≤ maxMintDays →
        ∃ granted, computeShares principal longer p = some granted ∧ shares ≤ granted)
      ∧ (∀ q : MintParams, q.volumeStart = p.volumeStart → q.volumeEnd = p.volumeEnd →
        p.shareRate ≤ q.shareRate →
        ∃ granted, computeShares principal days q = some granted ∧ granted ≤ shares)
      ∧ ∀ first second, 0 < first → 0 < second → first + second = principal →
        ∃ left right, computeShares first days p = some left
          ∧ computeShares second days p = some right ∧ left + right ≤ shares := by
  obtain ⟨least, most⟩ := grantedShares_bounds days p positive.le
  refine ⟨_, computeShares_eq positive capped lock, least, most, ?_, ?_, ?_, ?_⟩
  · intro more le within
    exact ⟨_, computeShares_eq (positive.trans_le le) within lock,
      grantedShares_mono_principal positive.le le⟩
  · intro longer le within
    exact ⟨_, computeShares_eq positive capped ⟨lock.1.trans le, within⟩,
      grantedShares_mono_days positive.le le⟩
  · intro q start ending dearer
    exact ⟨_, computeShares_eq positive capped lock,
      grantedShares_anti_rate positive.le start ending dearer⟩
  · intro first second first_pos second_pos together
    refine ⟨_, _, computeShares_eq first_pos (by omega) lock,
      computeShares_eq second_pos (by omega) lock, ?_⟩
    exact together ▸ grantedShares_split first_pos.le second_pos.le

/-- Half the longest lock at a tenth above the first rate, with the volume ramp upside down. -/
theorem computeShares_upside_down
    : ∃ shares, computeShares 700000001 547 ⟨90, 10, 110000000, by decide, by decide, by decide⟩
      = some shares :=
  (computeShares_fair (by decide) (by decide) (by decide)).imp fun _ fair => fair.1

end LasseCash.Engine
