import LasseCash.Engine.ProofOfBrain
import LasseCash.Lib.TokenBucket

/-! Vote power as a bucket: what a meter holds at a height, and what a vote takes of it. -/

namespace LasseCash.Engine

open MachineInt TokenBucket ProRata

theorem clampPower_bounds (p : Int) : 0 ≤ clampPower p ∧ clampPower p ≤ multScale := by
  unfold clampPower
  simp only [multScale]
  split_ifs <;> omega

theorem clampPower_of_nonneg {p : Int} (nonneg : 0 ≤ p) : clampPower p = min multScale p := by
  unfold clampPower
  rw [if_neg (by omega)]
  split <;> omega

theorem Window.regenHeights_bounds (w : Window)
    : 201600 ≤ w.regenHeights ∧ w.regenHeights ≤ 864000 := by
  cases w <;> decide

namespace VotePower

variable {vp next : VotePower} {w : Window} {height : Nat} {weightPct : Int}

/-- The meter holds a fraction of the whole. -/
def Within (vp : VotePower) : Prop := 0 ≤ vp.power ∧ vp.power ≤ multScale

/-- The meter as a bucket that is filled by the window's regeneration. -/
def bucket (vp : VotePower) : Bucket := ⟨vp.power, vp.lastHeight⟩

theorem newVotePower_within (height : Nat) : (newVotePower height).Within :=
  ⟨by change 0 ≤ multScale; decide, le_refl multScale⟩

/-- Whatever is stored, what can be spent is a fraction of the whole. -/
theorem current_bounds : 0 ≤ vp.current w height ∧ vp.current w height ≤ multScale := by
  unfold current
  split
  · exact clampPower_bounds _
  · exact clampPower_bounds _

/-- Below `2 ^ 36` heights nothing overflows, and the meter is its bucket. -/
theorem current_eq (within : vp.Within) (word : height < 2 ^ 36)
    : vp.current w height = vp.bucket.available multScale w.regenHeights height := by
  obtain ⟨lower, upper⟩ := within
  obtain ⟨short, long⟩ := w.regenHeights_bounds
  unfold current Bucket.available bucket
  simp only [multScale] at upper ⊢
  split
  · rename_i early
    rw [clampPower_of_nonneg lower, Nat.sub_eq_zero_of_le early]
    simp [part, multScale]
  · rename_i late
    have elapsed : height - vp.lastHeight < 2 ^ 36 := by omega
    have inflow : part (height - vp.lastHeight : Nat) 100000000 w.regenHeights < 2 ^ 62 := by
      refine Int.ediv_lt_of_lt_mul (by omega) ?_
      have scaled : (2 : Int) ^ 62 * 201600 ≤ 2 ^ 62 * w.regenHeights := by omega
      omega
    have inflow_nonneg : 0 ≤ part (height - vp.lastHeight : Nat) 100000000 w.regenHeights :=
      part_nonneg (Int.natCast_nonneg _) (by decide) (Int.natCast_nonneg _)
    rw [i64_of_nonneg (x := ((height - vp.lastHeight : Nat) : Int)) (by omega) (by omega),
      i64_of_nonneg (x := ((height - vp.lastHeight : Nat) : Int) * 100000000) (by omega)
        (by omega), Int.tdiv_eq_ediv_of_nonneg (by omega)]
    change clampPower (i64 (vp.power + part (height - vp.lastHeight : Nat) 100000000
      w.regenHeights)) = _
    rw [i64_of_nonneg (by omega) (by omega), clampPower_of_nonneg (by omega)]
    rfl

/-- A vote takes its cost of what can be spent, and reads the meter anew. -/
theorem spend_eq_some (spent : vp.spend w height weightPct = some next)
    : 0 < voteCost weightPct ∧ voteCost weightPct ≤ vp.current w height
      ∧ next = ⟨vp.current w height - voteCost weightPct, height⟩ := by
  unfold spend at spent
  dsimp only at spent
  split at spent
  · cases spent
  · exact ⟨by omega, by omega, (Option.some.inj spent).symm⟩

theorem spend_within (spent : vp.spend w height weightPct = some next) : next.Within := by
  obtain ⟨costs, covered, rfl⟩ := spend_eq_some spent
  have upper : vp.current w height ≤ multScale := current_bounds.2
  exact ⟨sub_nonneg.mpr covered, by simp only; omega⟩

end VotePower

end LasseCash.Engine
