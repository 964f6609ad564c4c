import LasseCash.Engine.Emission
import Mathlib.Algebra.BigOperators.Intervals
import Mathlib.Data.Int.ConditionallyCompleteOrder
import Mathlib.Logic.Function.Iterate

/-! What any valid emission schedule issues: the closed form of `TotalEmittedAt` is the sum of the
rewards of the single heights, it only grows, it stays within the cap, and no step of its
arithmetic leaves the machine word.
-/

namespace LasseCash.Engine

open MachineInt

namespace EmissionSchedule

variable {sc : EmissionSchedule}

/-- A valid schedule whose numbers are words: the cap and the divisor by their type, the length of
an era because the source converts it to one.
-/
structure Sound (sc : EmissionSchedule) : Prop where
  valid : sc.valid = true
  capWord : sc.cap ≤ maxAmount
  divisorWord : sc.reduceDen ≤ maxAmount
  eraWord : sc.eraHeights ≤ maxAmount

/-- The era a height is paid by: era `n` is the heights after the first `n` eras, up to and with
the last height of its own.
-/
def eraOf (sc : EmissionSchedule) (height : Nat) : Nat :=
  (height - sc.genesisHeight - 1) / sc.eraHeights

/-- The issuance of the first `n` eras. -/
def erasIssued (sc : EmissionSchedule) : Nat → Int
  | 0 => 0
  | n + 1 => sc.erasIssued n + sc.rewardPerHeight n * sc.eraHeights

/-- One round of the reduction loop, exactly. -/
def nextBudget (sc : EmissionSchedule) (b : Int) : Int :=
  b * sc.reduceNum / sc.reduceDen

-----------------------------------------------------------------------------------------
-- Budgets
-----------------------------------------------------------------------------------------

theorem Sound.eraHeights_pos (sound : sc.Sound) : 0 < sc.eraHeights := by
  have := sound.valid
  simp only [EmissionSchedule.valid, Bool.and_eq_true, decide_eq_true_eq] at this
  omega

theorem Sound.cap_pos (sound : sc.Sound) : 0 < sc.cap := by
  have := sound.valid
  simp only [EmissionSchedule.valid, Bool.and_eq_true, decide_eq_true_eq] at this
  omega

/-- The reduction is a proper fraction. -/
theorem Sound.fraction (sound : sc.Sound) : 0 < sc.reduceNum ∧ sc.reduceNum < sc.reduceDen := by
  have := sound.valid
  simp only [EmissionSchedule.valid, Bool.and_eq_true, decide_eq_true_eq] at this
  omega

theorem Sound.divisor_pos (sound : sc.Sound) : 0 < sc.reduceDen :=
  sound.fraction.1.trans sound.fraction.2

/-- A reduced budget is no larger, by the fraction being proper. -/
theorem Sound.nextBudget_bounds (sound : sc.Sound) {b : Int} (lower : 0 ≤ b)
    : 0 ≤ sc.nextBudget b ∧ sc.nextBudget b ≤ b := by
  obtain ⟨num, lt⟩ := sound.fraction
  refine ⟨Int.ediv_nonneg (mul_nonneg lower num.le) sound.divisor_pos.le, ?_⟩
  exact Int.ediv_le_of_le_mul sound.divisor_pos (mul_le_mul_of_nonneg_left lt.le lower)

/-- The reduction of a word is never refused. -/
theorem Sound.mulDiv_next (sound : sc.Sound) {b : Int} (lower : 0 ≤ b) (upper : b ≤ maxAmount)
    : mulDiv b sc.reduceNum sc.reduceDen = some (sc.nextBudget b) := by
  have fits := (sound.nextBudget_bounds lower).2.trans upper
  exact mulDiv_of_fits lower sound.fraction.1.le sound.divisor_pos fits

/-- The reduction loop iterates its round, by induction on the rounds; its early exit at zero
changes nothing, as zero reduces to zero.
-/
theorem Sound.reduceBudget_eq (sound : sc.Sound) (n : Nat) {b : Int} (lower : 0 ≤ b)
    (upper : b ≤ maxAmount)
    : sc.reduceBudget n b = sc.nextBudget^[n] b := by
  induction n generalizing b with
  | zero => rfl
  | succ n ih =>
      unfold EmissionSchedule.reduceBudget
      obtain ⟨next_nonneg, next_le⟩ := sound.nextBudget_bounds lower
      rw [sound.mulDiv_next lower upper, Function.iterate_succ_apply,
        ← ih next_nonneg (next_le.trans upper)]
      split
      · rename_i empty
        subst empty
        have still : sc.nextBudget 0 = 0 := by simp [nextBudget]
        rw [still]
        cases n <;> simp [EmissionSchedule.reduceBudget]
      · rfl

/-- The budget of the first era is the cap's share, and fits. -/
theorem Sound.firstBudget_bounds (sound : sc.Sound)
    : 0 ≤ sc.cap * (sc.reduceDen - sc.reduceNum) / sc.reduceDen
      ∧ sc.cap * (sc.reduceDen - sc.reduceNum) / sc.reduceDen ≤ sc.cap := by
  obtain ⟨num, lt⟩ := sound.fraction
  have cap := sound.cap_pos.le
  refine ⟨Int.ediv_nonneg (mul_nonneg cap (by omega)) sound.divisor_pos.le, ?_⟩
  exact Int.ediv_le_of_le_mul sound.divisor_pos (mul_le_mul_of_nonneg_left (by omega) cap)

/-- The first multiply-divide of `EraBudget` is never refused, and its difference is a word. -/
theorem Sound.mulDiv_first (sound : sc.Sound)
    : mulDiv sc.cap (i64 (sc.reduceDen - sc.reduceNum)) sc.reduceDen
      = some (sc.cap * (sc.reduceDen - sc.reduceNum) / sc.reduceDen) := by
  obtain ⟨num, lt⟩ := sound.fraction
  have word := sound.divisorWord
  simp only [maxAmount] at word
  rw [i64_of_nonneg (by omega) (by omega)]
  exact mulDiv_of_fits sound.cap_pos.le (by omega) sound.divisor_pos
    (sound.firstBudget_bounds.2.trans sound.capWord)

theorem Sound.eraBudget_eq (sound : sc.Sound) (n : Nat)
    : sc.eraBudget n
      = sc.nextBudget^[n] (sc.cap * (sc.reduceDen - sc.reduceNum) / sc.reduceDen) := by
  unfold EmissionSchedule.eraBudget
  rw [sound.mulDiv_first]
  exact sound.reduceBudget_eq n sound.firstBudget_bounds.1
    (sound.firstBudget_bounds.2.trans sound.capWord)

theorem Sound.eraBudget_zero (sound : sc.Sound)
    : sc.eraBudget 0 = sc.cap * (sc.reduceDen - sc.reduceNum) / sc.reduceDen :=
  sound.eraBudget_eq 0

theorem Sound.eraBudget_succ (sound : sc.Sound) (n : Nat)
    : sc.eraBudget (n + 1) = sc.nextBudget (sc.eraBudget n) := by
  rw [sound.eraBudget_eq, sound.eraBudget_eq, Function.iterate_succ_apply']

/-- Every budget is an amount within the cap, by induction on the era. -/
theorem Sound.eraBudget_bounds (sound : sc.Sound) (n : Nat)
    : 0 ≤ sc.eraBudget n ∧ sc.eraBudget n ≤ sc.cap := by
  induction n with
  | zero =>
      rw [sound.eraBudget_zero]
      exact sound.firstBudget_bounds
  | succ n ih =>
      obtain ⟨next_nonneg, next_le⟩ := sound.nextBudget_bounds ih.1
      rw [sound.eraBudget_succ]
      exact ⟨next_nonneg, next_le.trans ih.2⟩

theorem Sound.eraBudget_antitone (sound : sc.Sound) : Antitone sc.eraBudget := by
  refine antitone_nat_of_succ_le fun n => ?_
  rw [sound.eraBudget_succ]
  exact (sound.nextBudget_bounds (sound.eraBudget_bounds n).1).2

-----------------------------------------------------------------------------------------
-- Rewards
-----------------------------------------------------------------------------------------

/-- The reward of a height is the floored share of its era's budget. -/
theorem Sound.rewardPerHeight_eq (sound : sc.Sound) (n : Nat)
    : sc.rewardPerHeight n = sc.eraBudget n / sc.eraHeights := by
  have word := sound.eraWord
  simp only [maxAmount] at word
  unfold EmissionSchedule.rewardPerHeight
  rw [if_neg sound.eraHeights_pos.ne', i64_of_nonneg (by omega) (by omega)]
  exact Int.tdiv_eq_ediv_of_nonneg (sound.eraBudget_bounds n).1

theorem Sound.rewardPerHeight_nonneg (sound : sc.Sound) (n : Nat)
    : 0 ≤ sc.rewardPerHeight n := by
  rw [sound.rewardPerHeight_eq]
  exact Int.ediv_nonneg (sound.eraBudget_bounds n).1 (Int.natCast_nonneg _)

theorem Sound.rewardPerHeight_antitone (sound : sc.Sound) : Antitone sc.rewardPerHeight := by
  intro m n le
  rw [sound.rewardPerHeight_eq, sound.rewardPerHeight_eq]
  exact Int.ediv_le_ediv (by exact_mod_cast sound.eraHeights_pos) (sound.eraBudget_antitone le)

/-- An era issues no more than its budget, as the reward floors. -/
theorem Sound.era_le_budget (sound : sc.Sound) (n : Nat)
    : sc.rewardPerHeight n * sc.eraHeights ≤ sc.eraBudget n := by
  rw [sound.rewardPerHeight_eq]
  exact Int.ediv_mul_le _ (by exact_mod_cast sound.eraHeights_pos.ne')

/-- A part of an era issues no more than its budget either. -/
theorem Sound.part_bounds (sound : sc.Sound) (n : Nat) {part : Nat} (within : part ≤ sc.eraHeights)
    : 0 ≤ sc.rewardPerHeight n * part ∧ sc.rewardPerHeight n * part ≤ sc.eraBudget n := by
  have reward := sound.rewardPerHeight_nonneg n
  refine ⟨mul_nonneg reward (Int.natCast_nonneg _), ?_⟩
  exact (mul_le_mul_of_nonneg_left (by exact_mod_cast within) reward).trans
    (sound.era_le_budget n)

-----------------------------------------------------------------------------------------
-- The closed form
-----------------------------------------------------------------------------------------

/-- What the first eras issued stays below the cap by as much as the next budget still covers; by
induction, as the floored geometric series never gives back more than it takes.
-/
theorem Sound.erasIssued_reserve (sound : sc.Sound) (n : Nat)
    : sc.erasIssued n * (sc.reduceDen - sc.reduceNum) + sc.eraBudget n * sc.reduceDen
      ≤ sc.cap * (sc.reduceDen - sc.reduceNum) := by
  obtain ⟨num, lt⟩ := sound.fraction
  induction n with
  | zero =>
      rw [sound.eraBudget_zero, erasIssued, zero_mul, zero_add]
      exact Int.ediv_mul_le _ sound.divisor_pos.ne'
  | succ n ih =>
      have gap : 0 ≤ sc.reduceDen - sc.reduceNum := by omega
      have issued := mul_le_mul_of_nonneg_right (sound.era_le_budget n) gap
      have reduced : sc.nextBudget (sc.eraBudget n) * sc.reduceDen
          ≤ sc.eraBudget n * sc.reduceNum :=
        Int.ediv_mul_le _ sound.divisor_pos.ne'
      rw [sound.eraBudget_succ, erasIssued]
      calc
        (sc.erasIssued n + sc.rewardPerHeight n * sc.eraHeights) * (sc.reduceDen - sc.reduceNum)
            + sc.nextBudget (sc.eraBudget n) * sc.reduceDen
          ≤ sc.erasIssued n * (sc.reduceDen - sc.reduceNum)
            + sc.eraBudget n * (sc.reduceDen - sc.reduceNum)
            + sc.eraBudget n * sc.reduceNum := by
              rw [add_mul]
              exact add_le_add (by linarith only [issued]) reduced
        _ = sc.erasIssued n * (sc.reduceDen - sc.reduceNum)
            + sc.eraBudget n * sc.reduceDen := by ring
        _ ≤ sc.cap * (sc.reduceDen - sc.reduceNum) := ih

/-- The first eras and the whole budget of the next together stay within the cap. -/
theorem Sound.erasIssued_add_budget (sound : sc.Sound) (n : Nat)
    : sc.erasIssued n + sc.eraBudget n ≤ sc.cap := by
  obtain ⟨num, lt⟩ := sound.fraction
  have reserve := sound.erasIssued_reserve n
  have covered : sc.eraBudget n * (sc.reduceDen - sc.reduceNum)
      ≤ sc.eraBudget n * sc.reduceDen :=
    mul_le_mul_of_nonneg_left (by omega) (sound.eraBudget_bounds n).1
  refine le_of_mul_le_mul_right (a := sc.reduceDen - sc.reduceNum) ?_ (by omega)
  rw [add_mul]
  linarith only [reserve, covered]

theorem Sound.erasIssued_nonneg (sound : sc.Sound) (n : Nat) : 0 ≤ sc.erasIssued n := by
  induction n with
  | zero => exact le_rfl
  | succ n ih => exact add_nonneg ih (sound.part_bounds n le_rfl).1

/-- The first eras and any part of the next are an amount within the cap. -/
theorem Sound.part_of_cap (sound : sc.Sound) (n : Nat) {part : Nat}
    (within : part ≤ sc.eraHeights)
    : 0 ≤ sc.erasIssued n + sc.rewardPerHeight n * part
      ∧ sc.erasIssued n + sc.rewardPerHeight n * part ≤ sc.cap := by
  obtain ⟨part_nonneg, part_le⟩ := sound.part_bounds n within
  exact ⟨add_nonneg (sound.erasIssued_nonneg n) part_nonneg,
    (add_le_add le_rfl part_le).trans (sound.erasIssued_add_budget n)⟩

/-- The product of a reward and a part of an era is a word, and the checked sum is exact. -/
theorem Sound.addAmount_part (sound : sc.Sound) (n : Nat) {part : Nat}
    (within : part ≤ sc.eraHeights)
    : i64 (sc.rewardPerHeight n * i64 part) = sc.rewardPerHeight n * part
      ∧ addAmount (sc.erasIssued n) (sc.rewardPerHeight n * part)
        = some (sc.erasIssued n + sc.rewardPerHeight n * part) := by
  have word := sound.eraWord
  have cap := sound.capWord
  obtain ⟨part_nonneg, part_le⟩ := sound.part_bounds n within
  have budget := (sound.eraBudget_bounds n).2
  have total := (sound.part_of_cap n within).2
  simp only [maxAmount] at word cap
  refine ⟨?_, addAmount_of_fits (sound.erasIssued_nonneg n) part_nonneg (by omega)⟩
  rw [i64_of_nonneg (x := (part : Int)) (by omega) (by omega)]
  exact i64_of_nonneg part_nonneg (by omega)

/-- Once an era has no reward no later one has, so nothing more is issued. -/
theorem Sound.erasIssued_ended (sound : sc.Sound) {n : Nat} (ended : sc.rewardPerHeight n = 0)
    (k : Nat)
    : sc.erasIssued (n + k) = sc.erasIssued n := by
  induction k with
  | zero => rfl
  | succ k ih =>
      have later := sound.rewardPerHeight_antitone (Nat.le_add_right n k)
      have gone : sc.rewardPerHeight (n + k) = 0 :=
        le_antisymm (ended ▸ later) (sound.rewardPerHeight_nonneg _)
      rw [← Nat.add_assoc, erasIssued, ih, gone, zero_mul, add_zero]

/-- The full-era loop returns what the eras issued, and returns early only where none of the rest
has a reward. By induction on the eras to go.
-/
theorem Sound.fullEras_eq (sound : sc.Sound) (togo n : Nat)
    : (sc.fullEras togo n (sc.erasIssued n)).1 = sc.erasIssued (n + togo)
      ∧ ((sc.fullEras togo n (sc.erasIssued n)).2 = true
        → sc.rewardPerHeight (n + togo) = 0) := by
  induction togo generalizing n with
  | zero => simp [EmissionSchedule.fullEras]
  | succ togo ih =>
      unfold EmissionSchedule.fullEras
      simp only
      by_cases ended : sc.rewardPerHeight n = 0
      · have later := sound.rewardPerHeight_antitone (Nat.le_add_right n (togo + 1))
        rw [if_pos ended]
        exact ⟨(sound.erasIssued_ended ended _).symm,
          fun _ => le_antisymm (ended ▸ later) (sound.rewardPerHeight_nonneg _)⟩
      · obtain ⟨word, sum⟩ := sound.addAmount_part n le_rfl
        rw [if_neg ended, word, sum, show n + (togo + 1) = n + 1 + togo by omega]
        exact ih (n + 1)

/-- The closed form: whole eras, and the part of the one that is under way. -/
theorem Sound.totalEmittedAt_eq (sound : sc.Sound) (elapsed : Nat)
    : sc.totalEmittedAt (sc.genesisHeight + elapsed)
      = sc.erasIssued (elapsed / sc.eraHeights)
        + sc.rewardPerHeight (elapsed / sc.eraHeights) * (elapsed % sc.eraHeights : Nat) := by
  unfold EmissionSchedule.totalEmittedAt
  rw [Nat.add_sub_cancel_left]
  rcases Nat.eq_zero_or_pos elapsed with rfl | pos
  · rw [if_pos (.inl (by omega)), Nat.zero_div, Nat.zero_mod]
    simp [erasIssued]
  rw [if_neg (by simp [sound.valid]; omega)]
  obtain ⟨sum, stopped⟩ := sound.fullEras_eq (elapsed / sc.eraHeights) 0
  simp only [Nat.zero_add, erasIssued] at sum stopped
  cases loop : sc.fullEras (elapsed / sc.eraHeights) 0 0 with
  | mk total flag =>
    rw [loop] at sum stopped
    simp only at sum stopped
    subst sum
    cases flag with
    | true => simp only [loop, stopped rfl, zero_mul, add_zero]
    | false =>
        simp only [loop]
        have within := (Nat.mod_lt elapsed sound.eraHeights_pos).le
        obtain ⟨word, added⟩ := sound.addAmount_part (elapsed / sc.eraHeights) within
        split
        · rw [word, added, Option.getD_some]
        · rename_i idle
          have reward := sound.rewardPerHeight_nonneg (elapsed / sc.eraHeights)
          rcases reward.eq_or_lt with none | some
          · rw [← none, zero_mul, add_zero]
          · have whole : elapsed % sc.eraHeights = 0 := by omega
            rw [whole, Nat.cast_zero, mul_zero, add_zero]

-----------------------------------------------------------------------------------------
-- The heights one by one
-----------------------------------------------------------------------------------------

/-- The quotient and the remainder of the next number: the remainder grows within a block and
starts over in the next.
-/
theorem div_mod_next {block : Nat} (pos : 0 < block) (k : Nat)
    : ((k + 1) / block = k / block ∧ (k + 1) % block = k % block + 1)
      ∨ ((k + 1) / block = k / block + 1 ∧ (k + 1) % block = 0 ∧ k % block + 1 = block) := by
  have split := Nat.div_add_mod k block
  rcases Nat.lt_or_ge (k % block + 1) block with inside | last
  · exact .inl ((Nat.div_mod_unique pos).mpr ⟨by omega, inside⟩)
  · have full : k % block + 1 = block := by
      have := Nat.mod_lt k pos
      omega
    have next : 0 + block * (k / block + 1) = k + 1 := by
      rw [Nat.mul_add]
      omega
    have unique := (Nat.div_mod_unique (a := k + 1) pos).mpr ⟨next, pos⟩
    exact .inr ⟨unique.1, unique.2, full⟩

/-- One more height issues the reward of its era. -/
theorem Sound.totalEmittedAt_succ (sound : sc.Sound) {height : Nat}
    (started : sc.genesisHeight ≤ height)
    : sc.totalEmittedAt (height + 1)
      = sc.totalEmittedAt height + sc.rewardPerHeight (sc.eraOf (height + 1)) := by
  obtain ⟨k, rfl⟩ := Nat.exists_eq_add_of_le started
  have era : sc.eraOf (sc.genesisHeight + k + 1) = k / sc.eraHeights := by
    unfold eraOf
    congr 1
    omega
  rw [Nat.add_assoc, sound.totalEmittedAt_eq, sound.totalEmittedAt_eq, ← Nat.add_assoc, era]
  rcases div_mod_next sound.eraHeights_pos k with ⟨same, onward⟩ | ⟨next, fresh, full⟩
  · rw [same, onward]
    push_cast
    ring
  · rw [next, fresh, erasIssued]
    have span : (sc.eraHeights : Int) = (k % sc.eraHeights : Nat) + 1 := by
      exact_mod_cast full.symm
    rw [span]
    push_cast
    ring

theorem totalEmittedAt_early {height : Nat} (early : height ≤ sc.genesisHeight)
    : sc.totalEmittedAt height = 0 := by
  unfold EmissionSchedule.totalEmittedAt
  rw [if_pos (.inl early)]

/-- The closed form is the sum over the heights, by induction on the height. -/
theorem Sound.totalEmittedAt_sum (sound : sc.Sound) (height : Nat)
    : sc.totalEmittedAt height
      = ∑ k ∈ Finset.Ioc sc.genesisHeight height, sc.rewardPerHeight (sc.eraOf k) := by
  rcases Nat.le_total height sc.genesisHeight with early | started
  · rw [Finset.Ioc_eq_empty (by omega), Finset.sum_empty]
    exact totalEmittedAt_early early
  · induction height, started using Nat.le_induction with
    | base =>
        rw [Finset.Ioc_self, Finset.sum_empty]
        exact totalEmittedAt_early le_rfl
    | succ height started ih =>
        rw [Finset.sum_Ioc_succ_top started, sound.totalEmittedAt_succ started, ih]

theorem Sound.totalEmittedAt_mono (sound : sc.Sound) : Monotone sc.totalEmittedAt := by
  refine monotone_nat_of_le_succ fun height => ?_
  rcases Nat.lt_or_ge height sc.genesisHeight with early | started
  · rw [totalEmittedAt_early early.le, totalEmittedAt_early early]
  · rw [sound.totalEmittedAt_succ started]
    exact le_add_of_nonneg_right (sound.rewardPerHeight_nonneg _)

theorem Sound.totalEmittedAt_bounds (sound : sc.Sound) (height : Nat)
    : 0 ≤ sc.totalEmittedAt height ∧ sc.totalEmittedAt height ≤ sc.cap := by
  rcases Nat.le_total height sc.genesisHeight with early | started
  · rw [totalEmittedAt_early early]
    exact ⟨le_rfl, sound.cap_pos.le⟩
  · obtain ⟨k, rfl⟩ := Nat.exists_eq_add_of_le started
    rw [sound.totalEmittedAt_eq]
    exact sound.part_of_cap _ (Nat.mod_lt k sound.eraHeights_pos).le

/-- The difference of two totals never wraps. -/
theorem Sound.difference_word (sound : sc.Sound) {start stop : Nat} (le : start ≤ stop)
    : i64 (sc.totalEmittedAt stop - sc.totalEmittedAt start)
      = sc.totalEmittedAt stop - sc.totalEmittedAt start := by
  have grows := sound.totalEmittedAt_mono le
  have lower := (sound.totalEmittedAt_bounds start).1
  have upper := (sound.totalEmittedAt_bounds stop).2
  have cap := sound.capWord
  simp only [maxAmount] at cap
  exact i64_of_nonneg (by omega) (by omega)

theorem Sound.emissionBetween_eq (sound : sc.Sound) {start stop : Nat} (le : start ≤ stop)
    : sc.emissionBetween start stop = sc.totalEmittedAt stop - sc.totalEmittedAt start := by
  unfold EmissionSchedule.emissionBetween
  split
  · rw [show stop = start by omega, sub_self]
  · exact sound.difference_word le

/-- The arithmetic of a schedule stays within its words: the difference of the fraction, both
multiply-divides of the budgets, the product of a reward and the heights of an era or of a part of
it, the checked sums of the total, and the difference of two totals.
-/
structure Exact (sc : EmissionSchedule) : Prop where
  difference : i64 (sc.reduceDen - sc.reduceNum) = sc.reduceDen - sc.reduceNum
  firstBudget : mulDiv sc.cap (i64 (sc.reduceDen - sc.reduceNum)) sc.reduceDen
    = some (sc.eraBudget 0)
  nextBudget : ∀ n, mulDiv (sc.eraBudget n) sc.reduceNum sc.reduceDen
    = some (sc.eraBudget (n + 1))
  product : ∀ n part : Nat, part ≤ sc.eraHeights →
    i64 (sc.rewardPerHeight n * i64 part) = sc.rewardPerHeight n * part
  sum : ∀ n part : Nat, part ≤ sc.eraHeights →
    addAmount (sc.erasIssued n) (sc.rewardPerHeight n * part)
      = some (sc.erasIssued n + sc.rewardPerHeight n * part)
  between : ∀ start stop, start ≤ stop →
    i64 (sc.totalEmittedAt stop - sc.totalEmittedAt start)
      = sc.totalEmittedAt stop - sc.totalEmittedAt start

theorem Sound.exact (sound : sc.Sound) : sc.Exact where
  difference := by
    obtain ⟨num, lt⟩ := sound.fraction
    have word := sound.divisorWord
    simp only [maxAmount] at word
    exact i64_of_nonneg (by omega) (by omega)
  firstBudget := by
    rw [sound.eraBudget_zero]
    exact sound.mulDiv_first
  nextBudget := by
    intro n
    obtain ⟨lower, upper⟩ := sound.eraBudget_bounds n
    rw [sound.eraBudget_succ]
    exact sound.mulDiv_next lower (upper.trans sound.capWord)
  product := fun n _ within => (sound.addAmount_part n within).1
  sum := fun n _ within => (sound.addAmount_part n within).2
  between := fun _ _ le => sound.difference_word le

/-- The emission schedule: exact arithmetic, a total that is the sum of the single heights, only
grows and stays within the cap, and differences that are never negative and add up.
-/
theorem totalEmittedAt_schedule (sound : sc.Sound)
    : sc.Exact
      ∧ (∀ height, sc.totalEmittedAt height
        = ∑ k ∈ Finset.Ioc sc.genesisHeight height, sc.rewardPerHeight (sc.eraOf k))
      ∧ (∀ height, sc.totalEmittedAt height ≤ sc.cap)
      ∧ ∀ a b c, a ≤ b → b ≤ c →
        sc.totalEmittedAt a ≤ sc.totalEmittedAt b
        ∧ 0 ≤ sc.emissionBetween a b
        ∧ sc.emissionBetween a b + sc.emissionBetween b c = sc.emissionBetween a c := by
  refine ⟨sound.exact, sound.totalEmittedAt_sum,
    fun height => (sound.totalEmittedAt_bounds height).2, ?_⟩
  intro a b c ab bc
  have grows := sound.totalEmittedAt_mono ab
  rw [sound.emissionBetween_eq ab, sound.emissionBetween_eq bc,
    sound.emissionBetween_eq (ab.trans bc)]
  exact ⟨grows, sub_nonneg.mpr grows, by ring⟩

/-- A schedule of three-height eras, each with two thirds of the budget before it. -/
theorem totalEmittedAt_thirds
    : (⟨5, 3, 100, 2, 3⟩ : EmissionSchedule).totalEmittedAt 11
      = ∑ k ∈ Finset.Ioc 5 11, (⟨5, 3, 100, 2, 3⟩ : EmissionSchedule).rewardPerHeight
        ((⟨5, 3, 100, 2, 3⟩ : EmissionSchedule).eraOf k) := by
  have sound : (⟨5, 3, 100, 2, 3⟩ : EmissionSchedule).Sound :=
    ⟨by decide, by decide, by decide, by decide⟩
  exact (totalEmittedAt_schedule sound).2.1 11

/-- `EraAt` names the era that pays a height, except at the last height of every era, where it
already names the next.
-/
theorem eraAt_eq (pos : 0 < sc.eraHeights) {height : Nat} (started : sc.genesisHeight < height)
    : sc.eraAt height
      = some (sc.eraOf height
        + if (height - sc.genesisHeight) % sc.eraHeights = 0 then 1 else 0) := by
  obtain ⟨k, rfl⟩ := Nat.exists_eq_add_of_lt started
  have elapsed : sc.genesisHeight + k + 1 - sc.genesisHeight = k + 1 := by omega
  unfold eraAt eraOf
  rw [if_neg (by omega), elapsed, Nat.add_sub_cancel]
  rcases div_mod_next pos k with ⟨same, onward⟩ | ⟨next, fresh, _⟩
  · rw [same, onward, if_neg (by omega), Nat.add_zero]
  · rw [next, fresh, if_pos rfl]

end EmissionSchedule

end LasseCash.Engine
