import LasseCash.Engine.Units
import LasseCash.Lib.DoubleWord

/-! `MulDiv` of `engine/units.go`, instruction by instruction on pairs of words: it never traps, and
what it returns is the exact quotient, truncated toward zero.
-/

namespace LasseCash.Engine

open DoubleWord MachineInt

-----------------------------------------------------------------------------------------
-- The source
-----------------------------------------------------------------------------------------

/-- `MulDiv` with its instructions: the outer `none` is a trap, the inner one `ok = false`. -/
def mulDivRun (a num den : Int) : Option (Option Int) :=
  if den = 0 then some none
  else
    match absU64 a with
    | none => some none
    | some x =>
        let neg := decide (a < 0)
        match absU64 num with
        | none => some none
        | some n =>
            let neg := if num < 0 then !neg else neg
            match absU64 den with
            | none => some none
            | some d =>
                let neg := if den < 0 then !neg else neg
                let (hi, lo) := mul64 x n
                if hi ≥ d then some none
                else
                  (div64 hi lo d).map fun (q, _) =>
                    if (q : Int) > maxAmount then none
                    else
                      let r := i64 q
                      some (if neg then i64 (-r) else r)

-----------------------------------------------------------------------------------------
-- Magnitude and sign
-----------------------------------------------------------------------------------------

/-- The sign of a quotient is that of an odd number of negative operands. -/
def signed (neg : Bool) (q : Nat) : Int := if neg then -q else q

/-- Whether an odd number of the operands is negative. -/
def odd (a num den : Int) : Bool :=
  (decide (a < 0)).xor ((decide (num < 0)).xor (decide (den < 0)))

theorem absU64_eq {v : Int} (magnitude : v ≠ -2 ^ 63) : absU64 v = some v.natAbs :=
  if_neg magnitude

/-- A signed number is its sign and its magnitude. -/
theorem signed_natAbs (v : Int) : v = signed (decide (v < 0)) v.natAbs := by
  unfold signed
  by_cases negative : v < 0
  · rw [decide_eq_true negative, if_pos rfl]
    omega
  · rw [decide_eq_false negative, if_neg Bool.false_ne_true]
    omega

/-- Division truncated toward zero divides the magnitudes; by cases on the three signs. -/
theorem tdiv_signed (a num den : Int)
    : (a * num).tdiv den = signed (odd a num den) (a.natAbs * num.natAbs / den.natAbs) := by
  have whole (x n d : Nat) : ((x : Int) * n).tdiv d = ((x * n / d : Nat) : Int) := by
    rw [← Int.natCast_mul, Int.natCast_tdiv_eq_ediv, Int.natCast_ediv]
  have ofA := signed_natAbs a
  have ofNum := signed_natAbs num
  have ofDen := signed_natAbs den
  unfold odd
  generalize decide (a < 0) = s at *
  generalize decide (num < 0) = t at *
  generalize decide (den < 0) = u at *
  generalize a.natAbs = x at *
  generalize num.natAbs = n at *
  generalize den.natAbs = d at *
  subst ofA ofNum ofDen
  unfold signed
  cases s <;> cases t <;> cases u <;>
    simp only [Bool.xor_false, Bool.xor_true, Bool.not_true, Bool.not_false, Bool.false_eq_true,
      if_true, if_false, Int.neg_mul, Int.mul_neg, Int.neg_tdiv, Int.tdiv_neg, Int.neg_neg, whole]

-----------------------------------------------------------------------------------------
-- The exact quotient
-----------------------------------------------------------------------------------------

/-- The operands that have a quotient: the divisor is not zero, each has a magnitude, and the
magnitude of the quotient is an amount.
-/
def Divides (a num den : Int) : Prop :=
  den ≠ 0 ∧ a ≠ -2 ^ 63 ∧ num ≠ -2 ^ 63 ∧ den ≠ -2 ^ 63 ∧ |a * num| / |den| ≤ maxAmount

instance (a num den : Int) : Decidable (Divides a num den) := inferInstanceAs (Decidable (_ ∧ _))

/-- The magnitude of the quotient, in natural numbers. -/
theorem natAbs_div_le_iff (a num den : Int)
    : |a * num| / |den| ≤ maxAmount
      ↔ ((a.natAbs * num.natAbs / den.natAbs : Nat) : Int) ≤ maxAmount := by
  rw [Int.abs_eq_natAbs, Int.abs_eq_natAbs, Int.natAbs_mul, ← Int.natCast_ediv]

/-- The instructions never trap, and end in what `mulDiv` returns: the guard on the high word is the
one on the quotient, and a magnitude that is an amount does not wrap.
-/
theorem mulDivRun_eq (a num den : Int) : mulDivRun a num den = some (mulDiv a num den) := by
  unfold mulDivRun mulDiv
  by_cases zero : den = 0
  · rw [if_pos zero, if_pos zero]
  rw [if_neg zero, if_neg zero]
  cases absU64 a with
  | none => rfl
  | some x =>
  cases absU64 num with
  | none => rfl
  | some n =>
  cases absU64 den with
  | none => rfl
  | some d =>
      have sign : (if den < 0 then !(if num < 0 then !decide (a < 0) else decide (a < 0))
          else if num < 0 then !decide (a < 0) else decide (a < 0)) = odd a num den := by
        unfold odd
        by_cases negative : num < 0 <;> by_cases below : den < 0 <;> simp [negative, below]
      dsimp only
      rw [sign]
      unfold odd
      by_cases high : (mul64 x n).1 ≥ d
      · have guard : x * n / 2 ^ 64 ≥ d := high
        rw [if_pos high, if_pos guard]
      have guard : ¬x * n / 2 ^ 64 ≥ d := high
      rw [if_neg high, if_neg guard, div64_mul64 (not_le.mp high), Option.map_some]
      dsimp only
      by_cases large : ((x * n / d : Nat) : Int) > maxAmount
      · rw [if_pos large, if_pos large]
      · rw [if_neg large, if_neg large]
        generalize x * n / d = q at large
        unfold maxAmount at large
        rw [i64_of_nonneg (Int.natCast_nonneg q) (by omega), i64_of_mem ⟨by omega, by omega⟩]

/-- What `mulDiv` returns is the quotient truncated toward zero, wherever there is one. -/
theorem mulDiv_eq (a num den : Int)
    : mulDiv a num den = if Divides a num den then some ((a * num).tdiv den) else none := by
  have refused (not : ¬Divides a num den)
      : none = if Divides a num den then some ((a * num).tdiv den) else none := by
    rw [if_neg not]
  unfold mulDiv
  by_cases zero : den = 0
  · rw [if_pos zero]
    exact refused fun h => h.1 zero
  rw [if_neg zero]
  by_cases leastA : a = -2 ^ 63
  · rw [absU64, if_pos leastA]
    exact refused fun h => h.2.1 leastA
  by_cases leastNum : num = -2 ^ 63
  · rw [absU64_eq leastA, absU64, if_pos leastNum]
    exact refused fun h => h.2.2.1 leastNum
  by_cases leastDen : den = -2 ^ 63
  · rw [absU64_eq leastA, absU64_eq leastNum, absU64, if_pos leastDen]
    exact refused fun h => h.2.2.2.1 leastDen
  rw [absU64_eq leastA, absU64_eq leastNum, absU64_eq leastDen]
  have positive : 0 < den.natAbs := Int.natAbs_pos.mpr zero
  have fits_iff := natAbs_div_le_iff a num den
  dsimp only
  by_cases high : a.natAbs * num.natAbs / 2 ^ 64 ≥ den.natAbs
  · rw [if_pos high]
    refine refused fun h => ?_
    have amount := fits_iff.mp h.2.2.2.2
    unfold maxAmount at amount
    have low : (mul64 a.natAbs num.natAbs).1 < den.natAbs := mul64_lt_of_div_lt positive (by omega)
    exact absurd low (not_lt.mpr high)
  rw [if_neg high]
  by_cases large : ((a.natAbs * num.natAbs / den.natAbs : Nat) : Int) > maxAmount
  · rw [if_pos large]
    exact refused fun h => absurd (fits_iff.mp h.2.2.2.2) (not_le.mpr large)
  · have divides : Divides a num den :=
      ⟨zero, leastA, leastNum, leastDen, fits_iff.mpr (not_lt.mp large)⟩
    rw [if_neg large, if_pos divides, tdiv_signed]
    rfl

/-- On all words, and beyond: no instruction traps, and the result is there exactly if the divisor is
not zero, no operand is the least word and the magnitude of the quotient is an amount; it is then the
exact quotient, truncated toward zero.
-/
theorem mulDiv_exact (a num den : Int)
    : mulDivRun a num den = some (mulDiv a num den)
      ∧ ((mulDiv a num den).isSome
        ↔ den ≠ 0 ∧ a ≠ -2 ^ 63 ∧ num ≠ -2 ^ 63 ∧ den ≠ -2 ^ 63 ∧ |a * num| / |den| ≤ maxAmount)
      ∧ ∀ q, mulDiv a num den = some q → q = (a * num).tdiv den := by
  refine ⟨mulDivRun_eq a num den, ?_, ?_⟩
  · rw [mulDiv_eq]
    by_cases divides : Divides a num den
    · rw [if_pos divides]
      exact iff_of_true rfl divides
    · rw [if_neg divides]
      exact iff_of_false nofun divides
  · intro q found
    rw [mulDiv_eq] at found
    split at found
    · exact (Option.some.inj found).symm
    · cases found

end LasseCash.Engine
