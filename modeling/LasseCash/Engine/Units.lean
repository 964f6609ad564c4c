import LasseCash.Lib.MachineInt

/-! Base units, checked addition and the 128-bit multiply-divide of `engine/units.go`.
The source's `Amount` and `Shares` are `int64`. Here they are integers, and every unchecked
operation of the source on them is wrapped by `i64`.
-/

namespace LasseCash.Engine

open MachineInt

/-- The number of base units in one LASSECASH. -/
def unit : Int := 100000000

/-- The largest representable amount. -/
def maxAmount : Int := 2 ^ 63 - 1

/-- Whole tokens in base units; the source calls it on constants only. -/
def lc (whole : Int) : Int := whole * unit

/-- Checked addition: `none` where the operands share a sign and the wrapped sum does not. -/
def addAmount (a b : Int) : Option Int :=
  let s := i64 (a + b)
  if (a > 0 ∧ b > 0 ∧ s < 0) ∨ (a < 0 ∧ b < 0 ∧ s ≥ 0) then none else some s

/-- The magnitude of an `int64`; the least value has no positive counterpart. -/
def absU64 (v : Int) : Option Nat :=
  if v = -2 ^ 63 then none else some v.natAbs

/-- `a * num / den` on a 128-bit intermediate, truncated toward zero. `none` on a zero
divisor, on an operand without a magnitude, and when the quotient exceeds `maxAmount`;
the guard `hi >= d` is the one that keeps the 128-by-64 division from trapping.
-/
def mulDiv (a num den : Int) : Option Int :=
  if den = 0 then none
  else
    match absU64 a, absU64 num, absU64 den with
    | some x, some n, some d =>
        let neg := (decide (a < 0)).xor ((decide (num < 0)).xor (decide (den < 0)))
        if x * n / 2 ^ 64 ≥ d then none
        else
          let q := x * n / d
          if (q : Int) > maxAmount then none
          else some (if neg then -(q : Int) else q)
    | _, _, _ => none

/-- On non-negative words a sum that fits is returned. -/
theorem addAmount_of_fits {a b : Int} (ha : 0 ≤ a) (hb : 0 ≤ b) (fits : a + b < 2 ^ 63)
    : addAmount a b = some (a + b) := by
  have hs : i64 (a + b) = a + b := i64_of_nonneg (by omega) fits
  simp only [addAmount, hs]
  rw [if_neg (by omega)]

/-- On non-negative words a checked sum is exact and fits, by cases on the overflow test. -/
theorem addAmount_eq_some {a b s : Int} (ha : 0 ≤ a) (hb : 0 ≤ b)
    (ua : a < 2 ^ 63) (ub : b < 2 ^ 63) (h : addAmount a b = some s)
    : s = a + b ∧ a + b < 2 ^ 63 := by
  unfold addAmount i64 at h
  simp only at h
  split at h
  · cases h
  · have := Option.some.inj h
    omega

/-- A non-negative multiply-divide that returns is the floor of the exact quotient,
bounded by `maxAmount`.
-/
theorem mulDiv_eq_some {a num den q : Int} (ha : 0 ≤ a) (hn : 0 ≤ num) (hd : 0 < den)
    (h : mulDiv a num den = some q)
    : q = a * num / den ∧ q ≤ maxAmount := by
  obtain ⟨x, rfl⟩ := Int.eq_ofNat_of_zero_le ha
  obtain ⟨n, rfl⟩ := Int.eq_ofNat_of_zero_le hn
  obtain ⟨d, rfl⟩ := Int.eq_ofNat_of_zero_le hd.le
  have hx : ¬(x : Int) = -2 ^ 63 := by omega
  have hy : ¬(n : Int) = -2 ^ 63 := by omega
  have hz : ¬(d : Int) = -2 ^ 63 := by omega
  have h0 : ¬(d : Int) = 0 := by omega
  have hsx : ¬(x : Int) < 0 := by omega
  have hsn : ¬(n : Int) < 0 := by omega
  have hsd : ¬(d : Int) < 0 := by omega
  simp only [mulDiv, absU64, h0, hx, hy, hz, hsx, hsn, hsd, if_false, Int.natAbs_natCast,
    decide_false, Bool.xor_false, Bool.false_eq_true] at h
  split at h
  · cases h
  split at h
  · cases h
  · have := Option.some.inj h
    refine ⟨?_, by omega⟩
    rw [← this]
    push_cast
    rfl

/-- A non-negative multiply-divide whose exact quotient fits is returned. -/
theorem mulDiv_of_fits {a num den : Int} (ha : 0 ≤ a) (hn : 0 ≤ num) (hd : 0 < den)
    (fits : a * num / den ≤ maxAmount)
    : mulDiv a num den = some (a * num / den) := by
  obtain ⟨x, rfl⟩ := Int.eq_ofNat_of_zero_le ha
  obtain ⟨n, rfl⟩ := Int.eq_ofNat_of_zero_le hn
  obtain ⟨d, rfl⟩ := Int.eq_ofNat_of_zero_le hd.le
  have hx : ¬(x : Int) = -2 ^ 63 := by omega
  have hy : ¬(n : Int) = -2 ^ 63 := by omega
  have hz : ¬(d : Int) = -2 ^ 63 := by omega
  have h0 : ¬(d : Int) = 0 := by omega
  have hsx : ¬(x : Int) < 0 := by omega
  have hsn : ¬(n : Int) < 0 := by omega
  have hsd : ¬(d : Int) < 0 := by omega
  have hq : ((x * n / d : Nat) : Int) ≤ maxAmount := by
    push_cast
    exact fits
  have hlt : x * n / d < 2 ^ 64 := by
    simp only [maxAmount] at hq
    omega
  have dpos : 0 < d := by omega
  have small : x * n < 2 ^ 64 * d := by
    have := Nat.lt_mul_of_div_lt (a := x * n) (c := d) (b := 2 ^ 64) hlt dpos
    linarith
  have guard : ¬x * n / 2 ^ 64 ≥ d := by
    have := (Nat.div_lt_iff_lt_mul (x := x * n) (y := d) (by decide : 0 < 2 ^ 64)).mpr (by linarith)
    omega
  have bound : ¬((x * n / d : Nat) : Int) > maxAmount := not_lt.mpr hq
  simp only [mulDiv, absU64, h0, hx, hy, hz, hsx, hsn, hsd, if_false, Int.natAbs_natCast,
    decide_false, Bool.xor_false, Bool.false_eq_true, guard, bound]
  push_cast
  rfl

/-- A fraction of nothing, or of less, is nothing or less. -/
theorem mulDiv_nonpos {a num den : Int} (less : a ≤ 0) (hn : 0 ≤ num) (hd : 0 < den)
    : (mulDiv a num den).getD 0 ≤ 0 := by
  rcases less.lt_or_eq with negative | rfl
  · have signs : (decide (a < 0)).xor ((decide (num < 0)).xor (decide (den < 0))) = true := by
      simp [negative, not_lt.mpr hn, not_lt.mpr hd.le]
    unfold mulDiv
    rw [if_neg hd.ne', signs]
    split
    · rename_i x n d _ _ _
      have magnitude : (0 : Int) ≤ (x * n / d : Nat) := Int.natCast_nonneg _
      simp only [if_true]
      split_ifs <;> simp only [Option.getD_none, Option.getD_some] <;> omega
    · simp
  · rw [mulDiv_of_fits le_rfl hn hd (by simp [maxAmount])]
    simp

/-- A fraction of at most one keeps a non-negative amount below itself. -/
theorem mulDiv_le_self {a num den q : Int} (ha : 0 ≤ a) (hn : 0 ≤ num) (hd : 0 < den)
    (le : num ≤ den) (h : mulDiv a num den = some q)
    : 0 ≤ q ∧ q ≤ a := by
  obtain ⟨rfl, _⟩ := mulDiv_eq_some ha hn hd h
  refine ⟨Int.ediv_nonneg (mul_nonneg ha hn) hd.le, ?_⟩
  exact Int.ediv_le_of_le_mul hd (mul_le_mul_of_nonneg_left le ha)

end LasseCash.Engine
