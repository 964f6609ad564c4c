import Mathlib.Tactic.Ring
import Mathlib.Tactic.Linarith

/-! Two's complement arithmetic on 64-bit words, carried on mathematical integers.
A machine operation is the exact operation followed by a wrap, so that overflow is visible
in a definition and disappears from a proof as soon as the exact result is in range.
-/

namespace MachineInt

/-- The signed 64-bit word holding `x` modulo `2 ^ 64`. -/
def i64 (x : Int) : Int := (x + 2 ^ 63) % 2 ^ 64 - 2 ^ 63

/-- The unsigned 64-bit word holding `x` modulo `2 ^ 64`. -/
def u64 (x : Nat) : Nat := x % 2 ^ 64

/-- The unsigned word with the same bits as the signed value `x`. -/
def toU64 (x : Int) : Nat := (x % 2 ^ 64).toNat

/-- (InI64 x) says that `x` is the value of a signed 64-bit word. -/
structure InI64 (x : Int) : Prop where
  lower : -2 ^ 63 ≤ x
  upper : x < 2 ^ 63

/-- A wrap always yields a word, by the bounds of a Euclidean remainder. -/
theorem i64_mem (x : Int) : InI64 (i64 x) := by
  constructor <;> unfold i64 <;> omega

/-- A value in range is its own word. -/
theorem i64_of_mem {x : Int} (h : InI64 x) : i64 x = x := by
  have := h.lower
  have := h.upper
  unfold i64
  omega

/-- The form used most: a non-negative exact result below `2 ^ 63` does not wrap. -/
theorem i64_of_nonneg {x : Int} (lower : 0 ≤ x) (upper : x < 2 ^ 63) : i64 x = x :=
  i64_of_mem ⟨by omega, upper⟩

/-- Wrapping an operand of a sum first makes no difference, by congruence modulo `2 ^ 64`. -/
theorem i64_add_left (x y : Int) : i64 (i64 x + y) = i64 (x + y) := by
  unfold i64
  omega

/-- Wrapping the minuend first makes no difference. -/
theorem i64_sub_left (x y : Int) : i64 (i64 x - y) = i64 (x - y) := by
  unfold i64
  omega

/-- A wrap is idempotent. -/
@[simp]
theorem i64_i64 (x : Int) : i64 (i64 x) = i64 x :=
  i64_of_mem (i64_mem x)

@[simp]
theorem i64_zero : i64 0 = 0 := by decide

/-- A natural below `2 ^ 64` is its own unsigned word. -/
theorem u64_of_lt {x : Nat} (h : x < 2 ^ 64) : u64 x = x :=
  Nat.mod_eq_of_lt h

theorem toU64_of_nonneg {x : Int} (lower : 0 ≤ x) (upper : x < 2 ^ 64) : toU64 x = x.toNat := by
  unfold toU64
  omega

/-- Storing a word as unsigned bits and reading it back as signed is the identity, as
both conversions keep the residue modulo `2 ^ 64`.
-/
theorem i64_toU64 {x : Int} (h : InI64 x) : i64 (toU64 x : Int) = x := by
  have := h.lower
  have := h.upper
  unfold i64 toU64
  omega

end MachineInt
