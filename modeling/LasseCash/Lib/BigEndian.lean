import Mathlib.Tactic.Linarith
import Mathlib.Tactic.Ring

/-! Byte strings as numbers, the most significant byte first. -/

namespace BigEndian

/-- The number that `bytes` spells after the digits of `high`. -/
def extend (high : Nat) (bytes : List UInt8) : Nat :=
  bytes.foldl (fun n b => n * 256 + b.toNat) high

/-- The number that a byte string spells. -/
def value (bytes : List UInt8) : Nat := extend 0 bytes

@[simp]
theorem extend_nil (high : Nat) : extend high [] = high := rfl

@[simp]
theorem extend_cons (high : Nat) (b : UInt8) (bytes : List UInt8)
    : extend high (b :: bytes) = extend (high * 256 + b.toNat) bytes := rfl

/-- The digits before are shifted by the bytes that follow; by induction on these. -/
theorem extend_eq (high : Nat) (bytes : List UInt8)
    : extend high bytes = high * 256 ^ bytes.length + value bytes := by
  induction bytes generalizing high with
  | nil => simp [value]
  | cons b rest ih =>
      have later := ih (high * 256 + b.toNat)
      have first : value (b :: rest) = (0 * 256 + b.toNat) * 256 ^ rest.length + value rest :=
        ih (0 * 256 + b.toNat)
      rw [extend_cons, later, first, List.length_cons, pow_succ]
      ring

theorem value_cons (b : UInt8) (bytes : List UInt8)
    : value (b :: bytes) = b.toNat * 256 ^ bytes.length + value bytes := by
  rw [value, extend_cons, extend_eq, Nat.zero_mul, Nat.zero_add]

/-- What follows the digits of `high` does not make the number less. -/
theorem le_extend (high : Nat) (bytes : List UInt8) : high * 256 ^ bytes.length ≤ extend high bytes := by
  rw [extend_eq]
  exact Nat.le_add_right _ _

end BigEndian
