import LasseCash.Lib.BigEndian
import LasseCash.Lib.MachineInt

/-! The token's amounts as bytes, the codec of `contract/state/tokenledger.go`. -/

namespace LasseCash.State

open BigEndian MachineInt

-----------------------------------------------------------------------------------------
-- The codec
-----------------------------------------------------------------------------------------

/-- The byte loop of `DecodeTokenAmount`, whose guard comes before each shift. -/
def shiftBytes (n : Int) : List UInt8 → Option Int
  | [] => some n
  | b :: rest =>
      if n > 2 ^ 62 / 256 then none
      else
        -- the low byte of the shifted word is clear, so that the disjunction is a sum
        shiftBytes (i64 (n * 256 + b.toNat)) rest

/-- Reads a balance of the token. -/
def decodeTokenAmount (raw : List UInt8) : Option Int :=
  if raw = [] then some 0
  else if raw.length > 8 then none
  else
    match shiftBytes 0 raw with
    | none => none
    | some n => if n < 0 then none else some n

/-- The byte loop of `EncodeTokenAmount`, which fills its buffer from `room` down; `none` where it
would leave the buffer.
-/
def fillBytes : Nat → Nat → List UInt8 → Option (List UInt8)
  | _, 0, buf => some buf
  | 0, _ + 1, _ => none
  | room + 1, n + 1, buf => fillBytes room ((n + 1) / 256) (.ofNat (n + 1) :: buf)

/-- Writes a balance as the token does. -/
def encodeTokenAmount (a : Int) : Option (List UInt8) :=
  if a ≤ 0 then some [0] else fillBytes 8 a.toNat []

-----------------------------------------------------------------------------------------
-- Reading
-----------------------------------------------------------------------------------------

/-- The guard lets a value pass below this bound, whatever its bytes. -/
def guardBound : Nat := 2 ^ 62 + 256

/-- The loop reads the exact value below the bound, and refuses it from there on; by induction on
the bytes, as a value that is refused early only grows.
-/
theorem shiftBytes_eq (n : Nat) (b : UInt8) (rest : List UInt8)
    : shiftBytes n (b :: rest)
      = if extend n (b :: rest) < guardBound then some (extend n (b :: rest) : Int) else none := by
  have small := b.toNat_lt
  induction rest generalizing n b with
  | nil =>
      unfold shiftBytes shiftBytes guardBound
      rw [extend_cons, extend_nil]
      split
      · rw [if_neg (by omega)]
      · rw [if_pos (by omega), i64_of_nonneg (by omega) (by omega)]
        push_cast
        rfl
  | cons c rest ih =>
      unfold shiftBytes
      by_cases large : (n : Int) > 2 ^ 62 / 256
      · have grown := le_extend n (b :: c :: rest)
        have power : 256 ^ 2 ≤ 256 ^ (b :: c :: rest).length :=
          Nat.pow_le_pow_right (by decide) (by simp)
        have above : n * 256 ^ 2 ≤ n * 256 ^ (b :: c :: rest).length := Nat.mul_le_mul_left n power
        rw [if_pos large, if_neg (by unfold guardBound; omega)]
      · have exact_ : i64 ((n : Int) * 256 + b.toNat) = ((n * 256 + b.toNat : Nat) : Int) := by
          rw [i64_of_nonneg (by omega) (by omega)]
          push_cast
          rfl
        rw [if_neg large, exact_, ih (n * 256 + b.toNat) c c.toNat_lt, ← extend_cons]

/-- Reading accepts the values below the bound that fit eight bytes. -/
theorem decodeTokenAmount_eq (raw : List UInt8)
    : decodeTokenAmount raw
      = if raw.length ≤ 8 ∧ value raw < guardBound then some (value raw : Int) else none := by
  unfold decodeTokenAmount
  cases raw with
  | nil => rfl
  | cons b rest =>
      rw [if_neg (List.cons_ne_nil b rest)]
      by_cases long : (b :: rest).length > 8
      · rw [if_pos long, if_neg fun h => absurd h.1 (not_le.mpr long)]
      · have read := shiftBytes_eq 0 b rest
        rw [if_neg long]
        rw [Nat.cast_zero] at read
        rw [read]
        change (match (if value (b :: rest) < guardBound then _ else none : Option Int) with
          | none => none | some n => _) = _
        by_cases below : value (b :: rest) < guardBound
        · rw [if_pos below, if_pos ⟨not_lt.mp long, below⟩]
          exact if_neg (not_lt.mpr (Int.natCast_nonneg _))
        · rw [if_neg below, if_neg fun h => below h.2]

-----------------------------------------------------------------------------------------
-- Writing
-----------------------------------------------------------------------------------------

/-- The loop writes the number before what the buffer holds, in no more bytes than there is room; by
induction on the room.
-/
theorem fillBytes_value {room n : Nat} (fits : n < 256 ^ room) (buf : List UInt8)
    : ∃ out, fillBytes room n buf = some out ∧ out.length ≤ room + buf.length
      ∧ value out = n * 256 ^ buf.length + value buf := by
  induction room generalizing n buf with
  | zero =>
      obtain rfl : n = 0 := by omega
      exact ⟨buf, by unfold fillBytes; rfl, by omega, by omega⟩
  | succ room ih =>
      cases n with
      | zero => exact ⟨buf, by unfold fillBytes; rfl, by omega, by omega⟩
      | succ n =>
          have less : (n + 1) / 256 < 256 ^ room := by
            rw [pow_succ] at fits
            exact Nat.div_lt_of_lt_mul (by omega)
          obtain ⟨out, filled, length, written⟩ := ih less (.ofNat (n + 1) :: buf)
          refine ⟨out, by unfold fillBytes; exact filled, ?_, ?_⟩
          · rw [List.length_cons] at length
            omega
          · have byte : (UInt8.ofNat (n + 1)).toNat = (n + 1) % 256 := UInt8.toNat_ofNat' ..
            have parts := Nat.div_add_mod' (n + 1) 256
            rw [written, value_cons, byte, List.length_cons, pow_succ]
            generalize 256 ^ buf.length = p at *
            generalize (n + 1) / 256 = q at *
            generalize (n + 1) % 256 = d at *
            rw [← parts]
            ring

/-- A word is written in at most eight bytes, which spell it. -/
theorem encodeTokenAmount_value {a : Int} (nonneg : 0 ≤ a) (word : a < 2 ^ 63)
    : ∃ raw, encodeTokenAmount a = some raw ∧ raw.length ≤ 8 ∧ (value raw : Int) = a := by
  unfold encodeTokenAmount
  by_cases zero : a ≤ 0
  · rw [if_pos zero]
    exact ⟨[0], rfl, by decide, by rw [le_antisymm zero nonneg]; rfl⟩
  · have fits : a.toNat < 256 ^ 8 := by omega
    obtain ⟨raw, filled, length, written⟩ := fillBytes_value fits []
    rw [if_neg zero]
    refine ⟨raw, filled, length, ?_⟩
    rw [written, List.length_nil, pow_zero, Nat.mul_one, value, extend_nil, Nat.add_zero]
    exact Int.toNat_of_nonneg nonneg

-----------------------------------------------------------------------------------------
-- Round trips
-----------------------------------------------------------------------------------------

/-- An amount is read back exactly if it is below the bound of the guard; and reading accepts just
the words of at most eight bytes, except for those from that bound on.
-/
theorem token_amount_codec_iff (a : Int) (raw : List UInt8)
    : (0 ≤ a → a < 2 ^ 63
        → ((encodeTokenAmount a).bind decodeTokenAmount = some a ↔ a < 2 ^ 62 + 256))
      ∧ (decodeTokenAmount raw
            = (if raw.length ≤ 8 ∧ value raw < 2 ^ 63 then some (value raw : Int) else none)
          ↔ ¬(raw.length ≤ 8 ∧ 2 ^ 62 + 256 ≤ value raw ∧ value raw < 2 ^ 63)) := by
  constructor
  · intro nonneg word
    obtain ⟨raw, written, length, spelled⟩ := encodeTokenAmount_value nonneg word
    rw [written, Option.bind_some, decodeTokenAmount_eq]
    unfold guardBound
    by_cases below : value raw < 2 ^ 62 + 256
    · rw [if_pos ⟨length, below⟩, spelled]
      exact iff_of_true rfl (by omega)
    · rw [if_neg fun h => below h.2]
      exact iff_of_false nofun (by omega)
  · rw [decodeTokenAmount_eq]
    unfold guardBound
    by_cases short : raw.length ≤ 8
    · by_cases below : value raw < 2 ^ 62 + 256
      · rw [if_pos ⟨short, below⟩, if_pos ⟨short, by omega⟩]
        exact iff_of_true rfl (by omega)
      · rw [if_neg fun h => below h.2]
        by_cases word : value raw < 2 ^ 63
        · rw [if_pos ⟨short, word⟩]
          exact iff_of_false nofun (by omega)
        · rw [if_neg fun h => word h.2]
          exact iff_of_true rfl (by omega)
    · rw [if_neg fun h => short h.1, if_neg fun h => short h.1]
      exact iff_of_true rfl fun h => short h.1

/-- The whole supply of the token is read back. -/
theorem token_amount_codec_supply
    : (encodeTokenAmount 5100000000000000).bind decodeTokenAmount = some 5100000000000000 :=
  ((token_amount_codec_iff 5100000000000000 []).1 (by decide) (by decide)).mpr (by decide)

/-- The least amount that is written and not read back. -/
theorem token_amount_refused
    : encodeTokenAmount (2 ^ 62 + 256) = some [64, 0, 0, 0, 0, 0, 1, 0]
      ∧ decodeTokenAmount [64, 0, 0, 0, 0, 0, 1, 0] = none
      ∧ value [64, 0, 0, 0, 0, 0, 1, 0] = 2 ^ 62 + 256 := by
  decide

end LasseCash.State
