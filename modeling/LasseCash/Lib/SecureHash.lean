import LasseCash.Lib.BigEndian
import Mathlib.Analysis.SpecialFunctions.Pow.Real
import Mathlib.Data.Nat.Prime.Basic
import Mathlib.Data.Nat.Nth
import Mathlib.Tactic.IntervalCases
import Mathlib.Tactic.NormNum.Prime

/-! The Secure Hash Standard FIPS 180-4 for digests of 256 bits: the hash of any string of bits, in the
words of the standard, and what its words, its padding and its constants come to on bytes.
-/

namespace SecureHash

-----------------------------------------------------------------------------------------
-- Strings of bits
-----------------------------------------------------------------------------------------

/-- The `w` low bits of a number, the most significant first. -/
def bitsOfNat : ℕ → ℕ → List Bool
  | 0, _ => []
  | w + 1, n => n.testBit w :: bitsOfNat w n

/-- The number that a string of bits spells. -/
def natOfBits (bits : List Bool) : ℕ := bits.foldl (fun n b => 2 * n + b.toNat) 0

/-- The bits of a string of bytes. -/
def bitsOf (bytes : List UInt8) : List Bool := bytes.flatMap fun b => bitsOfNat 8 b.toNat

/-- A word of thirty-two bits. -/
abbrev Word := BitVec 32

-----------------------------------------------------------------------------------------
-- Functions and constants
-----------------------------------------------------------------------------------------

def Ch (x y z : Word) : Word := (x &&& y) ^^^ (~~~x &&& z)

def Maj (x y z : Word) : Word := (x &&& y) ^^^ (x &&& z) ^^^ (y &&& z)

def bigSigma0 (x : Word) : Word := x.rotateRight 2 ^^^ x.rotateRight 13 ^^^ x.rotateRight 22

def bigSigma1 (x : Word) : Word := x.rotateRight 6 ^^^ x.rotateRight 11 ^^^ x.rotateRight 25

def smallSigma0 (x : Word) : Word := x.rotateRight 7 ^^^ x.rotateRight 18 ^^^ x >>> 3

def smallSigma1 (x : Word) : Word := x.rotateRight 17 ^^^ x.rotateRight 19 ^^^ x >>> 10

/-- The first thirty-two bits of the fractional part of the `n`th root of a number. -/
noncomputable def rootBits (n p : ℕ) : Word :=
  .ofInt 32 ⌊Int.fract ((p : ℝ) ^ (n : ℝ)⁻¹) * 2 ^ 32⌋

/-- The constants of the rounds, out of the cube roots of the first sixty-four primes. -/
noncomputable def K (t : ℕ) : Word := rootBits 3 (Nat.nth Nat.Prime t)

/-- The eight words of a hash value, and the eight working variables. -/
@[ext]
structure Vars where
  a : Word
  b : Word
  c : Word
  d : Word
  e : Word
  f : Word
  g : Word
  h : Word

/-- The initial hash value, out of the square roots of the first eight primes. -/
noncomputable def initial : Vars :=
  let H (i : ℕ) : Word := rootBits 2 (Nat.nth Nat.Prime i)
  ⟨H 0, H 1, H 2, H 3, H 4, H 5, H 6, H 7⟩

-----------------------------------------------------------------------------------------
-- Padding and the hash
-----------------------------------------------------------------------------------------

/-- There are zeros that bring a message of any length to 448 bits of a block. -/
theorem exists_zeros (ℓ : ℕ) : ∃ k, (ℓ + 1 + k) % 512 = 448 := ⟨511 * (ℓ + 1) + 448, by omega⟩

/-- A message with a one, the least number of zeros and its length in sixty-four bits. -/
def pad (m : List Bool) : List Bool :=
  m ++ true :: List.replicate (Nat.find (exists_zeros m.length)) false ++ bitsOfNat 64 m.length

/-- The `i`th word of a string of bits. -/
def wordAt (bits : List Bool) (i : ℕ) : Word := .ofNat 32 (natOfBits ((bits.drop (32 * i)).take 32))

/-- The words of the message schedule of a block. -/
def schedule (M : ℕ → Word) (t : ℕ) : Word :=
  if t < 16 then M t
  else
    smallSigma1 (schedule M (t - 2)) + schedule M (t - 7) + smallSigma0 (schedule M (t - 15))
      + schedule M (t - 16)
termination_by t

/-- One round of the compression, with its constant and its word of the schedule. -/
def round (v : Vars) (k w : Word) : Vars :=
  let T1 := v.h + bigSigma1 v.e + Ch v.e v.f v.g + k + w
  let T2 := bigSigma0 v.a + Maj v.a v.b v.c
  ⟨T1 + T2, v.a, v.b, v.c, v.d + T1, v.e, v.f, v.g⟩

/-- The next hash value, from the one before and a block of the message. -/
noncomputable def compress (H : Vars) (M : ℕ → Word) : Vars :=
  let v := (List.range 64).foldl (fun v t => round v (K t) (schedule M t)) H
  ⟨v.a + H.a, v.b + H.b, v.c + H.c, v.d + H.d, v.e + H.e, v.f + H.f, v.g + H.g, v.h + H.h⟩

/-- The hash value of the first `N` blocks of a padded message. -/
noncomputable def hashed (padded : List Bool) (N : ℕ) : Vars :=
  (List.range N).foldl (fun H i => compress H fun j => wordAt padded (16 * i + j)) initial

/-- The bits of a hash value. -/
def Vars.bits (H : Vars) : List Bool :=
  [H.a, H.b, H.c, H.d, H.e, H.f, H.g, H.h].flatMap fun w => bitsOfNat 32 w.toNat

/-- The message digest of a string of fewer than `2 ^ 64` bits. -/
noncomputable def digest (m : List Bool) : List Bool :=
  (hashed (pad m) ((pad m).length / 512)).bits

-----------------------------------------------------------------------------------------
-- Bits and bytes
-----------------------------------------------------------------------------------------

@[simp]
theorem bitsOfNat_length (w n : ℕ) : (bitsOfNat w n).length = w := by
  induction w with
  | zero => rfl
  | succ w ih => rw [bitsOfNat, List.length_cons, ih]

/-- The low bits of a number do not depend on the others, by induction on how many they are. -/
theorem bitsOfNat_congr {w n n' : ℕ} (same : n % 2 ^ w = n' % 2 ^ w)
    : bitsOfNat w n = bitsOfNat w n' := by
  induction w with
  | zero => rfl
  | succ w ih =>
      have bit (n : ℕ) : (n % 2 ^ (w + 1)).testBit w = n.testBit w := by
        simp [Nat.testBit_mod_two_pow]
      have low (n : ℕ) : n % 2 ^ (w + 1) % 2 ^ w = n % 2 ^ w :=
        Nat.mod_mod_of_dvd n (pow_dvd_pow 2 (Nat.le_succ w))
      rw [bitsOfNat, bitsOfNat, ← bit n, same, bit n', ih (by rw [← low n, same, low n'])]

/-- The bits of a number fall into its high and its low ones, by induction on the high ones. -/
theorem bitsOfNat_add (v w n : ℕ)
    : bitsOfNat (v + w) n = bitsOfNat v (n / 2 ^ w) ++ bitsOfNat w n := by
  induction v with
  | zero => rw [Nat.zero_add, bitsOfNat, List.nil_append]
  | succ v ih =>
      rw [Nat.succ_add, bitsOfNat, bitsOfNat, ih, Nat.testBit_div_two_pow, List.cons_append]

theorem bitsOfNat_zero (w : ℕ) : bitsOfNat w 0 = List.replicate w false := by
  induction w with
  | zero => rfl
  | succ w ih => rw [bitsOfNat, ih, Nat.zero_testBit, List.replicate_succ]

/-- The bits in front are shifted by those that follow, by induction on these. -/
theorem natOfBits_append (front back : List Bool)
    : natOfBits (front ++ back) = natOfBits front * 2 ^ back.length + natOfBits back := by
  have shifted (n : ℕ) (bits : List Bool) : bits.foldl (fun n b => 2 * n + b.toNat) n
      = n * 2 ^ bits.length + bits.foldl (fun n b => 2 * n + b.toNat) 0 := by
    induction bits generalizing n with
    | nil => simp
    | cons b rest ih =>
        rw [List.foldl_cons, List.foldl_cons, ih, ih (2 * 0 + b.toNat), List.length_cons, pow_succ]
        ring
  rw [natOfBits, List.foldl_append, shifted]
  rfl

/-- Reading the bits of a number gives it back, as far as it fits; by induction on the bits. -/
theorem natOfBits_bitsOfNat (w n : ℕ) : natOfBits (bitsOfNat w n) = n % 2 ^ w := by
  induction w with
  | zero => rw [pow_zero, Nat.mod_one]; rfl
  | succ w ih =>
      have top : natOfBits [n.testBit w] = n / 2 ^ w % 2 := by
        rw [← Nat.toNat_testBit]
        exact Nat.zero_add _
      rw [bitsOfNat, ← List.singleton_append, natOfBits_append, bitsOfNat_length, ih, top,
        Nat.mod_pow_succ]
      ring

@[simp]
theorem bitsOf_nil : bitsOf [] = [] := rfl

theorem bitsOf_cons (b : UInt8) (bytes : List UInt8)
    : bitsOf (b :: bytes) = bitsOfNat 8 b.toNat ++ bitsOf bytes :=
  rfl

@[simp]
theorem bitsOf_append (bytes more : List UInt8)
    : bitsOf (bytes ++ more) = bitsOf bytes ++ bitsOf more :=
  List.flatMap_append

@[simp]
theorem bitsOf_length (bytes : List UInt8) : (bitsOf bytes).length = 8 * bytes.length := by
  induction bytes with
  | nil => rfl
  | cons b rest ih =>
      rw [bitsOf_cons, List.length_append, bitsOfNat_length, ih, List.length_cons]
      ring

/-- Dropping bytes drops eight bits each, by induction on them. -/
theorem bitsOf_drop (bytes : List UInt8) (n : ℕ)
    : (bitsOf bytes).drop (8 * n) = bitsOf (bytes.drop n) := by
  induction n generalizing bytes with
  | zero => rfl
  | succ n ih =>
      cases bytes with
      | nil => simp
      | cons b rest =>
          have front := bitsOfNat_length 8 b.toNat
          rw [bitsOf_cons, List.drop_succ_cons, ← ih, Nat.mul_succ, Nat.add_comm, ← List.drop_drop,
            List.drop_left' front]

theorem bitsOf_take (bytes : List UInt8) (n : ℕ)
    : (bitsOf bytes).take (8 * n) = bitsOf (bytes.take n) := by
  induction n generalizing bytes with
  | zero => rfl
  | succ n ih =>
      cases bytes with
      | nil => simp
      | cons b rest =>
          have front := bitsOfNat_length 8 b.toNat
          rw [bitsOf_cons, List.take_succ_cons, bitsOf_cons, ← ih, Nat.mul_succ, Nat.add_comm,
            List.take_add, List.take_left' front, List.drop_left' front]

/-- The bits of a byte string spell its number. -/
theorem natOfBits_bitsOf (bytes : List UInt8) : natOfBits (bitsOf bytes) = BigEndian.value bytes := by
  induction bytes with
  | nil => rfl
  | cons b rest ih =>
      rw [bitsOf_cons, natOfBits_append, natOfBits_bitsOfNat, bitsOf_length, ih, BigEndian.value_cons,
        Nat.mod_eq_of_lt b.toNat_lt, pow_mul]
      rfl

/-- Words of a string of bytes are four bytes each, the first the highest. -/
theorem wordAt_bitsOf (bytes : List UInt8) (i : ℕ)
    : wordAt (bitsOf bytes) i = .ofNat 32 (BigEndian.value ((bytes.drop (4 * i)).take 4)) := by
  rw [wordAt, show 32 * i = 8 * (4 * i) by ring, bitsOf_drop, bitsOf_take _ 4, natOfBits_bitsOf]

/-- The `k` low bytes of a number, the most significant first. -/
def octets : ℕ → ℕ → List UInt8
  | 0, _ => []
  | k + 1, n => .ofNat (n / 256 ^ k) :: octets k n

@[simp]
theorem octets_length (k n : ℕ) : (octets k n).length = k := by
  induction k with
  | zero => rfl
  | succ k ih => rw [octets, List.length_cons, ih]

/-- The bytes of a number have its bits, by induction on how many they are. -/
theorem bitsOf_octets (k n : ℕ) : bitsOf (octets k n) = bitsOfNat (8 * k) n := by
  induction k with
  | zero => rfl
  | succ k ih =>
      have top : bitsOfNat 8 (UInt8.ofNat (n / 256 ^ k)).toNat = bitsOfNat 8 (n / 2 ^ (8 * k)) := by
        rw [pow_mul]
        refine bitsOfNat_congr ?_
        rw [UInt8.toNat_ofNat']
        exact Nat.mod_mod _ _
      rw [octets, bitsOf_cons, ih, top, ← bitsOfNat_add, Nat.mul_succ, Nat.add_comm]

-----------------------------------------------------------------------------------------
-- Padding on bytes
-----------------------------------------------------------------------------------------

/-- How many zero bytes a message of `n` bytes is padded with. -/
def zeroBytes (n : ℕ) : ℕ := (119 - n % 64) % 64

/-- The least number of zero bits after the one fills up its byte and then whole bytes. -/
theorem zeros_eq (n : ℕ) : Nat.find (exists_zeros (8 * n)) = 7 + 8 * zeroBytes n := by
  unfold zeroBytes
  rw [Nat.find_eq_iff]
  exact ⟨by omega, fun k less => by omega⟩

/-- Padding a string of bytes appends bytes: `0x80`, the zeros and the length. -/
theorem pad_bitsOf (bytes : List UInt8)
    : pad (bitsOf bytes)
      = bitsOf (bytes ++ [0x80] ++ List.replicate (zeroBytes bytes.length) 0
        ++ octets 8 (8 * bytes.length)) := by
  have one : bitsOf [0x80] = true :: List.replicate 7 false := by decide
  have zeros (z : ℕ) : bitsOf (List.replicate z 0) = List.replicate (8 * z) false := by
    induction z with
    | zero => rfl
    | succ z ih =>
        rw [List.replicate_succ, bitsOf_cons, ih, UInt8.toNat_zero, bitsOfNat_zero,
          List.replicate_append_replicate, Nat.mul_succ, Nat.add_comm]
  simp only [pad, bitsOf_append, bitsOf_length, bitsOf_octets, one, zeros]
  rw [zeros_eq, ← List.replicate_append_replicate]
  simp

/-- A padded message is whole blocks. -/
theorem padded_blocks (n : ℕ) : 64 ∣ n + 1 + zeroBytes n + 8 := by
  unfold zeroBytes
  omega

-----------------------------------------------------------------------------------------
-- The schedule and the constants
-----------------------------------------------------------------------------------------

theorem schedule_of_lt {M : ℕ → Word} {t : ℕ} (first : t < 16) : schedule M t = M t := by
  rw [schedule, if_pos first]

theorem schedule_add (M : ℕ → Word) (t : ℕ)
    : schedule M (t + 16)
      = smallSigma1 (schedule M (t + 14)) + schedule M (t + 9) + smallSigma0 (schedule M (t + 1))
        + schedule M t := by
  rw [schedule, if_neg (by omega)]
  rfl

/-- The first bits after the point of a root, from the powers of whole numbers that enclose it. -/
theorem rootBits_eq {n p c k : ℕ} (nonzero : n ≠ 0) (low : (c * 2 ^ 32 + k) ^ n ≤ p * (2 ^ 32) ^ n)
    (high : p * (2 ^ 32) ^ n < (c * 2 ^ 32 + k + 1) ^ n)
    : rootBits n p = .ofNat 32 k := by
  have power : ((p : ℝ) ^ (n : ℝ)⁻¹ * 2 ^ 32) ^ n = p * (2 ^ 32) ^ n := by
    rw [mul_pow, Real.rpow_inv_natCast_pow (Nat.cast_nonneg p) nonzero]
  have floor : ⌊(p : ℝ) ^ (n : ℝ)⁻¹ * 2 ^ 32⌋ = ((c * 2 ^ 32 + k : ℕ) : ℤ) := by
    rw [Int.floor_eq_iff]
    refine ⟨le_of_pow_le_pow_left₀ nonzero (by positivity) ?_,
      lt_of_pow_lt_pow_left₀ n (by positivity) ?_⟩
    · rw [power]
      exact_mod_cast low
    · rw [power]
      exact_mod_cast high
  rw [rootBits]
  generalize (p : ℝ) ^ (n : ℝ)⁻¹ = x at floor ⊢
  have shifted : Int.fract x * 2 ^ 32 = x * 2 ^ 32 - ((⌊x⌋ * 2 ^ 32 : ℤ) : ℝ) := by
    rw [Int.fract, sub_mul]
    push_cast
    norm_num
  rw [shifted, Int.floor_sub_intCast, floor]
  generalize ⌊x⌋ = whole
  refine BitVec.eq_of_toNat_eq ?_
  rw [BitVec.toNat_ofInt, BitVec.toNat_ofNat]
  omega

/-- The first sixty-four primes. -/
def primes : List ℕ := [
  2, 3, 5, 7, 11, 13, 17, 19, 23, 29, 31, 37, 41, 43, 47, 53, 59, 61, 67, 71, 73, 79, 83, 89, 97, 101,
  103, 107, 109, 113, 127, 131, 137, 139, 149, 151, 157, 163, 167, 173, 179, 181, 191, 193, 197, 199,
  211, 223, 227, 229, 233, 239, 241, 251, 257, 263, 269, 271, 277, 281, 283, 293, 307, 311]

/-- Trial division by the primes below nineteen. -/
def passesTrials (n : ℕ) : Bool :=
  2 ≤ n && [2, 3, 5, 7, 11, 13, 17].all fun q => q = n || n % q ≠ 0

/-- Trial division by the primes below nineteen finds the primes below their limit. -/
theorem prime_iff_passesTrials {n : ℕ} (small : n < 361) : n.Prime ↔ passesTrials n = true := by
  rw [passesTrials, Bool.and_eq_true, decide_eq_true_eq, List.all_eq_true]
  constructor
  · refine fun prime => ⟨prime.two_le, fun q trial => ?_⟩
    by_cases same : q = n
    · simp [same]
    · have proper : q ≠ 1 := by
        rintro rfl
        simp at trial
      have apart : ¬q ∣ n := fun divides =>
        same ((prime.eq_one_or_self_of_dvd q divides).resolve_left proper)
      simpa [same, Nat.dvd_iff_mod_eq_zero] using apart
  · rintro ⟨two_le, trials⟩
    by_contra composite
    have prime : n.minFac.Prime := Nat.minFac_prime (by omega)
    have square : n.minFac ^ 2 ≤ n := Nat.minFac_sq_le_self (by omega) composite
    have below : n.minFac < 19 := by nlinarith
    have trial : n.minFac ∈ [2, 3, 5, 7, 11, 13, 17] := by
      generalize n.minFac = q at prime below
      interval_cases q <;> first | decide | exact absurd prime (by norm_num)
    have passed := trials n.minFac trial
    have divides : n % n.minFac = 0 := Nat.mod_eq_zero_of_dvd (Nat.minFac_dvd n)
    have same : n.minFac = n := by simpa [divides] using passed
    exact composite (same ▸ prime)

/-- Counting the primes below a limit, by induction on the limit. -/
theorem count_prime {N : ℕ} (small : N ≤ 361)
    : Nat.count Nat.Prime N = Nat.count (fun n => passesTrials n = true) N := by
  induction N with
  | zero => rfl
  | succ N ih =>
      rw [Nat.count_succ, Nat.count_succ, ih (by omega)]
      simp only [prime_iff_passesTrials (show N < 361 by omega)]

/-- The primes of the table are the first, in their order. -/
theorem nth_prime {t : ℕ} (within : t < 64) : Nat.nth Nat.Prime t = primes.getD t 0 := by
  have table : ∀ t < 64, primes.getD t 0 < 361 ∧ passesTrials (primes.getD t 0) = true
      ∧ Nat.count (fun n => passesTrials n = true) (primes.getD t 0) = t := by
    decide +kernel
  obtain ⟨small, passes, counted⟩ := table t within
  have prime : (primes.getD t 0).Prime := (prime_iff_passesTrials small).mpr passes
  rw [← count_prime small.le] at counted
  conv_lhs => rw [← counted]
  exact Nat.nth_count prime

end SecureHash
