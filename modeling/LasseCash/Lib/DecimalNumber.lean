import Mathlib.Algebra.Order.Field.Rat
import Mathlib.Data.Nat.Digits.Defs
import Mathlib.Data.Nat.Log
import Mathlib.Data.Rat.Floor
import Mathlib.Tactic.Linarith
import Mathlib.Tactic.NormNum
import Mathlib.Tactic.Ring

/-! Decimal numbers of a sign, a coefficient and an exponent, as they are read from texts and as they
are multiplied with a limited number of digits: a number of few digits loses nothing. A number that
is written plainly is read back, and cutting its places cuts its digits.
-/

/-- A finite decimal number. -/
structure DecimalNumber where
  negative : Bool
  coefficient : ℕ
  exponent : ℤ
  deriving DecidableEq

namespace DecimalNumber

-----------------------------------------------------------------------------------------
-- Reading
-----------------------------------------------------------------------------------------

section Reading

variable (digit : Char → Option ℕ)

/-- Whether a text begins with a minus, and what follows its sign. -/
def signOf : List Char → Bool × List Char
  | '-' :: rest => (true, rest)
  | '+' :: rest => (false, rest)
  | text => (false, text)

/-- The digits that a text begins with, and what follows them. -/
def digitsOf : List Char → List ℕ × List Char
  | [] => ([], [])
  | c :: rest =>
      match digit c with
      | none => ([], c :: rest)
      | some n => (n :: (digitsOf rest).1, (digitsOf rest).2)

/-- The number of some digits, the first of the highest place. -/
def ofDigits (ds : List ℕ) : ℕ := Nat.ofDigits 10 ds.reverse

/-- The exponent part at the end of a number. -/
def exponentOf : List Char → Option ℤ
  | [] => some 0
  | e :: rest =>
      let (negative, rest) := signOf rest
      match digitsOf digit rest with
      | (d :: ds, []) =>
          if e = 'e' ∨ e = 'E' then
            some (if negative then -(ofDigits (d :: ds) : ℤ) else ofDigits (d :: ds))
          else none
      | _ => none

/-- Reads a number: a sign, digits with a point among them, an exponent. -/
def read (text : List Char) : Option DecimalNumber :=
  let (negative, rest) := signOf text
  let (whole, rest) := digitsOf digit rest
  let (fraction, rest) :=
    match rest with
    | '.' :: rest => digitsOf digit rest
    | rest => ([], rest)
  if whole ++ fraction = [] then none
  else (exponentOf digit rest).map fun exponent =>
    ⟨negative, ofDigits (whole ++ fraction), exponent - fraction.length⟩

end Reading

-----------------------------------------------------------------------------------------
-- Worth and rounding
-----------------------------------------------------------------------------------------

variable {d : DecimalNumber}

def sign (d : DecimalNumber) : ℤ := if d.negative then -1 else 1

/-- The number itself. -/
def toRat (d : DecimalNumber) : ℚ := d.sign * (d.coefficient * 10 ^ d.exponent)

/-- A coefficient of at most `prec` digits, rounded half to even, and the exponent that goes with it. -/
def fix (prec c : ℕ) (e : ℤ) : ℕ × ℤ :=
  if c < 10 ^ prec then (c, e)
  else
    let k := Nat.log 10 c + 1 - prec
    let q := c / 10 ^ k
    let r := c % 10 ^ k
    let c' := if 10 ^ k < 2 * r ∨ 2 * r = 10 ^ k ∧ q % 2 = 1 then q + 1 else q
    if c' = 10 ^ prec then (10 ^ (prec - 1), e + k + 1) else (c', e + k)

/-- The product with a whole number, of at most `prec` digits. -/
def mulNat (prec : ℕ) (d : DecimalNumber) (n : ℕ) : DecimalNumber :=
  let fixed := fix prec (d.coefficient * n) d.exponent
  ⟨d.negative, fixed.1, fixed.2⟩

/-- What is left without the fraction. -/
def truncate (d : DecimalNumber) : ℤ :=
  d.sign * (if 0 ≤ d.exponent then d.coefficient * 10 ^ d.exponent.toNat
    else d.coefficient / 10 ^ (-d.exponent).toNat : ℕ)

/-- (Short prec d) says that a number has at most `prec` significant digits. -/
def Short (prec : ℕ) (d : DecimalNumber) : Prop :=
  ∃ m k : ℕ, d.coefficient = m * 10 ^ k ∧ m < 10 ^ prec

/-- A small coefficient is short. -/
theorem short_of_lt {prec : ℕ} (small : d.coefficient < 10 ^ prec) : d.Short prec :=
  ⟨d.coefficient, 0, by rw [pow_zero, Nat.mul_one], small⟩

theorem log_mul_pow {m : ℕ} (positive : 0 < m) (k : ℕ)
    : Nat.log 10 (m * 10 ^ k) = Nat.log 10 m + k := by
  induction k with
  | zero => rw [pow_zero, Nat.mul_one, Nat.add_zero]
  | succ k ih =>
      have worth : m * 10 ^ k ≠ 0 := (Nat.mul_pos positive (Nat.pow_pos (by decide))).ne'
      rw [pow_succ, ← mul_assoc, Nat.log_mul_base (by decide) worth, ih, Nat.add_assoc]

/-- A coefficient of few digits with zeros behind it keeps its worth. -/
theorem fix_exact {prec m k : ℕ} (short : m < 10 ^ prec) (e : ℤ)
    : ((fix prec (m * 10 ^ k) e).1 : ℚ) * 10 ^ (fix prec (m * 10 ^ k) e).2
      = (m * 10 ^ k : ℕ) * 10 ^ e := by
  have ten : (10 : ℚ) ≠ 0 := by norm_num
  unfold fix
  by_cases small : m * 10 ^ k < 10 ^ prec
  · rw [if_pos small]
  rw [if_neg small]
  have positive : 0 < m := by
    by_contra zero
    obtain rfl : m = 0 := by omega
    exact small (by rw [Nat.zero_mul]; exact Nat.pow_pos (by decide))
  have log_lt : Nat.log 10 m < prec := Nat.log_lt_of_lt_pow positive.ne' short
  rw [log_mul_pow positive]
  -- only zeros are rounded away
  obtain ⟨j, split⟩ : ∃ j, k = j + (Nat.log 10 m + k + 1 - prec) :=
    ⟨k - (Nat.log 10 m + k + 1 - prec), by omega⟩
  generalize Nat.log 10 m + k + 1 - prec = i at split
  subst split
  have power : 0 < 10 ^ i := Nat.pow_pos (by decide)
  have whole : m * 10 ^ (j + i) = m * 10 ^ j * 10 ^ i := by rw [pow_add, mul_assoc]
  have quotient : m * 10 ^ (j + i) / 10 ^ i = m * 10 ^ j := by
    rw [whole, Nat.mul_div_cancel _ power]
  have rest : m * 10 ^ (j + i) % 10 ^ i = 0 := by rw [whole, Nat.mul_mod_left]
  have down : ¬(10 ^ i < 2 * 0 ∨ 2 * 0 = 10 ^ i ∧ m * 10 ^ j % 2 = 1) := by
    rintro (less | ⟨same, -⟩) <;> omega
  dsimp only
  rw [quotient, rest, if_neg down]
  split
  · rename_i full
    have some_prec : prec = prec - 1 + 1 := by omega
    have full' : ((m * 10 ^ (j + i) : ℕ) : ℚ) = 10 ^ prec * 10 ^ i := by
      rw [whole, full]
      push_cast
      rfl
    rw [full', some_prec, Nat.add_sub_cancel, zpow_add₀ ten, zpow_add₀ ten, zpow_natCast, zpow_one]
    push_cast
    ring
  · rw [whole, zpow_add₀ ten, zpow_natCast]
    push_cast
    ring

/-- A product of a short number with a power of ten is exact. -/
theorem toRat_mulNat {prec : ℕ} (short : d.Short prec) (n : ℕ)
    : (d.mulNat prec (10 ^ n)).toRat = d.toRat * 10 ^ n := by
  obtain ⟨m, k, split, small⟩ := short
  have product : d.coefficient * 10 ^ n = m * 10 ^ (k + n) := by rw [split, pow_add, mul_assoc]
  have worth := fix_exact (k := k + n) small d.exponent
  unfold toRat mulNat
  rw [product]
  change (d.sign : ℚ) * _ = _
  rw [worth, ← product]
  push_cast
  ring

/-- Without its fraction a number is rounded down, if it is not negative. -/
theorem max_truncate (d : DecimalNumber) : max 0 d.truncate = max 0 ⌊d.toRat⌋ := by
  have ten : (0 : ℚ) < 10 := by norm_num
  unfold truncate toRat sign
  cases d.negative with
  | true =>
      have least := Int.natCast_nonneg (if 0 ≤ d.exponent then d.coefficient * 10 ^ d.exponent.toNat
        else d.coefficient / 10 ^ (-d.exponent).toNat)
      have worth : (0 : ℚ) ≤ d.coefficient * 10 ^ d.exponent :=
        mul_nonneg (Nat.cast_nonneg _) (zpow_nonneg ten.le _)
      rw [if_pos rfl, max_eq_left (by omega), max_eq_left]
      refine Int.floor_nonpos ?_
      push_cast
      linarith
  | false =>
      rw [if_neg Bool.false_ne_true, Int.cast_one, one_mul, one_mul]
      congr 1
      split
      · rename_i up
        obtain ⟨n, same⟩ := Int.eq_ofNat_of_zero_le up
        rw [same, Int.toNat_natCast, zpow_natCast]
        have floor := Int.floor_natCast (R := ℚ) (d.coefficient * 10 ^ n)
        push_cast at floor ⊢
        exact floor.symm
      · rename_i down
        obtain ⟨n, same⟩ := Int.eq_ofNat_of_zero_le (show 0 ≤ -d.exponent by omega)
        have power : d.exponent = -(n : ℤ) := by omega
        rw [power, neg_neg, Int.toNat_natCast, zpow_neg, zpow_natCast, ← div_eq_mul_inv]
        have floor := Rat.floor_natCast_div_natCast d.coefficient (10 ^ n)
        push_cast at floor ⊢
        rw [floor]

-----------------------------------------------------------------------------------------
-- Plain numbers
-----------------------------------------------------------------------------------------

/-- A number written as its sign, its digits and, where there is a fraction, a point before it. -/
def plain (negative : Bool) (whole fraction : List Char) : List Char :=
  (if negative then ['-'] else []) ++ whole ++ (if fraction = [] then [] else '.' :: fraction)

/-- A number without what stands behind so many decimal places, toward zero. -/
def cut (places : ℕ) (q : ℚ) : ℚ :=
  (if 0 ≤ q then ⌊q * 10 ^ places⌋ else ⌈q * 10 ^ places⌉ : ℤ) / 10 ^ places

/-- Digits are read up to the first character that is none, by induction on them. -/
theorem digitsOf_append {digit : Char → Option ℕ} {value : Char → ℕ} {run rest : List Char}
    (all : ∀ c ∈ run, digit c = some (value c)) (stops : ∀ c ∈ rest.head?, digit c = none)
    : digitsOf digit (run ++ rest) = (run.map value, rest) := by
  induction run with
  | nil =>
      cases rest with
      | nil => rfl
      | cons c rest => rw [List.nil_append, digitsOf, stops c rfl, List.map_nil]
  | cons c run ih =>
      have later := ih fun d there => all d (List.mem_cons_of_mem c there)
      rw [List.cons_append, digitsOf, all c List.mem_cons_self, later, List.map_cons]

/-- A number written plainly is read as it is written. -/
theorem read_plain {digit : Char → Option ℕ} {value : Char → ℕ}
    (marks : ∀ c ∈ ['-', '+', '.'], digit c = none) (negative : Bool) {whole fraction : List Char}
    (some_whole : whole ≠ []) (all : ∀ c ∈ whole ++ fraction, digit c = some (value c))
    : read digit (plain negative whole fraction)
      = some ⟨negative, ofDigits ((whole ++ fraction).map value), -fraction.length⟩ := by
  have unsigned (tail : List Char) : signOf (whole ++ tail) = (false, whole ++ tail) := by
    cases whole with
    | nil => exact absurd rfl some_whole
    | cons c rest =>
        have first := all c (List.mem_append_left _ List.mem_cons_self)
        rw [List.cons_append]
        unfold signOf
        split
        · rename_i same
          obtain rfl := (List.cons.inj same).1
          exact absurd first (by simp [marks])
        · rename_i same
          obtain rfl := (List.cons.inj same).1
          exact absurd first (by simp [marks])
        · rfl
  have signed (tail : List Char)
      : signOf ((if negative then ['-'] else []) ++ whole ++ tail) = (negative, whole ++ tail) := by
    cases negative with
    | true => rfl
    | false => exact unsigned tail
  have stops : ∀ c ∈ (if fraction = [] then [] else '.' :: fraction).head?, digit c = none := by
    intro c first
    split at first
    · cases first
    · obtain rfl : '.' = c := Option.some.inj first
      exact marks '.' (by simp)
  have digits := digitsOf_append (fun c there => all c (List.mem_append_left _ there)) stops
  have more : digitsOf digit fraction = (fraction.map value, []) := by
    have run : digitsOf digit (fraction ++ []) = (fraction.map value, []) :=
      digitsOf_append (fun c there => all c (List.mem_append_right whole there)) nofun
    rwa [List.append_nil] at run
  have nonempty : whole.map value ++ fraction.map value ≠ [] := by simp [some_whole]
  rw [read, plain, signed]
  simp only [digits]
  by_cases none_behind : fraction = []
  · subst none_behind
    simp [some_whole, exponentOf]
  · simp [none_behind, more, exponentOf]

theorem ofDigits_append (high low : List ℕ)
    : ofDigits (high ++ low) = ofDigits high * 10 ^ low.length + ofDigits low := by
  rw [ofDigits, List.reverse_append, Nat.ofDigits_append, List.length_reverse, Nat.add_comm,
    Nat.mul_comm]
  rfl

/-- Digits are less than the power of their number. -/
theorem ofDigits_lt {ds : List ℕ} (digits : ∀ d ∈ ds, d < 10) : ofDigits ds < 10 ^ ds.length := by
  have bound := Nat.ofDigits_lt_base_pow_length (b := 10) (l := ds.reverse) (by decide)
    fun d there => digits d (List.mem_reverse.mp there)
  rwa [List.length_reverse] at bound

theorem ofDigits_zeros (k : ℕ) : ofDigits (List.replicate k 0) = 0 := by
  rw [ofDigits, List.reverse_replicate, Nat.ofDigits_replicate_zero]

/-- Filling digits up to a length, or cutting them to it, moves the point and cuts. -/
theorem ofDigits_take {ds : List ℕ} (digits : ∀ d ∈ ds, d < 10) (k : ℕ)
    : ofDigits ((ds ++ List.replicate k 0).take k) = ofDigits ds * 10 ^ k / 10 ^ ds.length := by
  have filled : ofDigits (ds ++ List.replicate k 0) = ofDigits ds * 10 ^ k := by
    rw [ofDigits_append, ofDigits_zeros, List.length_replicate, Nat.add_zero]
  have behind : ((ds ++ List.replicate k 0).drop k).length = ds.length := by simp
  have small : ∀ d ∈ (ds ++ List.replicate k 0).drop k, d < 10 := by
    intro d there
    rcases List.mem_append.mp (List.mem_of_mem_drop there) with digit | zero
    · exact digits d digit
    · rw [List.eq_of_mem_replicate zero]
      decide
  have less := ofDigits_lt small
  rw [← filled]
  conv_rhs => rw [← List.take_append_drop k (ds ++ List.replicate k 0), ofDigits_append, behind]
  rw [behind] at less
  rw [Nat.mul_comm, Nat.mul_add_div (Nat.pow_pos (by decide)), Nat.div_eq_of_lt less, Nat.add_zero]

/-- Cutting goes toward zero on both sides of it. -/
theorem cut_neg (places : ℕ) (q : ℚ) : cut places (-q) = -cut places q := by
  unfold cut
  rcases lt_trichotomy q 0 with below | rfl | above
  · rw [if_pos (by linarith), if_neg (by linarith), neg_mul, Int.floor_neg, Int.cast_neg, neg_div]
  · simp
  · rw [if_neg (by linarith), if_pos above.le, neg_mul, Int.ceil_neg, Int.cast_neg, neg_div]

theorem toRat_negative (c : ℕ) (e : ℤ) : toRat ⟨true, c, e⟩ = -toRat ⟨false, c, e⟩ := by
  simp [toRat, sign]

/-- Cutting a number cuts its digits. -/
theorem cut_toRat (negative : Bool) (c n places : ℕ)
    : cut places (toRat ⟨negative, c, -n⟩)
      = toRat ⟨negative, c * 10 ^ places / 10 ^ n, -places⟩ := by
  have plus : cut places (toRat ⟨false, c, -n⟩)
      = toRat ⟨false, c * 10 ^ places / 10 ^ n, -places⟩ := by
    have worth (k : ℕ) (m : ℕ) : toRat ⟨false, m, -k⟩ = m / 10 ^ k := by
      simp [toRat, sign, div_eq_mul_inv]
    have moved : (c : ℚ) / 10 ^ n * 10 ^ places = ((c * 10 ^ places : ℕ) : ℚ) / (10 ^ n : ℕ) := by
      push_cast
      ring
    have nonneg : (0 : ℚ) ≤ c / 10 ^ n := by positivity
    rw [worth, worth, cut, if_pos nonneg, moved, Rat.floor_natCast_div_natCast]
    rfl
  cases negative with
  | false => exact plus
  | true => rw [toRat_negative, toRat_negative, cut_neg, plus]

end DecimalNumber
