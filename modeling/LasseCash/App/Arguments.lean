import LasseCash.State.Migration

/-! The arguments of an entrypoint: pipe-delimited fields of one payload string,
`contract/state/codec.go`.
-/

namespace LasseCash.App

open MachineInt State

-----------------------------------------------------------------------------------------
-- Numerals
-----------------------------------------------------------------------------------------

/-- The value of a character as a decimal digit. -/
def digit (c : Char) : Option Nat := if c.isDigit then some (c.toNat - 48) else none

/-- The number that a nonempty run of digits writes. -/
def numeral (digits : List Char) : Option Nat :=
  if digits.isEmpty then none
  else (digits.mapM digit).map fun ds => ds.foldl (fun v d => v * 10 + d) 0

/-- A signed 64-bit decimal, with an optional sign. -/
def parseInt (s : String) : Option Int :=
  let signed :=
    match s.toList with
    | '-' :: digits => (numeral digits).map fun n => -(n : Int)
    | '+' :: digits => (numeral digits).map Int.ofNat
    | digits => (numeral digits).map Int.ofNat
  signed.filter fun v => decide (-2 ^ 63 ≤ v ∧ v < 2 ^ 63)

/-- An unsigned 64-bit decimal, without a sign. -/
def parseUint (s : String) : Option Nat :=
  (numeral s.toList).filter fun v => decide (v < 2 ^ 64)

-----------------------------------------------------------------------------------------
-- Arguments
-----------------------------------------------------------------------------------------

/-- The fields of a payload, in order. -/
abbrev Args := List String

def parseArgs (payload : String) : Args :=
  if payload = "" then [] else (payload.toList.splitOn '|').map String.ofList

namespace Args

/-- A field without the white space around it, empty when it is absent. -/
def str (args : Args) (i : Nat) : String := trimSpace (args[i]?.getD "")

def i64 (args : Args) (i : Nat) : Option Int :=
  if args.str i = "" then none else parseInt (args.str i)

def u64 (args : Args) (i : Nat) : Option Nat :=
  if args.str i = "" then none else parseUint (args.str i)

/-- An amount is never negative. -/
def amount (args : Args) (i : Nat) : Option Int := (args.i64 i).filter fun v => decide (0 ≤ v)

end Args

/-- The hashes of a Merkle proof, separated by commas. -/
def parseProof (arg : String) : List String :=
  if arg = "" then [] else (arg.toList.splitOn ',').map String.ofList

-----------------------------------------------------------------------------------------
-- Written numbers
-----------------------------------------------------------------------------------------

/-- A run of digits is read digit by digit. -/
theorem numeral_of_digits {digits : List Char} (some_there : digits ≠ [])
    (all : ∀ c ∈ digits, c.isDigit)
    : numeral digits = some (Nat.ofDigitChars 10 digits 0) := by
  have read : digits.mapM digit = some (digits.map fun c => c.toNat - 48) := by
    clear some_there
    induction digits with
    | nil => rfl
    | cons c rest ih =>
        have first : digit c = some (c.toNat - 48) := if_pos (all c List.mem_cons_self)
        rw [List.mapM_cons, first, ih fun d there => all d (List.mem_cons_of_mem _ there)]
        rfl
  rw [numeral, if_neg (by simpa using some_there), read, Option.map_some, List.foldl_map,
    Nat.ofDigitChars_eq_foldl]
  simp only [Nat.mul_comm]
  rfl

theorem isDigit_repr {n : Nat} {c : Char} (there : c ∈ n.repr.toList) : c.isDigit := by
  rw [Nat.toList_repr] at there
  exact Nat.isDigit_of_mem_toDigits (by decide) (by decide) there

/-- A written number is read back. -/
theorem numeral_repr (n : Nat) : numeral n.repr.toList = some n := by
  have some_there : n.repr.toList ≠ [] := by
    rw [Nat.toList_repr]
    exact Nat.toDigits_ne_nil
  rw [numeral_of_digits some_there fun c there => isDigit_repr there, Nat.toList_repr,
    Nat.ofDigitChars_ten_toDigits]

/-- A non-negative number is written without a sign. -/
theorem encI64_of_nonneg {v : Int} (nonneg : 0 ≤ v) : encI64 v = v.toNat.repr := by
  obtain ⟨n, rfl⟩ := Int.eq_ofNat_of_zero_le nonneg
  rfl

/-- A negative number is written with its sign in front. -/
theorem encI64_negSucc (n : Nat) : (encI64 (Int.negSucc n)).toList = '-' :: (n + 1).repr.toList := by
  change ("-" ++ (n + 1).repr).toList = _
  rw [String.toList_append]
  rfl

/-- No bar stands in a written number. -/
theorem bar_not_written (v : Int) : '|' ∉ (encI64 v).toList := by
  intro there
  cases v with
  | ofNat n => exact absurd (isDigit_repr (n := n) there) (by decide)
  | negSucc n =>
      rw [encI64_negSucc] at there
      rcases List.mem_cons.mp there with sign | digit
      · exact absurd sign (by decide)
      · exact absurd (isDigit_repr digit) (by decide)

/-- Nothing is trimmed off a text without blanks. -/
theorem trimmed_plain {blank : Char → Bool} {text : List Char}
    (plain : ∀ c ∈ text, blank c = false)
    : ((text.dropWhile blank).reverse.dropWhile blank).reverse = text := by
  have front {text : List Char} (plain : ∀ c ∈ text, blank c = false)
      : text.dropWhile blank = text := by
    cases text with
    | nil => rfl
    | cons c rest => exact List.dropWhile_cons_of_neg (by simp [plain c List.mem_cons_self])
  rw [front plain, front fun c there => plain c (List.mem_reverse.mp there), List.reverse_reverse]

theorem isSpace_digit {c : Char} (digit : c.isDigit) : isSpace c = false := by
  obtain ⟨lower, upper⟩ : 48 ≤ c.toNat ∧ c.toNat ≤ 57 := Char.isDigit_iff_toNat.mp digit
  simp only [isSpace, List.mem_cons, List.not_mem_nil, or_false]
  simp
  omega

/-- The contract trims nothing off a written number. -/
theorem trimSpace_repr (n : Nat) : trimSpace n.repr = n.repr := by
  rw [trimSpace, trimmed_plain fun c there => isSpace_digit (isDigit_repr there),
    String.ofList_toList]

/-- Nor off a written number with a sign. -/
theorem trimSpace_encI64 (v : Int) : trimSpace (encI64 v) = encI64 v := by
  cases v with
  | ofNat n => exact trimSpace_repr n
  | negSucc n =>
      have whole : ∀ c ∈ (encI64 (Int.negSucc n)).toList, isSpace c = false := by
        rw [encI64_negSucc]
        exact List.forall_mem_cons.mpr ⟨by decide, fun c there => isSpace_digit (isDigit_repr there)⟩
      rw [trimSpace, trimmed_plain whole, String.ofList_toList]

/-- A written integer is read back where it fits in a signed word; any other is refused. -/
theorem parseInt_written (v : Int)
    : parseInt (encI64 v) = if -2 ^ 63 ≤ v ∧ v < 2 ^ 63 then some v else none := by
  have signed : (match (encI64 v).toList with
      | '-' :: digits => (numeral digits).map fun n => -(n : Int)
      | '+' :: digits => (numeral digits).map Int.ofNat
      | digits => (numeral digits).map Int.ofNat) = some v := by
    cases v with
    | ofNat n =>
        have digits (c : Char) (there : c ∈ (encI64 (.ofNat n)).toList) : c.isDigit :=
          isDigit_repr (n := n) there
        have read : numeral (encI64 (.ofNat n)).toList = some n := numeral_repr n
        generalize (encI64 (.ofNat n)).toList = text at digits read
        split
        · exact absurd (digits '-' List.mem_cons_self) (by decide)
        · exact absurd (digits '+' List.mem_cons_self) (by decide)
        · rw [read]
          rfl
    | negSucc n =>
        rw [encI64_negSucc]
        simp only [numeral_repr]
        rfl
  rw [parseInt, signed]
  simp only [Option.filter_some, decide_eq_true_eq]

/-- A signed word is read back. -/
theorem parseInt_encI64 {v : Int} (word : -2 ^ 63 ≤ v ∧ v < 2 ^ 63)
    : parseInt (encI64 v) = some v := by
  rw [parseInt_written, if_pos word]

/-- An unsigned word is read back. -/
theorem parseUint_encU64 {v : Nat} (word : v < 2 ^ 64) : parseUint (encU64 v) = some v := by
  rw [parseUint, encU64, toString, instToStringNat, numeral_repr]
  exact Option.filter_eq_some_iff.mpr ⟨rfl, decide_eq_true word⟩

end LasseCash.App
