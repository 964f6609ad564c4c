import LasseCash.Api.AiohaSigner
import LasseCash.App.Transactions

/-! The readers of the contract's answers: fixed words, and numbers in decimal digits. -/

namespace LasseCash.Api

open App State

-----------------------------------------------------------------------------------------
-- Readers
-----------------------------------------------------------------------------------------

/-- What follows `lead` in a text that starts with it. -/
def following (lead : String) (text : List Char) : Option (List Char) :=
  text.dropPrefix? lead.toList

/-- The number in front of a text, and what follows its digits. -/
def leadingNumber (text : List Char) : Option (Nat × List Char) :=
  (numeral (text.takeWhile Char.isDigit)).map (·, text.dropWhile Char.isDigit)

/-- A text of digits and nothing else. -/
def allDigits (s : String) : Bool := !s.toList.isEmpty && s.toList.all Char.isDigit

-----------------------------------------------------------------------------------------
-- Written numbers
-----------------------------------------------------------------------------------------

/-- A number is read up to the first character that is not a digit. -/
theorem leadingNumber_written (n : Nat) (rest : List Char)
    (stops : ∀ c ∈ rest.head?, c.isDigit = false)
    : leadingNumber (n.repr.toList ++ rest) = some (n, rest) := by
  have all (c : Char) (there : c ∈ n.repr.toList) : c.isDigit = true := isDigit_repr there
  have none_taken : rest.takeWhile Char.isDigit = [] := by
    cases rest with
    | nil => rfl
    | cons c rest => exact List.takeWhile_cons_of_neg (by simp [stops c rfl])
  have none_dropped : rest.dropWhile Char.isDigit = rest := by
    cases rest with
    | nil => rfl
    | cons c rest => exact List.dropWhile_cons_of_neg (by simp [stops c rfl])
  rw [leadingNumber, List.takeWhile_append_of_pos all, List.dropWhile_append_of_pos all,
    none_taken, none_dropped, List.append_nil, numeral_repr]
  rfl

/-- A text is read up to its lead. -/
theorem following_written (lead : String) (rest : List Char)
    : following lead (lead.toList ++ rest) = some rest :=
  List.dropPrefix?_append_of_beq rest (beq_self_eq_true _)

/-- No reader of digits takes a sign. -/
theorem leadingNumber_negative {v : Int} (negative : v < 0) (rest : List Char)
    : leadingNumber ((encI64 v).toList ++ rest) = none := by
  obtain ⟨n, rfl⟩ := Int.eq_negSucc_of_lt_zero negative
  rw [leadingNumber, encI64_negSucc, List.cons_append, List.takeWhile_cons_of_neg (by decide)]
  rfl

-----------------------------------------------------------------------------------------
-- Whole numbers
-----------------------------------------------------------------------------------------

theorem trim_plain {s : String} (plain : ∀ c ∈ s.toList, isBlank c = false) : trim s = s := by
  rw [trim, trimmed_plain plain, String.ofList_toList]

/-- Digits are read in base ten as the contract reads them, by induction on them. -/
theorem numeralIn_ten {digits : List Char} (all : ∀ c ∈ digits, c.isDigit)
    : numeralIn 10 digits = numeral digits := by
  have read : digits.mapM (digitIn 10) = digits.mapM digit := by
    induction digits with
    | nil => rfl
    | cons c rest ih =>
        have isDigit := all c List.mem_cons_self
        have below : c.toNat - 48 < 10 := by
          obtain ⟨lower, upper⟩ : 48 ≤ c.toNat ∧ c.toNat ≤ 57 := Char.isDigit_iff_toNat.mp isDigit
          omega
        have first : digitIn 10 c = digit c := by
          simp [digitIn, digit, isDigit, below]
        rw [List.mapM_cons, List.mapM_cons, first,
          ih fun d there => all d (List.mem_cons_of_mem _ there)]
  rw [numeralIn, numeral, read]

/-- `BigInt` reads digits as the contract does. -/
theorem bigInt_digits {s : String} {n : Nat} (read : numeral s.toList = some n)
    : bigInt s = some (n : Int) := by
  have digits := numeral_digits read
  have value : numeralIn 10 s.toList = some n := (numeralIn_ten digits).trans read
  rw [bigInt, trim_plain fun c there => isBlank_digit (digits c there)]
  generalize s.toList = text at digits value
  split
  · cases value
  all_goals rename_i rest
  · exact absurd (digits 'x' (by simp)) (by decide)
  · exact absurd (digits 'X' (by simp)) (by decide)
  · exact absurd (digits 'o' (by simp)) (by decide)
  · exact absurd (digits 'O' (by simp)) (by decide)
  · exact absurd (digits 'b' (by simp)) (by decide)
  · exact absurd (digits 'B' (by simp)) (by decide)
  · exact absurd (digits '-' (by simp)) (by decide)
  · exact absurd (digits '+' (by simp)) (by decide)
  · rw [value]
    rfl

/-- `BigInt` reads what the contract writes. -/
theorem bigInt_encI64 (v : Int) : bigInt (encI64 v) = some v := by
  cases v with
  | ofNat n => exact bigInt_digits (numeral_repr n)
  | negSucc n =>
      have digits (c : Char) (there : c ∈ (n + 1).repr.toList) : c.isDigit := isDigit_repr there
      have whole : ∀ c ∈ (encI64 (Int.negSucc n)).toList, isBlank c = false := by
        rw [encI64_negSucc]
        exact List.forall_mem_cons.mpr ⟨by decide, fun c there => isBlank_digit (digits c there)⟩
      rw [bigInt, trim_plain whole, encI64_negSucc]
      change (numeralIn 10 (n + 1).repr.toList).map (fun n => -(n : Int)) = _
      rw [numeralIn_ten digits, numeral_repr]
      rfl

/-- A first field that is a written number is the number that the contract reads there. -/
theorem u64_of_field {payload : String} {id written : Nat}
    (plain : field payload 0 = some (toString written)) (read : (parseArgs payload).u64 0 = some id)
    : id = written := by
  have some_there : payload ≠ "" := by
    rintro rfl
    cases read
  have first : (parseArgs payload)[0]? = some written.repr := by
    rw [parseArgs, if_neg some_there, List.getElem?_map]
    exact plain
  have value : (parseArgs payload).u64 0 = parseUint written.repr := by
    have text : (parseArgs payload).str 0 = written.repr := by
      rw [Args.str, first, Option.getD_some, trimSpace_repr]
    rw [Args.u64, text, if_neg Nat.repr_ne_empty]
  rw [value, parseUint, numeral_repr] at read
  exact (Option.some.inj (Option.filter_eq_some_iff.mp read).1).symm

/-- An amount whose field is all digits is the amount that `BigInt` reads there. -/
theorem bigInt_amount {payload text : String} {i : Nat} {v : Int}
    (read : (parseArgs payload).amount i = some v) (there : field payload i = some text)
    (digits : allDigits text = true)
    : bigInt text = some v := by
  have all : ∀ c ∈ text.toList, c.isDigit := by
    simp only [allDigits, Bool.and_eq_true, List.all_eq_true] at digits
    exact digits.2
  obtain ⟨text', there', parsed⟩ := field_of_amount read
  obtain rfl := Option.some.inj (there.symm.trans there')
  have untrimmed : trimSpace text = text := by
    rw [trimSpace, trimmed_plain fun c there => isSpace_digit (all c there), String.ofList_toList]
  have unsigned (c : Char) (there : c ∈ text.toList) : c ≠ '-' ∧ c ≠ '+' := by
    constructor <;> rintro rfl <;> exact absurd (all _ there) (by decide)
  rw [untrimmed] at parsed
  obtain ⟨n, value, rfl⟩ := Option.map_eq_some_iff.mp (parseInt_unsigned unsigned parsed)
  exact bigInt_digits value

end LasseCash.Api
