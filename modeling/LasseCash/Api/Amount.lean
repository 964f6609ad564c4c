import LasseCash.Api.Answers
import LasseCash.Lib.DecimalNumber
import Mathlib.Computability.RegularExpressions

/-! Amounts of `api/src/amount.ts`: decimal texts on the wire and base units in every computation. What
the source throws is the text of its error here.
-/

namespace LasseCash.Api.Amount

open App DecimalNumber

-----------------------------------------------------------------------------------------
-- The source
-----------------------------------------------------------------------------------------

/-- Base units in one LASSECASH. -/
def unit : Int := 100000000

def decimals : Nat := 8

/-- What the pattern of an amount tells apart. -/
inductive Mark
  | minus
  | digit
  | point
  | other
  deriving DecidableEq

def mark (c : Char) : Mark :=
  if c = '-' then .minus
  else if c.isDigit then .digit
  else if c = '.' then .point
  else .other

section Pattern

open RegularExpression

/-- An optional sign, digits and an optional fraction: `^-?\d+(\.\d+)?$`. -/
def amountPattern : RegularExpression Mark :=
  let digits := char .digit * star (char .digit)
  (1 + char .minus) * digits * (1 + char .point * digits)

end Pattern

/-- `BigInt` of a text. -/
def bigIntOf (s : String) : Except String Int :=
  match bigInt s with
  | some n => .ok n
  | none => .error ("Cannot convert " ++ s ++ " to a BigInt")

/-- Parses a decimal amount into base units. -/
def toUnits (amount : String) : Except String Int := do
  let s := (trim amount).toList
  if !amountPattern.rmatch (s.map mark) then
    throw ("not a valid amount: " ++ stringify amount)
  let neg : Bool := s.head? = some '-'
  let body := if neg then s.drop 1 else s
  let parts := body.splitOn '.'
  let whole := parts.getD 0 ['0']
  let frac := parts.getD 1 []
  let padded := (frac ++ List.replicate decimals '0').take decimals
  let units := (← bigIntOf (.ofList whole)) * unit + (← bigIntOf (.ofList padded))
  return if neg then -units else units

/-- A text filled up with zeros in front. -/
def padStart (s : String) (length : Nat) : String :=
  .ofList (List.replicate (length - s.length) '0') ++ s

/-- Renders base units with eight decimals. -/
def fromUnits (units : Int) : String :=
  let neg : Bool := units < 0
  let v := if neg then -units else units
  let whole := v.tdiv unit
  let frac := v.tmod unit
  (if neg then "-" else "") ++ toString whole ++ "." ++ padStart (toString frac) decimals

/-- The canonical form of an amount. -/
def normalize (amount : String) : Except String String := do
  return fromUnits (← toUnits amount)

def compare (a b : String) : Except String Int := do
  let x ← toUnits a
  let y ← toUnits b
  return if x < y then -1 else if x > y then 1 else 0

def add (amounts : List String) : Except String String := do
  return fromUnits (← amounts.foldlM (fun acc a => do return acc + (← toUnits a)) 0)

/-- What a person types as the base units that an entrypoint takes. -/
def toBaseUnitArg (input : String) : Except String String := do
  let units ← toUnits input
  if units < 0 then
    throw "amount cannot be negative"
  return toString units

-----------------------------------------------------------------------------------------
-- The texts of amounts
-----------------------------------------------------------------------------------------

/-- A run of one mark, of any length but none. -/
theorem run_rmatch {m : Mark} {marks : List Mark}
    : (RegularExpression.char m * (RegularExpression.char m).star).rmatch marks
      ↔ marks ≠ [] ∧ ∀ x ∈ marks, x = m := by
  rw [RegularExpression.mul_rmatch_iff]
  constructor
  · rintro ⟨front, back, rfl, first, more⟩
    obtain ⟨runs, rfl, each⟩ := (RegularExpression.star_rmatch_iff _ _).mp more
    rw [RegularExpression.char_rmatch_iff] at first
    subst first
    refine ⟨by simp, fun x there => ?_⟩
    rcases List.mem_append.mp there with here | later
    · exact List.mem_singleton.mp here
    · obtain ⟨run, one, within⟩ := List.mem_flatten.mp later
      rw [(RegularExpression.char_rmatch_iff _ _).mp (each run one).2] at within
      exact List.mem_singleton.mp within
  · rintro ⟨some_mark, all⟩
    cases marks with
    | nil => exact absurd rfl some_mark
    | cons x rest =>
        obtain rfl := all x List.mem_cons_self
        refine ⟨[x], rest, rfl, (RegularExpression.char_rmatch_iff _ _).mpr rfl,
          (RegularExpression.star_rmatch_iff _ _).mpr
            ⟨rest.map ([·]), (List.flatMap_singleton' rest).symm, fun run one => ?_⟩⟩
        obtain ⟨y, there, rfl⟩ := List.mem_map.mp one
        rw [all y (List.mem_cons_of_mem _ there)]
        exact ⟨List.cons_ne_nil _ _, (RegularExpression.char_rmatch_iff _ _).mpr rfl⟩

theorem mark_eq_minus {c : Char} : mark c = .minus ↔ c = '-' := by
  unfold mark
  split
  · simp [*]
  · split
    · simp [*]
    · split <;> simp [*]

theorem mark_eq_digit {c : Char} : mark c = .digit ↔ c.isDigit := by
  unfold mark
  split
  · rename_i minus
    subst minus
    decide
  · split
    · simp [*]
    · split <;> simp [*]

theorem mark_eq_point {c : Char} : mark c = .point ↔ c = '.' := by
  unfold mark
  split
  · rename_i minus
    subst minus
    decide
  · split
    · rename_i digit
      simp only [reduceCtorEq, false_iff]
      rintro rfl
      exact absurd digit (by decide)
    · split <;> simp [*]

/-- (Digits text) says that a text is digits and nothing else. -/
def Digits (text : List Char) : Prop := ∀ c ∈ text, c.isDigit

theorem digits_rmatch {text : List Char}
    : (RegularExpression.char Mark.digit * (RegularExpression.char Mark.digit).star).rmatch
        (text.map mark)
      ↔ text ≠ [] ∧ Digits text := by
  rw [run_rmatch]
  simp [Digits, mark_eq_digit]

/-- A product of patterns takes a text in two parts. -/
theorem mul_rmatch_map (P Q : RegularExpression Mark) {text : List Char}
    : (P * Q).rmatch (text.map mark)
      ↔ ∃ front back, text = front ++ back ∧ P.rmatch (front.map mark)
        ∧ Q.rmatch (back.map mark) := by
  rw [RegularExpression.mul_rmatch_iff]
  constructor
  · rintro ⟨front, back, split, first, second⟩
    obtain ⟨front, back, rfl, rfl, rfl⟩ := List.map_eq_append_iff.mp split
    exact ⟨front, back, rfl, first, second⟩
  · rintro ⟨front, back, rfl, first, second⟩
    exact ⟨_, _, List.map_append, first, second⟩

theorem sign_rmatch {text : List Char}
    : (1 + RegularExpression.char Mark.minus).rmatch (text.map mark)
      ↔ ∃ negative : Bool, text = if negative then ['-'] else [] := by
  rw [RegularExpression.add_rmatch_iff, RegularExpression.one_rmatch_iff,
    RegularExpression.char_rmatch_iff, List.map_eq_nil_iff, List.map_eq_singleton_iff]
  simp [mark_eq_minus]

theorem fraction_rmatch {text : List Char}
    : (1 + RegularExpression.char Mark.point
        * (RegularExpression.char Mark.digit * (RegularExpression.char Mark.digit).star)).rmatch
        (text.map mark)
      ↔ ∃ fraction, Digits fraction ∧ text = if fraction = [] then [] else '.' :: fraction := by
  rw [RegularExpression.add_rmatch_iff, RegularExpression.one_rmatch_iff, mul_rmatch_map,
    List.map_eq_nil_iff]
  simp only [RegularExpression.char_rmatch_iff, List.map_eq_singleton_iff, mark_eq_point,
    digits_rmatch]
  constructor
  · rintro (rfl | ⟨_, fraction, rfl, ⟨c, rfl, rfl⟩, some_digit, digits⟩)
    · exact ⟨[], nofun, rfl⟩
    · exact ⟨fraction, digits, by rw [if_neg some_digit]; rfl⟩
  · rintro ⟨fraction, digits, rfl⟩
    split
    · exact .inl rfl
    · rename_i some_digit
      exact .inr ⟨['.'], fraction, rfl, ⟨'.', rfl, rfl⟩, some_digit, digits⟩

/-- The pattern takes exactly the plain numbers. -/
theorem amountPattern_iff {text : List Char}
    : amountPattern.rmatch (text.map mark)
      ↔ ∃ negative whole fraction, whole ≠ [] ∧ Digits (whole ++ fraction)
        ∧ text = plain negative whole fraction := by
  rw [amountPattern, mul_rmatch_map]
  simp only [mul_rmatch_map (1 + RegularExpression.char Mark.minus), sign_rmatch, digits_rmatch,
    fraction_rmatch]
  constructor
  · rintro ⟨_, _, rfl, ⟨_, whole, rfl, ⟨negative, rfl⟩, some_whole, digits⟩, fraction, more, rfl⟩
    exact ⟨negative, whole, fraction, some_whole, List.forall_mem_append.mpr ⟨digits, more⟩, rfl⟩
  · rintro ⟨negative, whole, fraction, some_whole, digits, rfl⟩
    obtain ⟨digits, more⟩ := List.forall_mem_append.mp digits
    exact ⟨_, _, rfl, ⟨_, whole, rfl, ⟨negative, rfl⟩, some_whole, digits⟩, fraction, more, rfl⟩

-----------------------------------------------------------------------------------------
-- Reading and writing
-----------------------------------------------------------------------------------------

/-- The value of a digit. -/
def digitValue (c : Char) : Nat := c.toNat - 48

theorem digit_of_isDigit {c : Char} (isDigit : c.isDigit) : digit c = some (digitValue c) :=
  if_pos isDigit

theorem digitValue_lt {c : Char} (isDigit : c.isDigit) : digitValue c < 10 := by
  obtain ⟨lower, upper⟩ : 48 ≤ c.toNat ∧ c.toNat ≤ 57 := Char.isDigit_iff_toNat.mp isDigit
  unfold digitValue
  omega

/-- The number of a text of digits. -/
theorem ofDigitChars_eq (text : List Char)
    : Nat.ofDigitChars 10 text 0 = ofDigits (text.map digitValue) := by
  rw [Nat.ofDigitChars_eq_foldl, ofDigits, Nat.ofDigits_eq_foldr, List.foldr_reverse, List.foldl_map]
  exact congrArg (text.foldl · 0) (funext₂ fun n c => Nat.add_comm (10 * n) (digitValue c))

/-- `BigInt` takes digits. -/
theorem bigIntOf_digits {text : List Char} (some_digit : text ≠ []) (digits : Digits text)
    : bigIntOf (.ofList text) = .ok (ofDigits (text.map digitValue) : Int) := by
  have read : numeral (String.ofList text).toList = some (ofDigits (text.map digitValue)) := by
    rw [String.toList_ofList, numeral_of_digits some_digit digits, ofDigitChars_eq]
  rw [bigIntOf, bigInt_digits read]

/-- The whole part and the fraction of a plain number, split at the point. -/
theorem splitOn_plain {whole fraction : List Char} (digits : Digits (whole ++ fraction))
    : let parts := (whole ++ if fraction = [] then [] else '.' :: fraction).splitOn '.'
      parts.getD 0 ['0'] = whole ∧ parts.getD 1 [] = fraction := by
  have no_point (c : Char) (there : c ∈ whole ++ fraction) : (c == '.') = false := by
    refine beq_eq_false_iff_ne.mpr ?_
    rintro rfl
    exact absurd (digits '.' there) (by decide)
  have one {part : List Char} (within : part ⊆ whole ++ fraction) : part.splitOn '.' = [part] :=
    List.splitOnP_eq_singleton fun c there => no_point c (within there)
  have first := one (List.subset_append_left whole fraction)
  have second := one (List.subset_append_right whole fraction)
  split
  · rename_i none_behind
    rw [List.append_nil, first, none_behind]
    exact ⟨rfl, rfl⟩
  · rw [List.splitOn_append_cons_self, first, second]
    exact ⟨rfl, rfl⟩

/-- The digits behind the point, filled up or cut to eight. -/
theorem padded_digits {fraction : List Char} (digits : Digits fraction)
    : let padded := (fraction ++ List.replicate decimals '0').take decimals
      padded ≠ [] ∧ Digits padded
        ∧ ofDigits (padded.map digitValue)
          = ofDigits (fraction.map digitValue) * 10 ^ decimals / 10 ^ fraction.length := by
  have length : ((fraction ++ List.replicate decimals '0').take decimals).length = decimals := by
    simp
  refine ⟨?_, fun c there => ?_, ?_⟩
  · exact List.ne_nil_of_length_pos (by rw [length]; decide)
  · rcases List.mem_append.mp (List.mem_of_mem_take there) with digit | zero
    · exact digits c digit
    · rw [List.eq_of_mem_replicate zero]
      decide
  · have small : ∀ d ∈ fraction.map digitValue, d < 10 := by
      intro d there
      obtain ⟨c, inside, rfl⟩ := List.mem_map.mp there
      exact digitValue_lt (digits c inside)
    have value := ofDigits_take small decimals
    rw [List.length_map] at value
    rw [List.map_take, List.map_append, List.map_replicate]
    exact value

/-- The base units of a plain number. -/
def unitsOf (negative : Bool) (whole fraction : List Char) : Int :=
  let v : Nat := ofDigits ((whole ++ fraction).map digitValue) * 10 ^ decimals
    / 10 ^ fraction.length
  if negative then -v else v

/-- A plain number is accepted for its base units, without the places behind the eighth. -/
theorem toUnits_plain {s : String} {negative : Bool} {whole fraction : List Char}
    (some_whole : whole ≠ []) (digits : Digits (whole ++ fraction))
    (text : (trim s).toList = plain negative whole fraction)
    : toUnits s = .ok (unitsOf negative whole fraction) := by
  have taken : amountPattern.rmatch ((trim s).toList.map mark) = true :=
    amountPattern_iff.mpr ⟨negative, whole, fraction, some_whole, digits, text⟩
  have sign : decide ((trim s).toList.head? = some '-') = negative := by
    rw [text, plain]
    cases negative with
    | true => rfl
    | false =>
        cases whole with
        | nil => exact absurd rfl some_whole
        | cons c rest =>
            have unsigned : c ≠ '-' := by
              rintro rfl
              exact absurd (digits '-' List.mem_cons_self) (by decide)
            simp [unsigned]
  have body : (if negative then (trim s).toList.drop 1 else (trim s).toList)
      = whole ++ if fraction = [] then [] else '.' :: fraction := by
    rw [text, plain]
    cases negative <;> rfl
  obtain ⟨first, second⟩ := splitOn_plain digits
  obtain ⟨whole_digits, fraction_digits⟩ := List.forall_mem_append.mp digits
  obtain ⟨some_padded, padded, value⟩ := padded_digits fraction_digits
  have read := bigIntOf_digits some_whole whole_digits
  have read' := bigIntOf_digits some_padded padded
  have units : (ofDigits (whole.map digitValue) : Int) * unit
        + (ofDigits (fraction.map digitValue) * 10 ^ decimals / 10 ^ fraction.length : Nat)
      = (ofDigits ((whole ++ fraction).map digitValue) * 10 ^ decimals / 10 ^ fraction.length
        : Nat) := by
    have moved : ofDigits ((whole ++ fraction).map digitValue) * 10 ^ decimals
        = 10 ^ fraction.length * (ofDigits (whole.map digitValue) * 10 ^ decimals)
          + ofDigits (fraction.map digitValue) * 10 ^ decimals := by
      rw [List.map_append, ofDigits_append, List.length_map]
      ring
    rw [moved, Nat.mul_add_div (Nat.pow_pos (by decide))]
    push_cast
    rfl
  rw [value] at read'
  simp only [toUnits, taken, sign, body, first, second, read, read', unitsOf, ← units]
  rfl

/-- What is accepted is a plain number; all else is thrown back under its name. -/
theorem toUnits_cases (s : String)
    : (∃ negative whole fraction, whole ≠ [] ∧ Digits (whole ++ fraction)
        ∧ (trim s).toList = plain negative whole fraction
        ∧ toUnits s = .ok (unitsOf negative whole fraction))
      ∨ toUnits s = .error ("not a valid amount: " ++ stringify s) := by
  by_cases taken : amountPattern.rmatch ((trim s).toList.map mark) = true
  · obtain ⟨negative, whole, fraction, some_whole, digits, text⟩ := amountPattern_iff.mp taken
    exact .inl ⟨negative, whole, fraction, some_whole, digits, text,
      toUnits_plain some_whole digits text⟩
  · right
    simp only [toUnits, Bool.not_eq_true _ ▸ taken]
    rfl

/-- A number filled up with zeros keeps its value. -/
theorem padStart_digits {n : Nat} (small : n < 10 ^ decimals)
    : let padded := (padStart n.repr decimals).toList
      padded.length = decimals ∧ Digits padded ∧ ofDigits (padded.map digitValue) = n := by
  have text : (padStart n.repr decimals).toList
      = List.replicate (decimals - n.repr.length) '0' ++ n.repr.toList := by
    rw [padStart, String.toList_append, String.toList_ofList]
  have short : n.repr.length ≤ decimals := (Nat.length_repr_le_iff (by decide)).mpr small
  rw [text]
  refine ⟨?_, fun c there => ?_, ?_⟩
  · rw [List.length_append, List.length_replicate, String.length_toList]
    omega
  · rcases List.mem_append.mp there with zero | digit
    · rw [List.eq_of_mem_replicate zero]
      decide
    · exact isDigit_repr digit
  · have zeros : List.replicate (decimals - n.repr.length) (digitValue '0')
        = List.replicate (decimals - n.repr.length) 0 := rfl
    rw [List.map_append, List.map_replicate, ofDigits_append, zeros, ofDigits_zeros, Nat.zero_mul,
      Nat.zero_add, ← ofDigitChars_eq, Nat.toList_repr, Nat.ofDigitChars_ten_toDigits]

/-- Base units are written as a plain number of eight places. -/
theorem fromUnits_plain (u : Int)
    : ∃ whole fraction, whole ≠ [] ∧ Digits (whole ++ fraction) ∧ fraction.length = decimals
      ∧ (fromUnits u).toList = plain (decide (u < 0)) whole fraction
      ∧ ofDigits ((whole ++ fraction).map digitValue) = u.natAbs := by
  have parts : (if decide (u < 0) then -u else u) = (u.natAbs : Int) := by
    by_cases negative : u < 0
    · simp only [negative, decide_true, if_true]
      omega
    · simp only [negative, decide_false, Bool.false_eq_true, if_false]
      omega
  generalize u.natAbs = v at parts ⊢
  obtain ⟨length, padded, value⟩ := padStart_digits (n := v % 10 ^ decimals)
    (Nat.mod_lt v (Nat.pow_pos (by decide)))
  refine ⟨(v / 10 ^ decimals).repr.toList, (padStart (v % 10 ^ decimals).repr decimals).toList,
    ?_, ?_, length, ?_, ?_⟩
  · rw [Nat.toList_repr]
    exact Nat.toDigits_ne_nil
  · exact List.forall_mem_append.mpr ⟨fun c there => isDigit_repr there, padded⟩
  · have behind : (padStart (v % 10 ^ decimals).repr decimals).toList ≠ [] :=
      List.ne_nil_of_length_pos (by rw [length]; decide)
    have sign : (if decide (u < 0) = true then "-" else "").toList
        = if decide (u < 0) = true then ['-'] else [] := by
      split <;> rfl
    rw [fromUnits]
    simp only [parts]
    rw [String.toList_append, String.toList_append, String.toList_append, sign, plain, if_neg behind,
      List.append_assoc]
    rfl
  · rw [List.map_append, ofDigits_append, List.length_map, length, value, ← ofDigitChars_eq,
      Nat.toList_repr, Nat.ofDigitChars_ten_toDigits]
    exact Nat.div_add_mod' v _

theorem trim_fromUnits (u : Int) : trim (fromUnits u) = fromUnits u := by
  obtain ⟨whole, fraction, -, digits, -, text, -⟩ := fromUnits_plain u
  refine trim_plain fun c there => ?_
  obtain ⟨whole_digits, fraction_digits⟩ := List.forall_mem_append.mp digits
  rw [text, plain] at there
  rcases List.mem_append.mp there with before | behind
  · rcases List.mem_append.mp before with sign | digit
    · split at sign
      · rw [List.mem_singleton.mp sign]
        decide
      · cases sign
    · exact isBlank_digit (whole_digits c digit)
  · split at behind
    · cases behind
    · rcases List.mem_cons.mp behind with rfl | digit
      · decide
      · exact isBlank_digit (fraction_digits c digit)

-----------------------------------------------------------------------------------------
-- Worth
-----------------------------------------------------------------------------------------

/-- The number that a decimal text denotes, whatever white space is around it. -/
def denoted (s : String) : Option ℚ := (read digit (trim s).toList).map toRat

theorem denoted_plain {s : String} {negative : Bool} {whole fraction : List Char}
    (some_whole : whole ≠ []) (digits : Digits (whole ++ fraction))
    (text : (trim s).toList = plain negative whole fraction)
    : denoted s = some (toRat
        ⟨negative, ofDigits ((whole ++ fraction).map digitValue), -fraction.length⟩) := by
  have values : ∀ c ∈ whole ++ fraction, digit c = some (digitValue c) :=
    fun c there => digit_of_isDigit (digits c there)
  rw [denoted, text, read_plain (by simp [digit]) negative some_whole values]
  rfl

/-- Base units of eight places are the amount. -/
theorem toRat_units (negative : Bool) (v : Nat)
    : toRat ⟨negative, v, -decimals⟩ = ((if negative then -v else v : Int) : ℚ) / 10 ^ decimals := by
  cases negative <;> simp [toRat, sign, div_eq_mul_inv]

theorem signed_natAbs (u : Int)
    : (if decide (u < 0) = true then -(u.natAbs : Int) else u.natAbs) = u := by
  split
  · rename_i negative
    rw [Int.ofNat_natAbs_of_nonpos (of_decide_eq_true negative).le, neg_neg]
  · rename_i nonneg
    exact Int.natAbs_of_nonneg (by simpa using nonneg)

/-- What is written denotes the base units, in whole LASSECASH. -/
theorem denoted_fromUnits (u : Int) : denoted (fromUnits u) = some ((u : ℚ) / 10 ^ decimals) := by
  obtain ⟨whole, fraction, some_whole, digits, places, text, value⟩ := fromUnits_plain u
  rw [denoted_plain some_whole digits (by rw [trim_fromUnits, text]), value, places, toRat_units,
    signed_natAbs]

/-- Base units are read back from what is written. -/
theorem toUnits_fromUnits (u : Int) : toUnits (fromUnits u) = .ok u := by
  obtain ⟨whole, fraction, some_whole, digits, places, text, value⟩ := fromUnits_plain u
  rw [toUnits_plain some_whole digits (by rw [trim_fromUnits, text]), unitsOf, value, places,
    Nat.mul_div_cancel _ (Nat.pow_pos (by decide))]
  exact congrArg Except.ok (signed_natAbs u)

/-- What is accepted denotes a number, and its base units that number cut to eight places. -/
theorem toUnits_cut {s : String} {u : Int} (accepted : toUnits s = .ok u)
    : ∃ q, denoted s = some q ∧ (u : ℚ) / 10 ^ decimals = cut decimals q := by
  rcases toUnits_cases s with ⟨negative, whole, fraction, some_whole, digits, text, units⟩ | thrown
  · obtain rfl := Except.ok.inj (accepted.symm.trans units)
    refine ⟨_, denoted_plain some_whole digits text, ?_⟩
    rw [cut_toRat, toRat_units]
    rfl
  · rw [thrown] at accepted
    cases accepted

/-- Amounts survive the way to a text and back, and a text that is accepted comes back as the number it
denotes, cut to eight places.
-/
theorem amounts_round_trip
    : (∀ u, toUnits (fromUnits u) = .ok u)
      ∧ ∀ s u, toUnits s = .ok u
        → ∃ q, denoted s = some q ∧ denoted (fromUnits u) = some (cut decimals q) := by
  refine ⟨toUnits_fromUnits, fun s u accepted => ?_⟩
  obtain ⟨q, number, worth⟩ := toUnits_cut accepted
  exact ⟨q, number, by rw [denoted_fromUnits, worth]⟩

/-- A negative number of nine places within white space is cut toward zero. -/
theorem amounts_round_trip_negative
    : toUnits (fromUnits (-1)) = .ok (-1)
      ∧ toUnits " -1.234567899" = .ok (-123456789)
      ∧ ∃ q, denoted " -1.234567899" = some q
        ∧ denoted (fromUnits (-123456789)) = some (cut decimals q) :=
  have accepted : toUnits " -1.234567899" = .ok (-123456789) := by decide +kernel
  ⟨amounts_round_trip.1 (-1), accepted, amounts_round_trip.2 _ _ accepted⟩

-----------------------------------------------------------------------------------------
-- Amounts in computations
-----------------------------------------------------------------------------------------

/-- A computation that returns has had its first part return. -/
theorem returned {α β : Type} {x : Except String α} {f : α → Except String β} {b : β}
    (ran : x >>= f = .ok b)
    : ∃ a, x = .ok a ∧ f a = .ok b := by
  cases x with
  | error message => cases ran
  | ok a => exact ⟨a, rfl, ran⟩

/-- A canonical form is canonical, and denotes what the amount denotes, cut to eight places: the round
trips, for the two in a row.
-/
theorem normalize_canonical {s t : String} (accepted : normalize s = .ok t)
    : normalize t = .ok t ∧ ∃ q, denoted s = some q ∧ denoted t = some (cut decimals q) := by
  obtain ⟨u, read, written⟩ := returned accepted
  obtain rfl : fromUnits u = t := Except.ok.inj written
  obtain ⟨q, number, worth⟩ := toUnits_cut read
  refine ⟨?_, q, number, by rw [denoted_fromUnits, worth]⟩
  rw [normalize, toUnits_fromUnits]
  rfl

/-- White space and a ninth place are gone from the canonical form. -/
theorem normalize_canonical_spaced
    : normalize " -1.234567899" = .ok "-1.23456789"
      ∧ normalize "-1.23456789" = .ok "-1.23456789"
      ∧ ∃ q, denoted " -1.234567899" = some q
        ∧ denoted "-1.23456789" = some (cut decimals q) :=
  have accepted : normalize " -1.234567899" = .ok "-1.23456789" := by decide +kernel
  ⟨accepted, normalize_canonical accepted⟩

/-- Comparing amounts compares the numbers they denote, cut to eight places. -/
theorem compare_denoted {a b : String} {order : Int} (accepted : compare a b = .ok order)
    : ∃ p q, denoted a = some p ∧ denoted b = some q
      ∧ (order < 0 ↔ cut decimals p < cut decimals q)
      ∧ (0 < order ↔ cut decimals q < cut decimals p) := by
  obtain ⟨x, first, rest⟩ := returned accepted
  obtain ⟨y, second, compared⟩ := returned rest
  obtain rfl : (if x < y then -1 else if x > y then 1 else 0) = order := Except.ok.inj compared
  obtain ⟨p, number, worth⟩ := toUnits_cut first
  obtain ⟨q, number', worth'⟩ := toUnits_cut second
  have unit_pos : (0 : ℚ) < 10 ^ decimals := by positivity
  have scaled (x y : Int) : (x : ℚ) / 10 ^ decimals < y / 10 ^ decimals ↔ x < y := by
    rw [div_lt_div_iff_of_pos_right unit_pos, Int.cast_lt]
  refine ⟨p, q, number, number', ?_⟩
  rw [← worth, ← worth', scaled, scaled]
  split
  · omega
  · split <;> omega

/-- A difference of less than one base unit does not count. -/
theorem compare_denoted_close
    : compare "1.000000009" "1" = .ok 0
      ∧ ∃ p q, denoted "1.000000009" = some p ∧ denoted "1" = some q
        ∧ ((0 : Int) < 0 ↔ cut decimals p < cut decimals q)
        ∧ ((0 : Int) < 0 ↔ cut decimals q < cut decimals p) :=
  have accepted : compare "1.000000009" "1" = .ok 0 := by decide +kernel
  ⟨accepted, compare_denoted accepted⟩

/-- What a running total is worth, by induction on the amounts that it still takes. -/
theorem foldlM_units {amounts : List String} {total sum : Int}
    (added : amounts.foldlM (fun acc a => do return acc + (← toUnits a)) total = Except.ok sum)
    : ∃ qs : List ℚ, amounts.mapM denoted = some qs
      ∧ (sum : ℚ) / 10 ^ decimals = total / 10 ^ decimals + (qs.map (cut decimals)).sum := by
  induction amounts generalizing total with
  | nil =>
      obtain rfl : total = sum := Except.ok.inj added
      exact ⟨[], rfl, by simp⟩
  | cons a rest ih =>
      rw [List.foldlM_cons] at added
      obtain ⟨next, first, later⟩ := returned added
      obtain ⟨u, read, same⟩ := returned first
      obtain rfl : total + u = next := Except.ok.inj same
      obtain ⟨q, number, worth⟩ := toUnits_cut read
      obtain ⟨qs, numbers, rest_worth⟩ := ih later
      refine ⟨q :: qs, by rw [List.mapM_cons, number, numbers]; rfl, ?_⟩
      rw [rest_worth, List.map_cons, List.sum_cons, ← worth]
      push_cast
      ring

/-- A sum denotes the sum of the numbers that the amounts denote, each cut to eight places, and is not
rounded itself.
-/
theorem add_denoted {amounts : List String} {total : String} (accepted : add amounts = .ok total)
    : ∃ qs, amounts.mapM denoted = some qs ∧ denoted total = some (qs.map (cut decimals)).sum := by
  obtain ⟨sum, added, written⟩ := returned accepted
  obtain rfl : fromUnits sum = total := Except.ok.inj written
  obtain ⟨qs, numbers, worth⟩ := foldlM_units added
  refine ⟨qs, numbers, ?_⟩
  rw [denoted_fromUnits, worth]
  simp

theorem add_denoted_tenths
    : add ["0.1", "0.2", "-0.300000019"] = .ok "-0.00000001"
      ∧ ∃ qs, ["0.1", "0.2", "-0.300000019"].mapM denoted = some qs
        ∧ denoted "-0.00000001" = some (qs.map (cut decimals)).sum :=
  have accepted : add ["0.1", "0.2", "-0.300000019"] = .ok "-0.00000001" := by decide +kernel
  ⟨accepted, add_denoted accepted⟩

/-- As an argument of an entrypoint, what a person typed is read by the contract as the number of base
units that it denotes, cut to eight places, up to the largest signed word; more is refused.
-/
theorem toBaseUnitArg_read {input arg payload : String} {i : Nat}
    (accepted : toBaseUnitArg input = .ok arg) (placed : (parseArgs payload)[i]? = some arg)
    : ∃ (n : Nat) (q : ℚ), denoted input = some q ∧ (n : ℚ) / 10 ^ decimals = cut decimals q
      ∧ (parseArgs payload).amount i = if n < 2 ^ 63 then some (n : Int) else none := by
  obtain ⟨u, read, rest⟩ := returned accepted
  obtain ⟨q, number, worth⟩ := toUnits_cut read
  by_cases negative : u < 0
  · rw [if_pos negative] at rest
    cases rest
  · obtain ⟨n, rfl⟩ := Int.eq_ofNat_of_zero_le (not_lt.mp negative)
    rw [if_neg negative] at rest
    obtain rfl : n.repr = arg := Except.ok.inj rest
    rw [Int.cast_natCast] at worth
    refine ⟨n, q, number, worth, ?_⟩
    have text : (parseArgs payload).str i = n.repr := by
      rw [Args.str, placed, Option.getD_some, trimSpace_repr]
    have fits : (-2 ^ 63 ≤ (n : Int) ∧ (n : Int) < 2 ^ 63) ↔ n < 2 ^ 63 := by omega
    have parsed : parseInt n.repr = if n < 2 ^ 63 then some (n : Int) else none := by
      have written := parseInt_written n
      simp only [fits] at written
      exact written
    rw [Args.amount, Args.i64, text, if_neg Nat.repr_ne_empty, parsed]
    split <;> simp

/-- A ninth place is cut; from 2^63 base units on the argument is refused. -/
theorem toBaseUnitArg_read_nine
    : toBaseUnitArg "12.345678999" = .ok "1234567899"
      ∧ (∃ (n : Nat) (q : ℚ), denoted "12.345678999" = some q
        ∧ (n : ℚ) / 10 ^ decimals = cut decimals q
        ∧ (parseArgs "1234567899|30").amount 0 = if n < 2 ^ 63 then some (n : Int) else none)
      ∧ toBaseUnitArg "92233720369" = .ok "9223372036900000000"
      ∧ (parseArgs "9223372036900000000|30").amount 0 = none :=
  have accepted : toBaseUnitArg "12.345678999" = .ok "1234567899" := by decide +kernel
  have placed : (parseArgs "1234567899|30")[0]? = some "1234567899" := by decide +kernel
  ⟨accepted, toBaseUnitArg_read accepted placed, by decide +kernel, by decide +kernel⟩

end LasseCash.Api.Amount
