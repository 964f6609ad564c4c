import LasseCash.App.Arguments
import LasseCash.Engine.MerkleProofs
import LasseCash.Lib.Json

/-! The calls that move LASSECASH in its token contract, `contract/app/tokenledger.go`: their JSON
payloads are concatenated by hand, so they say what the ledger decided exactly for accounts that
need no escape.
-/

namespace LasseCash.App

open MachineInt State

/-- A token contract, and this contract as the token addresses it. -/
structure TokenLedger where
  id : String
  self : String

/-- A call of another contract. -/
structure ContractCall where
  contract : String
  method : String
  payload : String
  deriving DecidableEq

/-- The digit loop of `decimal`: it fills its buffer, of so much room, from the back. -/
def fillDigits : Nat → Int → List Char → List Char
  | 0, _, buf => buf
  | room + 1, n, buf =>
      if n > 0 then fillDigits room (n / 10) (.ofNat (48 + (n % 10).toNat) :: buf) else buf

/-- The plain decimal that the token's JSON wants. -/
def decimal (a : Int) : String :=
  if a = 0 then "0"
  else
    let neg : Bool := a < 0
    let n := if neg then i64 (-a) else a
    let buf := fillDigits 20 n []
    .ofList (if neg then '-' :: buf else buf)

/-- Moves from the core to an account. -/
def TokenLedger.transfer (t : TokenLedger) (recipient : String) (amount : Int)
    : Option ContractCall :=
  if amount ≤ 0 ∨ recipient = "" then none
  else
    some ⟨t.id, "transfer",
      "\x7b\"to\":\"" ++ recipient ++ "\",\"amount\":\"" ++ decimal amount ++ "\"\x7d"⟩

/-- Pulls from an account into the core. -/
def TokenLedger.transferFrom (t : TokenLedger) (account : String) (amount : Int)
    : Option ContractCall :=
  if amount ≤ 0 ∨ account = "" then none
  else
    some ⟨t.id, "transferFrom",
      "\x7b\"from\":\"" ++ account ++ "\",\"to\":\"" ++ t.self ++ "\",\"amount\":\""
        ++ decimal amount ++ "\"\x7d"⟩

-----------------------------------------------------------------------------------------
-- Amounts
-----------------------------------------------------------------------------------------

theorem digitChar_ofNat {d : Nat} (small : d < 10) : Nat.digitChar d = .ofNat (48 + d) := by
  revert d
  decide

/-- The digit loop writes a number's decimal in front of its buffer, by induction on its room. -/
theorem fillDigits_eq {room n : Nat} (positive : 0 < n) (fits : n < 10 ^ room) (buf : List Char)
    : fillDigits room n buf = Nat.toDigits 10 n ++ buf := by
  induction room generalizing n buf with
  | zero =>
      rw [Nat.pow_zero] at fits
      omega
  | succ room ih =>
      have last : Char.ofNat (48 + ((n : Int) % 10).toNat) = Nat.digitChar (n % 10) :=
        (digitChar_ofNat (Nat.mod_lt n (by decide))).symm
      have more : (n : Int) > 0 := Int.natCast_pos.mpr positive
      rw [fillDigits, if_pos more, last]
      by_cases single : n < 10
      · have none_left : ((n : Int) / 10) = (0 : Nat) := by omega
        rw [none_left, Nat.toDigits_of_lt_base single, Nat.mod_eq_of_lt single]
        cases room <;> rfl
      · have shorter : n / 10 < 10 ^ room := by
          rw [Nat.pow_succ] at fits
          exact Nat.div_lt_of_lt_mul (by rwa [Nat.mul_comm] at fits)
        have rest := ih (Nat.div_pos (not_lt.mp single) (by decide)) shorter
          (Nat.digitChar (n % 10) :: buf)
        rw [Nat.toDigits_of_base_le (by decide) (not_lt.mp single), List.append_assoc]
        exact rest

/-- A positive amount is written as its decimal. -/
theorem decimal_eq {a : Int} (positive : 0 < a) (word : a < 2 ^ 63) : decimal a = toString a := by
  obtain ⟨n, rfl⟩ := Int.eq_ofNat_of_zero_le positive.le
  have fits : n < 10 ^ 20 := by omega
  have written := fillDigits_eq (Int.ofNat_lt.mp positive) fits []
  refine String.toList_inj.mp ?_
  rw [Engine.decimal_digits positive.le]
  unfold decimal
  simp only [positive.ne', positive.not_gt, decide_false, Bool.false_eq_true, if_false,
    String.toList_ofList, written, List.append_nil]
  rfl

/-- Digits need no escape. -/
theorem decimal_unescaped {a : Int} (nonneg : 0 ≤ a) : Json.Unescaped (toString a).toList := by
  rw [Engine.decimal_digits nonneg]
  intro c there
  have digit := Nat.isDigit_of_mem_toDigits (by decide) (by decide) there
  obtain ⟨lower, upper⟩ : 48 ≤ c.toNat ∧ c.toNat ≤ 57 := Char.isDigit_iff_toNat.mp digit
  refine ⟨?_, ?_, le_trans (by decide) lower⟩
  · rintro rfl
    exact absurd lower (by decide)
  · rintro rfl
    exact absurd upper (by decide)

-----------------------------------------------------------------------------------------
-- Payloads
-----------------------------------------------------------------------------------------

/-- (Tells call method members) says that the call is made, of this method, and that its payload
parses to an object of these members alone.
-/
def Tells (call : Option ContractCall) (method : String) (members : List (String × String)) : Prop :=
  ∃ c, call = some c ∧ c.method = method
    ∧ Json.parse c.payload = some (.object (members.map fun m => (m.1, .string m.2)))

/-- (Clean s) says that no character of `s` needs an escape in JSON. -/
def Clean (s : String) : Prop := Json.Unescaped s.toList

instance (s : String) : Decidable (Clean s) := inferInstanceAs (Decidable (Json.Unescaped _))

/-- The characters of members. -/
def chars (members : List (String × String)) : List (List Char × List Char) :=
  members.map fun m => (m.1.toList, m.2.toList)

/-- A payload that is put together from members says them exactly when all are clean. -/
theorem tells_iff {c : ContractCall} {members : List (String × String)} (some_member : members ≠ [])
    (names : ∀ m ∈ members, m.1 ∈ ["to", "from", "amount"])
    (payload : c.payload.toList = Json.objectText (chars members))
    : Tells (some c) c.method members ↔ ∀ m ∈ members, Clean m.2 := by
  have named : ∀ m ∈ chars members, Json.Named m := by
    intro m there
    obtain ⟨m', inside, rfl⟩ := List.mem_map.mp there
    have name := names m' inside
    simp only [List.mem_cons, List.not_mem_nil, or_false] at name
    rcases name with name | name | name
    all_goals
      refine ⟨?_, fun rest => ?_⟩
      · dsimp only
        rw [name]
        decide
      · dsimp only
        rw [name]
        exact fun follows => follows.elim nofun nofun
  have strings : Json.strings (chars members) = members.map fun m => (m.1, .string m.2) := by
    simp [Json.strings, chars]
  have text : c.payload = .ofList (Json.objectText (chars members)) := by
    rw [← payload, String.ofList_toList]
  have some_chars : chars members ≠ [] := mt List.map_eq_nil_iff.mp some_member
  have parsed := Json.parse_objectText some_chars named
  rw [← text, strings] at parsed
  refine Iff.trans ?_ (parsed.trans ?_)
  · constructor
    · rintro ⟨c', same, -, told⟩
      cases same
      exact told
    · exact fun told => ⟨c, rfl, rfl, told⟩
  · exact List.forall_mem_map

/-- A transfer is told exactly to a clean account. -/
theorem TokenLedger.transfer_tells (t : TokenLedger) (account : String) (amount : Int)
    (named : account ≠ "") (positive : 0 < amount) (word : amount < 2 ^ 63)
    : Tells (t.transfer account amount) "transfer"
        [("to", account), ("amount", toString amount)]
      ↔ Clean account := by
  have digits : Clean (toString amount) := decimal_unescaped positive.le
  have made : ¬(amount ≤ 0 ∨ account = "") := fun refused =>
    refused.elim positive.not_ge named
  rw [TokenLedger.transfer, if_neg made, decimal_eq positive word]
  refine (tells_iff (List.cons_ne_nil _ _) (by simp) ?_).trans ?_
  · simp [Json.objectText, Json.membersText, Json.memberText, chars]
  · simp only [List.forall_mem_cons, digits, List.not_mem_nil, IsEmpty.forall_iff,
      implies_true, and_true]

/-- A pull is told exactly from a clean account to a clean contract. -/
theorem TokenLedger.transferFrom_tells (t : TokenLedger) (account : String) (amount : Int)
    (named : account ≠ "") (positive : 0 < amount) (word : amount < 2 ^ 63)
    : Tells (t.transferFrom account amount) "transferFrom"
        [("from", account), ("to", t.self), ("amount", toString amount)]
      ↔ Clean account ∧ Clean t.self := by
  have digits : Clean (toString amount) := decimal_unescaped positive.le
  have made : ¬(amount ≤ 0 ∨ account = "") := fun refused =>
    refused.elim positive.not_ge named
  rw [TokenLedger.transferFrom, if_neg made, decimal_eq positive word]
  refine (tells_iff (List.cons_ne_nil _ _) (by simp) ?_).trans ?_
  · simp [Json.objectText, Json.membersText, Json.memberText, chars]
  · simp only [List.forall_mem_cons, digits, List.not_mem_nil, IsEmpty.forall_iff,
      implies_true, and_true]

/-- The payloads say what the ledger decided, the account and the positive amount, exactly for
accounts without a quote, a backslash or a control character.
-/
theorem token_payloads_say (t : TokenLedger) (account : String) (amount : Int)
    (named : account ≠ "") (positive : 0 < amount) (word : amount < 2 ^ 63)
    : (Tells (t.transfer account amount) "transfer"
        [("to", account), ("amount", toString amount)] ↔ Clean account)
      ∧ (Tells (t.transferFrom account amount) "transferFrom"
        [("from", account), ("to", t.self), ("amount", toString amount)]
        ↔ Clean account ∧ Clean t.self) :=
  ⟨t.transfer_tells account amount named positive word,
    t.transferFrom_tells account amount named positive word⟩

/-- The token a Hive account's transfer goes through. -/
def sampleToken : TokenLedger := ⟨"vsc1token", "contract:vsc1lassecash"⟩

/-- A Hive account needs no escape, and neither does the contract. -/
theorem payloads_to_bob
    : Tells (sampleToken.transfer "hive:bob" 500) "transfer"
        [("to", "hive:bob"), ("amount", toString (500 : Int))]
      ∧ Tells (sampleToken.transferFrom "hive:bob" 500) "transferFrom"
        [("from", "hive:bob"), ("to", "contract:vsc1lassecash"), ("amount", toString (500 : Int))] :=
  have told := token_payloads_say sampleToken "hive:bob" 500
    (by decide) (by decide) (by decide)
  ⟨told.1.mpr (by decide), told.2.mpr (by decide)⟩

/-- The payload of a `transfer` whose recipient closes its own quote. -/
def quotedTransfer : String := "hive:bob\",\"amount\":\"1|500"

/-- The recipient of `quotedTransfer`. -/
def quotedRecipient : String := "hive:bob\",\"amount\":\"1"

/-- A quote in the recipient smuggles another amount in: the contract accepts the recipient and
decides 500, and the token is told 1 before that.
-/
theorem quote_tells_another_amount
    : (parseArgs quotedTransfer).str 0 = quotedRecipient
      ∧ (parseArgs quotedTransfer).amount 1 = some 500
      ∧ ':' ∈ quotedRecipient.toList
      ∧ ¬Tells (sampleToken.transfer quotedRecipient 500) "transfer"
          [("to", quotedRecipient), ("amount", toString (500 : Int))]
      ∧ Tells (sampleToken.transfer quotedRecipient 500) "transfer"
          [("to", "hive:bob"), ("amount", "1"), ("amount", "500")] := by
  refine ⟨by decide +kernel, by decide +kernel, by decide +kernel, ?_, ?_⟩
  · have told := sampleToken.transfer_tells quotedRecipient 500 (by decide) (by decide)
      (by decide)
    exact fun as_decided => absurd (told.mp as_decided) (by decide)
  · refine (tells_iff (List.cons_ne_nil _ _) (by simp) ?_).mpr ?_
    · decide +kernel
    · decide +kernel

end LasseCash.App
