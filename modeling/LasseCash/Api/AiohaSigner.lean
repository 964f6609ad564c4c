import LasseCash.Api.CatchUp
import LasseCash.App.Entrypoints
import Mathlib.Data.List.Infix

/-! The transaction that the site has a wallet sign, `api/src/aioha-signer.ts`: a token allowance,
slices of a catch-up, the user's call and settlements that ride along.
-/

namespace LasseCash.Api

open App MachineInt State

-----------------------------------------------------------------------------------------
-- What is signed
-----------------------------------------------------------------------------------------

/-- What the page is told. -/
structure TxResult where
  ok : Bool
  height : Nat := 0
  msg : String
  txId : Option String := none

inductive KeyType
  | active
  | posting
  deriving DecidableEq

/-- What the caller lets a call draw. -/
structure Intent where
  kind : String
  token : String
  limit : String
  deriving DecidableEq

/-- A call to bundle; it may name a contract of its own. -/
structure BundledCall where
  action : String
  payload : String
  rcLimit : Nat
  intents : List Intent
  contractId : Option String := none
  deriving DecidableEq

/-- A call as it is broadcast, one `custom_json`. -/
structure VscOp where
  contractId : String
  action : String
  payload : String
  rcLimit : Nat
  intents : List Intent
  deriving DecidableEq

/-- The Hive vote beside a vote; Hive's own weight is the hundredfold of the percentage. -/
structure HiveVote where
  voter : String
  author : String
  permlink : String
  weightPct : String

/-- One signed transaction. -/
structure Transaction where
  hiveOps : List HiveVote
  calls : List VscOp
  keyType : KeyType

/-- What rides with the user's call. -/
structure SubmitOptions where
  preCalls : List PlannedCall := []
  sideCalls : List PlannedCall := []

def maxSideCalls : Nat := 2

/-- Hive's ceiling on one account's `custom_json` in a block. -/
def hiveCustomJsonPerBlock : Nat := 5

def allowanceRc : Nat := 1000

-----------------------------------------------------------------------------------------
-- Tables
-----------------------------------------------------------------------------------------

/-- The operations that move value. -/
def activeOps : List String :=
  ["transfer", "burn", "mint", "claim_mint", "good_accounting", "fund", "promote_post",
    "add_liquidity", "remove_liquidity", "claim_pool", "swap_lassecash_hbd",
    "swap_hbd_lassecash", "migrate", "migrate_batch", "claim_migration"]

/-- The operations that draw HBD, with the argument that bounds the draw. -/
def hbdDrawOps : List (String × Nat) := [("add_liquidity", 1), ("swap_hbd_lassecash", 0)]

/-- The operations that debit LASSECASH, with the argument that holds the amount. -/
def tokenDebitOps : List (String × Nat) :=
  [("transfer", 1), ("burn", 0), ("fund", 1), ("mint", 0), ("promote_post", 2),
    ("add_liquidity", 0), ("swap_lassecash_hbd", 0)]

-----------------------------------------------------------------------------------------
-- Text
-----------------------------------------------------------------------------------------

/-- White space and line ends, as `trim` knows them. -/
def isBlank (c : Char) : Bool :=
  let n := c.toNat
  (9 ≤ n && n ≤ 13) || (0x2000 ≤ n && n ≤ 0x200A)
    || n ∈ [0x20, 0xA0, 0x1680, 0x2028, 0x2029, 0x202F, 0x205F, 0x3000, 0xFEFF]

def trim (s : String) : String :=
  .ofList ((s.toList.dropWhile isBlank).reverse.dropWhile isBlank).reverse

/-- One of the fields between bars. -/
def field (args : String) (i : Nat) : Option String :=
  (args.toList.splitOn '|')[i]?.map String.ofList

/-- A character as `JSON.stringify` writes it. -/
def escape (c : Char) : List Char :=
  match c.toNat with
  | 0x22 => ['\\', c]
  | 0x5C => ['\\', c]
  | 0x08 => ['\\', 'b']
  | 0x09 => ['\\', 't']
  | 0x0A => ['\\', 'n']
  | 0x0C => ['\\', 'f']
  | 0x0D => ['\\', 'r']
  | n =>
      if n < 0x20 then ['\\', 'u', '0', '0', Nat.digitChar (n / 16), Nat.digitChar (n % 16)]
      else [c]

def stringify (s : String) : String := "\"" ++ .ofList (s.toList.flatMap escape) ++ "\""

/-- The value of a digit in a base up to sixteen. -/
def digitIn (base : Nat) (c : Char) : Option Nat :=
  let n := c.toNat
  let d :=
    if c.isDigit then some (n - 48)
    else if 97 ≤ n ∧ n ≤ 102 then some (n - 87)
    else if 65 ≤ n ∧ n ≤ 70 then some (n - 55)
    else none
  d.filter (· < base)

def numeralIn (base : Nat) (digits : List Char) : Option Nat :=
  if digits.isEmpty then none
  else (digits.mapM (digitIn base)).map fun ds => ds.foldl (fun v d => v * base + d) 0

/-- `BigInt` of a text, `none` where it throws. -/
def bigInt (s : String) : Option Int :=
  match (trim s).toList with
  | [] => some 0
  | '0' :: 'x' :: digits | '0' :: 'X' :: digits => (numeralIn 16 digits).map Int.ofNat
  | '0' :: 'o' :: digits | '0' :: 'O' :: digits => (numeralIn 8 digits).map Int.ofNat
  | '0' :: 'b' :: digits | '0' :: 'B' :: digits => (numeralIn 2 digits).map Int.ofNat
  | '-' :: digits => (numeralIn 10 digits).map fun n => -(n : Int)
  | '+' :: digits => (numeralIn 10 digits).map Int.ofNat
  | digits => (numeralIn 10 digits).map Int.ofNat

/-- Base units as the HBD of an intent, rounded up to three decimals. -/
def hbdLimit (baseUnits : String) : Option String :=
  (bigInt baseUnits).map fun n =>
    let milli := (n + 99999).tdiv 100000
    let frac := toString (milli.tmod 1000)
    toString (milli.tdiv 1000) ++ "." ++ .ofList (.replicate (3 - frac.length) '0') ++ frac

/-- A text without the prefix of a Hive address. -/
def bareName (s : String) : String :=
  if "hive:".toList <+: s.toList then .ofList (s.toList.drop 5) else s

/-- A refusal that asks for `advance`, in any case. -/
def lagging (msg : String) : Bool :=
  let text := msg.toList.map Char.toLower
  "accrual is behind".toList <:+: text || "call advance".toList <:+: text

-----------------------------------------------------------------------------------------
-- The signer
-----------------------------------------------------------------------------------------

/-- A user's signer: the account, the contract and the token that the contract has recorded. -/
structure AiohaSigner where
  account : String
  contractId : String
  tokenContract : Option String

/-- The outcomes of the dry runs, each the limit a call is sized to or its refusal. -/
structure DryRuns where
  own : Except TxResult Nat
  pre : Nat → Except TxResult Nat
  side : Nat → Except TxResult Nat

/-- What a submission comes to. -/
inductive Submission
  | threw
  | refused (r : TxResult)
  | broadcast (tx : Transaction) (r : TxResult)

def keyTypeOf (entrypoint : String) : KeyType :=
  if entrypoint ∈ activeOps then .active else .posting

/-- The HBD that a call may draw, `none` where its argument throws. -/
def intentsOf (entrypoint args : String) : Option (List Intent) :=
  match hbdDrawOps.lookup entrypoint with
  | none => some []
  | some drawArg =>
      (hbdLimit ((field args drawArg).getD "0")).map fun limit =>
        [⟨"transfer.allow", "hbd", limit⟩]

/-- The amount that a debiting call needs an allowance for, as it is written. -/
def allowanceAmount (entrypoint args : String) : Option String :=
  match tokenDebitOps.lookup entrypoint with
  | none => none
  | some debitArg =>
      let amount := trim ((field args debitArg).getD "0")
      if (amount ≠ "" ∧ amount.toList.all Char.isDigit) ∧ amount ≠ "0" then some amount else none

namespace AiohaSigner

variable (s : AiohaSigner)

/-- The allowance that must accompany a debiting call when the ledger is a token. -/
def allowanceCall (entrypoint args : String) : Option BundledCall :=
  match s.tokenContract, allowanceAmount entrypoint args with
  | some tokenContractId, some amount =>
      some {
        action := "increaseAllowance"
        payload := "\x7b\"spender\":" ++ stringify ("contract:" ++ s.contractId)
          ++ ",\"amount\":" ++ stringify amount ++ "\x7d"
        rcLimit := allowanceRc
        intents := []
        contractId := some tokenContractId }
  | _, _ => none

/-- A call addressed to the contract it names, or else to the signer's. -/
def vscOp (c : BundledCall) : VscOp :=
  ⟨c.contractId.getD s.contractId, c.action, c.payload, c.rcLimit, c.intents⟩

def broadcastCalls (calls : List BundledCall) (keyType : KeyType) (hiveOps : List HiveVote)
    : Transaction :=
  ⟨hiveOps, calls.map s.vscOp, keyType⟩

end AiohaSigner

/-- The slices up to the first that cannot be afforded, by the outcomes from `i` on. -/
def affordable (limits : Nat → Except TxResult Nat) : Nat → List PlannedCall → List BundledCall
  | _, [] => []
  | i, pc :: rest =>
      match limits i with
      | .error _ => []
      | .ok lim => ⟨pc.entrypoint, pc.args, lim, [], none⟩ :: affordable limits (i + 1) rest

/-- The settlements that are not refused, by the outcomes from `i` on. -/
def admitted (limits : Nat → Except TxResult Nat) : Nat → List PlannedCall → List BundledCall
  | _, [] => []
  | i, sc :: rest =>
      match limits i with
      | .error _ => admitted limits (i + 1) rest
      | .ok lim => ⟨sc.entrypoint, sc.args, lim, [], none⟩ :: admitted limits (i + 1) rest

/-- The Hive vote that a vote carries. -/
def hiveVotes (account entrypoint args : String) : List HiveVote :=
  if entrypoint = "vote" then
    [{
      voter := bareName account
      author := bareName ((field args 0).getD "")
      permlink := (field args 1).getD ""
      weightPct := (field args 2).getD "0" }]
  else []

namespace AiohaSigner

variable (s : AiohaSigner) (runs : DryRuns) (entrypoint args : String) (opts : SubmitOptions)

/-- The slots that the allowance and the user's call leave. -/
def preSlots : Nat := hiveCustomJsonPerBlock - 1 - (s.allowanceCall entrypoint args).toList.length

def preWanted : List PlannedCall := opts.preCalls.take (s.preSlots entrypoint args)

/-- Settlements take the slots that every slice would leave. -/
def sideWanted : List PlannedCall :=
  let sideRoom := s.preSlots entrypoint args - (s.preWanted entrypoint args opts).length
  opts.sideCalls.take (min maxSideCalls sideRoom)

/-- The slices that can be afforded. -/
def slices : List BundledCall := affordable runs.pre 0 (s.preWanted entrypoint args opts)

/-- The settlements that ride along. -/
def side : List BundledCall := admitted runs.side 0 (s.sideWanted entrypoint args opts)

/-- Signs and broadcasts a call with what rides along. The wallet's answer is given. -/
def submit (wallet : Transaction → TxResult) : Submission :=
  match intentsOf entrypoint args with
  | none => .threw
  | some intents =>
      let pre := (s.allowanceCall entrypoint args).toList ++ s.slices runs entrypoint args opts
      match runs.own with
      | .error refusal =>
          if pre.length > 0 ∧ lagging refusal.msg then
            let tx := s.broadcastCalls pre (keyTypeOf entrypoint) []
            let r := wallet tx
            let steps := toString pre.length ++ " step" ++ if pre.length > 1 then "s" else ""
            .broadcast tx
              (if r.ok then
                { r with
                  ok := false
                  msg := "the chain is catching up on matured mints — this transaction advanced it "
                    ++ steps ++ "; press again" }
              else r)
          else .refused refusal
      | .ok rcLimit =>
          -- a lone call goes out by itself, as the same transaction
          let own : BundledCall := ⟨entrypoint, args, rcLimit, intents, none⟩
          let calls := pre ++ own :: s.side runs entrypoint args opts
          let tx := s.broadcastCalls calls (keyTypeOf entrypoint)
            (hiveVotes s.account entrypoint args)
          .broadcast tx (wallet tx)

end AiohaSigner

-----------------------------------------------------------------------------------------
-- What the contract debits
-----------------------------------------------------------------------------------------

/-- The LASSECASH that an action debits its sender of. -/
def debited : Action → Option Int
  | .transfer _ amt => some amt.toInt
  | .burnLiquid amt => some amt.toInt
  | .fundPool _ amt => some amt.toInt
  | .createMint principal _ => some principal.toInt
  | .promotePost _ _ amt => some amt.toInt
  | .addLiquidity lcIn _ => some lcIn.toInt
  | .swapLCForHBD lcIn _ => some lcIn.toInt
  | _ => none

/-- (Debits entrypoint args n) says that the contract takes the call, and debits `n` for it. -/
def Debits (entrypoint args : String) (n : Int) : Prop :=
  ∃ e : Entrypoint, e.name = entrypoint
    ∧ ∀ ctx, ∃ action, e.action ctx (parseArgs args) = .ok action ∧ debited action = some n

theorem isBlank_digit {c : Char} (digit : c.isDigit) : isBlank c = false := by
  obtain ⟨lower, upper⟩ : 48 ≤ c.toNat ∧ c.toNat ≤ 57 := Char.isDigit_iff_toNat.mp digit
  simp only [isBlank, List.mem_cons, List.not_mem_nil, or_false]
  simp
  omega

/-- Trimming any characters but digits keeps the digits. -/
theorem filter_trimmed {blank : Char → Bool} (apart : ∀ c, c.isDigit → blank c = false)
    (text : List Char)
    : ((text.dropWhile blank).reverse.dropWhile blank).reverse.filter Char.isDigit
      = text.filter Char.isDigit := by
  have front (text : List Char)
      : (text.dropWhile blank).filter Char.isDigit = text.filter Char.isDigit := by
    induction text with
    | nil => rfl
    | cons c rest ih =>
        by_cases dropped : blank c
        · have other : ¬c.isDigit := fun digit => by
            rw [apart c digit] at dropped
            exact Bool.false_ne_true dropped
          rw [List.dropWhile_cons_of_pos dropped, ih, List.filter_cons_of_neg other]
        · rw [List.dropWhile_cons_of_neg dropped]
  rw [List.filter_reverse, front, ← List.filter_reverse, List.reverse_reverse, front]

/-- A trimmed text has the characters of the text that are not dropped. -/
theorem mem_trimmed (blank : Char → Bool) {text : List Char} {c : Char} (there : c ∈ text)
    : blank c ∨ c ∈ ((text.dropWhile blank).reverse.dropWhile blank).reverse := by
  have front {text : List Char} (there : c ∈ text) : blank c ∨ c ∈ text.dropWhile blank := by
    induction text with
    | nil => cases there
    | cons d rest ih =>
        by_cases dropped : blank d
        · rw [List.dropWhile_cons_of_pos dropped]
          rcases List.mem_cons.mp there with rfl | later
          · exact .inl dropped
          · exact ih later
        · rw [List.dropWhile_cons_of_neg dropped]
          exact .inr there
  rcases front there with dropped | kept
  · exact .inl dropped
  · rcases front (List.mem_reverse.mpr kept) with dropped | kept
    · exact .inl dropped
    · exact .inr (List.mem_reverse.mpr kept)

theorem trimmed_subset (blank : Char → Bool) (text : List Char)
    : ((text.dropWhile blank).reverse.dropWhile blank).reverse ⊆ text := by
  intro c there
  have kept := (List.dropWhile_sublist _).subset (List.mem_reverse.mp there)
  exact (List.dropWhile_sublist _).subset (List.mem_reverse.mp kept)

theorem digit_isDigit {c : Char} {d : Nat} (read : digit c = some d) : c.isDigit := by
  unfold digit at read
  split at read
  · assumption
  · cases read

/-- Only digits are read as a number, by induction on the text. -/
theorem numeral_digits {digits : List Char} {n : Nat} (read : numeral digits = some n)
    : ∀ c ∈ digits, c.isDigit := by
  have mapped {digits : List Char} {ds : List Nat} (read : digits.mapM digit = some ds)
      : ∀ c ∈ digits, c.isDigit := by
    induction digits generalizing ds with
    | nil => exact fun c there => absurd there List.not_mem_nil
    | cons d rest ih =>
        rw [List.mapM_cons] at read
        obtain ⟨first, head, read⟩ := Option.bind_eq_some_iff.mp read
        obtain ⟨others, tail, -⟩ := Option.bind_eq_some_iff.mp read
        exact List.forall_mem_cons.mpr ⟨digit_isDigit head, ih tail⟩
  unfold numeral at read
  split at read
  · cases read
  · obtain ⟨ds, there, -⟩ := Option.map_eq_some_iff.mp read
    exact mapped there

/-- The contract's field, where it reads a number, is the field as the site splits it. -/
theorem field_of_amount {args : String} {i : Nat} {n : Int}
    (read : (parseArgs args).amount i = some n)
    : ∃ text, field args i = some text ∧ parseInt (trimSpace text) = some n := by
  obtain ⟨number, -⟩ := Option.filter_eq_some_iff.mp read
  unfold Args.i64 at number
  split at number
  · cases number
  · rename_i present
    unfold Args.str at present number
    cases there : (parseArgs args)[i]? with
    | none =>
        rw [there] at present
        exact absurd rfl present
    | some text =>
        rw [there] at number
        refine ⟨text, ?_, number⟩
        unfold parseArgs at there
        split at there
        · cases there
        · rw [field, ← List.getElem?_map]
          exact there

/-- A text without a sign is read as its digits. -/
theorem parseInt_unsigned {text : String} {n : Int} (unsigned : ∀ c ∈ text.toList, c ≠ '-' ∧ c ≠ '+')
    (read : parseInt text = some n)
    : (numeral text.toList).map Int.ofNat = some n := by
  obtain ⟨signed, -⟩ := Option.filter_eq_some_iff.mp read
  split at signed
  · rename_i written
    exact absurd rfl (unsigned '-' (by rw [written]; exact List.mem_cons_self)).1
  · rename_i written
    exact absurd rfl (unsigned '+' (by rw [written]; exact List.mem_cons_self)).2
  · exact signed

/-- The digits that the site grants are the amount that the contract reads, when it reads one. -/
theorem amount_written {args : String} {i : Nat} {n : Int}
    (digits : (trim ((field args i).getD "0")).toList.all Char.isDigit)
    (read : (parseArgs args).amount i = some n)
    : (numeral (trim ((field args i).getD "0")).toList).map Int.ofNat = some n := by
  obtain ⟨text, there, number⟩ := field_of_amount read
  rw [there, Option.getD_some] at digits ⊢
  have granted : ∀ c ∈ (trim text).toList, c.isDigit := List.all_eq_true.mp digits
  -- nothing stands in the field but digits and what the site trims
  have only : ∀ c ∈ text.toList, isBlank c ∨ c.isDigit := fun c inside =>
    (mem_trimmed isBlank inside).imp_right fun kept => granted c (by rwa [trim, String.toList_ofList])
  have unsigned : ∀ c ∈ (trimSpace text).toList, c ≠ '-' ∧ c ≠ '+' := by
    intro c inside
    rw [trimSpace, String.toList_ofList] at inside
    have kind := only c (trimmed_subset isSpace _ inside)
    constructor
    · rintro rfl
      exact absurd kind (by decide)
    · rintro rfl
      exact absurd kind (by decide)
  have value := parseInt_unsigned unsigned number
  obtain ⟨m, read, -⟩ := Option.map_eq_some_iff.mp value
  have same : (trimSpace text).toList = (trim text).toList := by
    calc (trimSpace text).toList
      _ = (trimSpace text).toList.filter Char.isDigit :=
          (List.filter_eq_self.mpr (numeral_digits read)).symm
      _ = text.toList.filter Char.isDigit := by
          rw [trimSpace, String.toList_ofList, filter_trimmed fun c digit => isSpace_digit digit]
      _ = (trim text).toList.filter Char.isDigit := by
          rw [trim, String.toList_ofList, filter_trimmed fun c digit => isBlank_digit digit]
      _ = (trim text).toList := List.filter_eq_self.mpr granted
  rw [← same]
  exact value

/-- An amount that is read is a word. -/
theorem amount_toInt {args : Args} {i : Nat} {n : Int} (read : args.amount i = some n)
    : (Int64.ofInt n).toInt = n := by
  obtain ⟨number, -⟩ := Option.filter_eq_some_iff.mp read
  unfold Args.i64 parseInt at number
  split at number
  · cases number
  · obtain ⟨lower, upper⟩ := of_decide_eq_true (Option.filter_eq_some_iff.mp number).2
    exact Int64.toInt_ofInt_of_le lower upper

theorem amountArg_debited {args : Args} {i : Nat} {usage : String} {make : Int64 → Action}
    {action : Action} {n : Int} (makes : ∀ amt, debited (make amt) = some amt.toInt)
    (asks : amountArg args i usage make = .ok action) (debits : debited action = some n)
    : args.amount i = some n := by
  unfold amountArg at asks
  split at asks <;> cases asks
  rename_i amount read
  rw [makes, amount_toInt read] at debits
  rw [read, debits]

theorem amounts_debited {args : Args} {i : Nat} {usage : String} {make : Int64 → Int64 → Action}
    {action : Action} {n : Int} (makes : ∀ amt other, debited (make amt other) = some amt.toInt)
    (asks : amounts args i usage make = .ok action) (debits : debited action = some n)
    : args.amount i = some n := by
  unfold amounts at asks
  split at asks <;> cases asks
  rename_i amount other read _
  rw [makes, amount_toInt read] at debits
  rw [read, debits]

/-- The entrypoints of the site's table, each with its argument. -/
theorem listed_entrypoint {e : Entrypoint} {i : Nat}
    (listed : tokenDebitOps.lookup e.name = some i)
    : (e, i) ∈ [(Entrypoint.transfer, 1), (.burn, 0), (.fund, 1), (.mint, 0), (.promotePost, 2),
        (.addLiquidity, 0), (.swapLassecashHbd, 0)] := by
  revert i
  cases e <;> decide

/-- What the contract debits is the amount in the argument that the site's table names. -/
theorem debits_amount {entrypoint args : String} {i : Nat} {n : Int}
    (listed : tokenDebitOps.lookup entrypoint = some i) (debits : Debits entrypoint args n)
    : (parseArgs args).amount i = some n := by
  obtain ⟨e, rfl, takes⟩ := debits
  obtain ⟨action, asks, debits⟩ := takes { sender := "", height := 0 }
  have entry := listed_entrypoint listed
  simp only [List.mem_cons, List.not_mem_nil, or_false, Prod.mk.injEq] at entry
  rcases entry with ⟨rfl, rfl⟩ | ⟨rfl, rfl⟩ | ⟨rfl, rfl⟩ | ⟨rfl, rfl⟩ | ⟨rfl, rfl⟩ | ⟨rfl, rfl⟩
    | ⟨rfl, rfl⟩
  all_goals simp only [Entrypoint.action, App.authored] at asks
  case inl =>
      split at asks
      · cases asks
      · exact amountArg_debited (fun _ => rfl) asks debits
  case inr.inl => exact amountArg_debited (fun _ => rfl) asks debits
  case inr.inr.inl =>
      split at asks
      · cases asks
      · exact amountArg_debited (fun _ => rfl) asks debits
  case inr.inr.inr.inl =>
      split at asks <;> cases asks
      rename_i amount days read _
      rw [debited, amount_toInt read] at debits
      rw [read, debits]
  case inr.inr.inr.inr.inl =>
      split at asks
      · cases asks
      · exact amountArg_debited (fun _ => rfl) asks debits
  case inr.inr.inr.inr.inr.inl => exact amounts_debited (fun _ _ => rfl) asks debits
  case inr.inr.inr.inr.inr.inr => exact amounts_debited (fun _ _ => rfl) asks debits

-----------------------------------------------------------------------------------------
-- What rides along
-----------------------------------------------------------------------------------------

/-- The planned call that a bundled call carries out. -/
def asPlanned (c : BundledCall) : PlannedCall := ⟨c.action, c.payload⟩

/-- (Plain c) says that the call is of the signer's contract and lets it draw nothing. -/
def Plain (c : BundledCall) : Prop := c.contractId = none ∧ c.intents = []

theorem affordable_begins (limits : Nat → Except TxResult Nat) (i : Nat) (calls : List PlannedCall)
    : (affordable limits i calls).map asPlanned <+: calls := by
  induction calls generalizing i with
  | nil => exact List.nil_prefix
  | cons pc rest ih =>
      rw [affordable]
      split
      · exact List.nil_prefix
      · exact List.prefix_cons_inj pc |>.mpr (ih (i + 1))

theorem affordable_plain (limits : Nat → Except TxResult Nat) (i : Nat) (calls : List PlannedCall)
    : ∀ c ∈ affordable limits i calls, Plain c := by
  induction calls generalizing i with
  | nil => exact fun c there => absurd there List.not_mem_nil
  | cons pc rest ih =>
      rw [affordable]
      split
      · exact fun c there => absurd there List.not_mem_nil
      · exact List.forall_mem_cons.mpr ⟨⟨rfl, rfl⟩, ih (i + 1)⟩

theorem admitted_sublist (limits : Nat → Except TxResult Nat) (i : Nat) (calls : List PlannedCall)
    : ((admitted limits i calls).map asPlanned).Sublist calls := by
  induction calls generalizing i with
  | nil => exact List.nil_sublist _
  | cons sc rest ih =>
      rw [admitted]
      split
      · exact (ih (i + 1)).cons sc
      · exact (ih (i + 1)).cons_cons sc

theorem admitted_plain (limits : Nat → Except TxResult Nat) (i : Nat) (calls : List PlannedCall)
    : ∀ c ∈ admitted limits i calls, Plain c := by
  induction calls generalizing i with
  | nil => exact fun c there => absurd there List.not_mem_nil
  | cons sc rest ih =>
      rw [admitted]
      split
      · exact ih (i + 1)
      · exact List.forall_mem_cons.mpr ⟨⟨rfl, rfl⟩, ih (i + 1)⟩

-----------------------------------------------------------------------------------------
-- Bundles
-----------------------------------------------------------------------------------------

namespace AiohaSigner

section

variable (s : AiohaSigner) (runs : DryRuns) (entrypoint args : String) (opts : SubmitOptions)

/-- The transaction carries the allowance, the slices, the user's call and the settlements in
this order, and the contract debits the call of exactly what the allowance grants.
-/
structure Sent (tx : Transaction) : Prop where
  laid_out : ∃ limit intents, runs.own = .ok limit ∧ intentsOf entrypoint args = some intents
    ∧ tx.calls = ((s.allowanceCall entrypoint args).toList ++ s.slices runs entrypoint args opts
        ++ ⟨entrypoint, args, limit, intents, none⟩ :: s.side runs entrypoint args opts).map
          s.vscOp
  debits : ∀ c amount, s.allowanceCall entrypoint args = some c
    → allowanceAmount entrypoint args = some amount
    → ∃ n, Debits entrypoint args n ∧ (numeral amount.toList).map Int.ofNat = some n

/-- The transaction carries only slices, at least one, because the user's call was refused for
the accrual's lag.
-/
structure Withheld (tx : Transaction) : Prop where
  lags : ∃ refusal, runs.own = .error refusal ∧ lagging refusal.msg
  laid_out : tx.calls = (s.slices runs entrypoint args opts).map s.vscOp
  some_slice : tx.calls ≠ []

/-- What may be broadcast: a bundle within Hive's ceiling, whose slices begin the planned ones
and whose settlements are among the planned ones.
-/
structure Tied (tx : Transaction) : Prop where
  within : tx.calls.length ≤ hiveCustomJsonPerBlock
  slices_planned : (s.slices runs entrypoint args opts).map asPlanned <+: opts.preCalls
  side_planned : ((s.side runs entrypoint args opts).map asPlanned).Sublist opts.sideCalls
  plain : ∀ c ∈ s.slices runs entrypoint args opts ++ s.side runs entrypoint args opts, Plain c
  bundle : s.Sent runs entrypoint args opts tx ∨ s.Withheld runs entrypoint args opts tx

/-- Every broadcast is tied, and only the dry run of the user's own call withholds it. -/
def Bundles : Prop :=
  (∀ wallet tx r, s.submit runs entrypoint args opts wallet = .broadcast tx r
      → s.Tied runs entrypoint args opts tx)
    ∧ ∀ wallet limit intents, runs.own = .ok limit → intentsOf entrypoint args = some intents
      → ∃ tx r, s.submit runs entrypoint args opts wallet = .broadcast tx r
        ∧ s.vscOp ⟨entrypoint, args, limit, intents, none⟩ ∈ tx.calls

/-- Where an allowance is attached, the call is not refused for the accrual's lag, and when it is
sized the contract takes its arguments.
-/
def Spends : Prop :=
  ∀ c intents, s.allowanceCall entrypoint args = some c
    → intentsOf entrypoint args = some intents
    → match runs.own with
      | .ok _ => ∃ n, Debits entrypoint args n
      | .error refusal => lagging refusal.msg = false

end

section

variable (s : AiohaSigner) (runs : DryRuns) (entrypoint args : String) (opts : SubmitOptions)

theorem slices_length
    : (s.slices runs entrypoint args opts).length ≤ (s.preWanted entrypoint args opts).length := by
  have planned := (affordable_begins runs.pre 0 (s.preWanted entrypoint args opts)).length_le
  rwa [List.length_map] at planned

theorem side_length
    : (s.side runs entrypoint args opts).length
      ≤ s.preSlots entrypoint args - (s.preWanted entrypoint args opts).length := by
  have planned := (admitted_sublist runs.side 0 (s.sideWanted entrypoint args opts)).length_le
  rw [List.length_map] at planned
  refine le_trans planned ?_
  unfold sideWanted
  exact le_trans (List.length_take_le _ _) (min_le_right _ _)

/-- The allowance, the slices, the user's call and the settlements fit under Hive's ceiling. -/
theorem bundle_length
    : (s.allowanceCall entrypoint args).toList.length + (s.slices runs entrypoint args opts).length
      + (1 + (s.side runs entrypoint args opts).length) ≤ hiveCustomJsonPerBlock := by
  have wanted : (s.preWanted entrypoint args opts).length ≤ s.preSlots entrypoint args :=
    List.length_take_le _ _
  have before := s.slices_length runs entrypoint args opts
  have behind := s.side_length runs entrypoint args opts
  have granted : (s.allowanceCall entrypoint args).toList.length ≤ 1 :=
    Option.length_toList_le
  unfold preSlots hiveCustomJsonPerBlock at *
  omega

/-- Whatever is laid out as a bundle within the ceiling is tied. -/
theorem tied_of_bundle {tx : Transaction} (within : tx.calls.length ≤ hiveCustomJsonPerBlock)
    (bundle : s.Sent runs entrypoint args opts tx ∨ s.Withheld runs entrypoint args opts tx)
    : s.Tied runs entrypoint args opts tx where
  within := within
  slices_planned := (affordable_begins _ _ _).trans (List.take_prefix _ _)
  side_planned := (admitted_sublist _ _ _).trans (List.take_sublist _ _)
  plain := List.forall_mem_append.mpr ⟨affordable_plain _ _ _, admitted_plain _ _ _⟩
  bundle := bundle

theorem allowanceCall_amount {c : BundledCall} (granted : s.allowanceCall entrypoint args = some c)
    : ∃ amount i, allowanceAmount entrypoint args = some amount
      ∧ tokenDebitOps.lookup entrypoint = some i ∧ amount = trim ((field args i).getD "0")
      ∧ amount.toList.all Char.isDigit := by
  unfold allowanceCall at granted
  split at granted
  · rename_i token amount _ written
    have found := written
    unfold allowanceAmount at found
    split at found
    · cases found
    · rename_i i listed
      dsimp only at found
      split at found
      · rename_i digits
        obtain rfl := Option.some.inj found
        exact ⟨_, i, written, listed, rfl, digits.1.2⟩
      · cases found
  · cases granted

/-- The allowance that accompanies a call is of exactly what the contract debits for it. -/
theorem allowance_debits {c : BundledCall} {n : Int}
    (granted : s.allowanceCall entrypoint args = some c) (debits : Debits entrypoint args n)
    {amount : String} (written : allowanceAmount entrypoint args = some amount)
    : (numeral amount.toList).map Int.ofNat = some n := by
  obtain ⟨amount', i, written', listed, rfl, digits⟩ :=
    s.allowanceCall_amount entrypoint args granted
  obtain rfl := Option.some.inj (written.symm.trans written')
  exact amount_written digits (debits_amount listed debits)

/-- The transaction of a call whose dry run is sized. -/
def ownBundle (limit : Nat) (intents : List Intent) : Transaction :=
  s.broadcastCalls
    ((s.allowanceCall entrypoint args).toList ++ s.slices runs entrypoint args opts
      ++ ⟨entrypoint, args, limit, intents, none⟩ :: s.side runs entrypoint args opts)
    (keyTypeOf entrypoint) (hiveVotes s.account entrypoint args)

variable (wallet : Transaction → TxResult)

theorem submit_sized {limit : Nat} {intents : List Intent} (sized : runs.own = .ok limit)
    (draws : intentsOf entrypoint args = some intents)
    : s.submit runs entrypoint args opts wallet
      = .broadcast (s.ownBundle runs entrypoint args opts limit intents)
          (wallet (s.ownBundle runs entrypoint args opts limit intents)) := by
  simp only [submit, draws, sized]
  rfl

/-- A refused call is withheld with nothing, or with what was to go ahead of it. -/
theorem submit_refused {refusal : TxResult} {intents : List Intent}
    (refused : runs.own = .error refusal) (draws : intentsOf entrypoint args = some intents)
    {pre : List BundledCall}
    (ahead : pre = (s.allowanceCall entrypoint args).toList ++ s.slices runs entrypoint args opts)
    : if pre.length > 0 ∧ lagging refusal.msg then
        ∃ r, s.submit runs entrypoint args opts wallet
          = .broadcast (s.broadcastCalls pre (keyTypeOf entrypoint) []) r
      else s.submit runs entrypoint args opts wallet = .refused refusal := by
  subst ahead
  simp only [submit, draws, refused]
  split
  · exact ⟨_, rfl⟩
  · rfl

theorem submit_threw (throws : intentsOf entrypoint args = none)
    : s.submit runs entrypoint args opts wallet = .threw := by
  simp only [submit, throws]

/-- What is sent with a sized call is a bundle when the contract takes the call. -/
theorem ownBundle_tied {limit : Nat} {intents : List Intent} (sized : runs.own = .ok limit)
    (draws : intentsOf entrypoint args = some intents)
    (takes : s.allowanceCall entrypoint args ≠ none → ∃ n, Debits entrypoint args n)
    : s.Tied runs entrypoint args opts (s.ownBundle runs entrypoint args opts limit intents) := by
  refine s.tied_of_bundle runs entrypoint args opts ?_ (.inl ⟨⟨limit, intents, sized, draws, rfl⟩, ?_⟩)
  · have fits := s.bundle_length runs entrypoint args opts
    simp only [ownBundle, broadcastCalls, List.length_map, List.length_append, List.length_cons]
    omega
  · intro c amount granted written
    obtain ⟨n, debits⟩ := takes (by rw [granted]; exact Option.some_ne_none c)
    exact ⟨n, debits, s.allowance_debits entrypoint args granted debits written⟩

variable {s runs entrypoint args opts}

/-- Where every broadcast is tied, an attached allowance goes with a call that is sent. -/
theorem Bundles.spends (bundles : s.Bundles runs entrypoint args opts)
    : s.Spends runs entrypoint args := by
  intro c intents granted draws
  cases own : runs.own with
  | ok limit =>
      have sent := bundles.1 (fun _ => ⟨true, 0, "", none⟩) _ _
        (s.submit_sized runs entrypoint args opts _ own draws)
      obtain ⟨amount, -, written, -⟩ := s.allowanceCall_amount entrypoint args granted
      rcases sent.bundle with sent | withheld
      · obtain ⟨n, debits, -⟩ := sent.debits c amount granted written
        exact ⟨n, debits⟩
      · obtain ⟨refusal, refused, -⟩ := withheld.lags
        cases refused.symm.trans own
  | error refusal =>
      refine Bool.eq_false_iff.mpr fun lags => ?_
      have outcome := s.submit_refused runs entrypoint args opts (fun _ => ⟨true, 0, "", none⟩)
        own draws rfl
      rw [granted, if_pos ⟨Nat.succ_pos _, lags⟩] at outcome
      obtain ⟨r, broadcast⟩ := outcome
      rcases (bundles.1 _ _ _ broadcast).bundle with sent | withheld
      · obtain ⟨limit, -, sent, -⟩ := sent.laid_out
        cases sent.symm.trans own
      · -- the allowance is one call more than the slices
        have longer := congrArg List.length withheld.laid_out
        simp only [broadcastCalls, List.length_map, List.length_append, Option.toList_some,
          List.length_singleton] at longer
        omega

/-- A refused call that had no allowance is withheld with slices alone. -/
theorem withheld_tied {refusal : TxResult} (own : runs.own = .error refusal)
    (alone : s.allowanceCall entrypoint args = none)
    (ahead : (s.slices runs entrypoint args opts).length > 0 ∧ lagging refusal.msg)
    : s.Tied runs entrypoint args opts
        (s.broadcastCalls (s.slices runs entrypoint args opts) (keyTypeOf entrypoint) []) := by
  have fits := s.bundle_length runs entrypoint args opts
  rw [alone, Option.toList_none, List.length_nil] at fits
  refine s.tied_of_bundle runs entrypoint args opts ?_ (.inr ⟨⟨refusal, own, ahead.2⟩, rfl, ?_⟩)
  · simp only [broadcastCalls, List.length_map]
    omega
  · exact List.ne_nil_of_length_pos (by
      simpa only [broadcastCalls, List.length_map] using ahead.1)

/-- Where an attached allowance goes with a call that is sent, every broadcast is tied. -/
theorem Spends.bundles (spends : s.Spends runs entrypoint args)
    : s.Bundles runs entrypoint args opts := by
  refine ⟨fun wallet tx r broadcast => ?_, fun wallet limit intents sized draws => ?_⟩
  · cases draws : intentsOf entrypoint args with
    | none => cases broadcast.symm.trans (s.submit_threw runs entrypoint args opts wallet draws)
    | some intents =>
        cases own : runs.own with
        | ok limit =>
            cases broadcast.symm.trans (s.submit_sized runs entrypoint args opts wallet own draws)
            refine s.ownBundle_tied runs entrypoint args opts own draws fun present => ?_
            obtain ⟨c, granted⟩ := Option.ne_none_iff_exists'.mp present
            have takes := spends c intents granted draws
            rwa [own] at takes
        | error refusal =>
            have outcome := s.submit_refused runs entrypoint args opts wallet own draws rfl
            split at outcome
            · rename_i ahead
              obtain ⟨r', same⟩ := outcome
              cases broadcast.symm.trans same
              have alone : s.allowanceCall entrypoint args = none := by
                refine Option.eq_none_iff_forall_ne_some.mpr fun c granted => ?_
                have taken := spends c intents granted draws
                rw [own] at taken
                exact absurd (taken.symm.trans ahead.2) Bool.false_ne_true
              rw [alone, Option.toList_none, List.nil_append] at ahead ⊢
              exact withheld_tied own alone ahead
            · cases broadcast.symm.trans outcome
  · refine ⟨_, _, s.submit_sized runs entrypoint args opts wallet sized draws, ?_⟩
    simp only [ownBundle, broadcastCalls]
    exact List.mem_map_of_mem (List.mem_append_right _ List.mem_cons_self)

end

/-- A bundle grants no more than its own call spends exactly when an allowance is attached only to
a call that is sent and that the contract takes.
-/
theorem bundle_tied (s : AiohaSigner) (runs : DryRuns) (entrypoint args : String)
    (opts : SubmitOptions)
    : s.Bundles runs entrypoint args opts ↔ s.Spends runs entrypoint args :=
  ⟨Bundles.spends, Spends.bundles⟩

end AiohaSigner

/-- A signer of a contract whose ledger is a token. -/
def bobSigner : AiohaSigner := ⟨"hive:bob", "vsc1core", some "vsc1token"⟩

/-- A mint that is refused for the accrual's lag, with a slice that is not. -/
def laggingRuns : DryRuns where
  own := .error ⟨false, 0, "accrual is behind; call advance then mint again", none⟩
  pre := fun _ => .ok 10000
  side := fun _ => .ok 4000

/-- The mint is withheld and its allowance is granted all the same. -/
theorem lag_orphans_allowance
    : ¬bobSigner.Bundles laggingRuns "mint" "100000000|30" { preCalls := [⟨"advance", ""⟩] }
      ∧ ∃ tx r, bobSigner.submit laggingRuns "mint" "100000000|30"
          { preCalls := [⟨"advance", ""⟩] } (fun _ => ⟨true, 0, "submitted", none⟩)
            = .broadcast tx r
        ∧ tx.calls = [
          ⟨"vsc1token", "increaseAllowance",
            "\x7b\"spender\":\"contract:vsc1core\",\"amount\":\"100000000\"\x7d", 1000, []⟩,
          ⟨"vsc1core", "advance", "", 10000, []⟩] := by
  have granted : (bobSigner.allowanceCall "mint" "100000000|30").isSome := by decide +kernel
  obtain ⟨c, granted⟩ := Option.isSome_iff_exists.mp granted
  constructor
  · intro bundles
    have asked : lagging "accrual is behind; call advance then mint again" = false :=
      bundles.spends c [] granted (by decide +kernel)
    exact absurd asked (by decide +kernel)
  · exact ⟨_, _, rfl, by decide +kernel⟩

end LasseCash.Api
