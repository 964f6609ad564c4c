import LasseCash.State.Store

/-! Liquid balances on the legacy rows or in a token, the supply counters and the account
roll: the balance half of `contract/state/ledger.go`, and `contract/state/tokenledger.go`.
-/

namespace LasseCash.State

open Engine MachineInt Function

-----------------------------------------------------------------------------------------
-- The token
-----------------------------------------------------------------------------------------

/-- The in-memory token: balances, total issuance and the core's own address. -/
structure MemToken where
  bal : String → Int
  supply : Int
  self : String
  fail : Bool

/-- A token nobody holds, whose core is `self`. -/
def MemToken.new (self : String) : MemToken := ⟨fun _ => 0, 0, self, false⟩

namespace MemToken

variable (t : MemToken)

/-- Creates tokens in the core's own balance. -/
def mint (amount : Int) : Option MemToken :=
  if t.fail ∨ amount ≤ 0 then none
  else
    some { t with
      bal := update t.bal t.self (i64 (t.bal t.self + amount))
      supply := i64 (t.supply + amount) }

/-- Sends from the core to an account. -/
def transfer (recipient : String) (amount : Int) : Option MemToken :=
  if t.fail ∨ amount ≤ 0 ∨ recipient = "" ∨ t.bal t.self < amount then none
  else
    let bal := update t.bal t.self (i64 (t.bal t.self - amount))
    some { t with bal := update bal recipient (i64 (bal recipient + amount)) }

/-- Pulls from an account into the core. -/
def transferFrom («from» : String) (amount : Int) : Option MemToken :=
  if t.fail ∨ amount ≤ 0 ∨ «from» = "" ∨ t.bal «from» < amount then none
  else
    let bal := update t.bal «from» (i64 (t.bal «from» - amount))
    some { t with bal := update bal t.self (i64 (bal t.self + amount)) }

end MemToken

-----------------------------------------------------------------------------------------
-- The store
-----------------------------------------------------------------------------------------

/-- The contract's state. Without a token the balances live in the legacy `bal` rows; with
one they live in the token, beside any legacy row that has not been moved yet.
-/
structure Store where
  rows : Rows
  bal : String → Option Int
  token : Option MemToken

/-- A fresh legacy store. -/
def Store.newMem : Store := ⟨.empty, fun _ => none, none⟩

/-- A fresh store whose LASSECASH lives in a token. -/
def Store.newMemToken (self : String) : Store := ⟨.empty, fun _ => none, some (.new self)⟩

/-- Rewrites the rows, leaving both ledgers alone. -/
@[simps -fullyApplied]
def Store.modify (s : Store) (f : Rows → Rows) : Store := { s with rows := f s.rows }

/-- Appends an account to the roll the first time it is seen holding value. -/
def noteAccount (r : Rows) (account : String) : Rows :=
  if account = "" then r else if r.seen account then r else r.appendAccount account

namespace Store

variable (s : Store)

def legacyBalance (account : String) : Int := (s.bal account).getD 0

/-- An account's liquid balance: the token's, plus any legacy row not yet moved. -/
def balance (account : String) : Int :=
  match s.token with
  | some t => i64 (t.bal account + s.legacyBalance account)
  | none => s.legacyBalance account

/-- Moves one account's legacy row into the token, once. -/
def ensureMigrated (t : MemToken) (account : String) : Store × MemToken × Bool :=
  let legacy := s.legacyBalance account
  if legacy ≤ 0 then (s, t, true)
  else
    match t.mint legacy with
    | none => (s, t, false)
    | some t =>
        match t.transfer account legacy with
        | none => ({ s with token := some t }, t, false)
        | some t => ({ s with bal := update s.bal account none, token := some t }, t, true)

/-- Adds to a liquid balance. On a token the core hands over its float; it never mints. -/
def credit (account : String) (amt : Int) : Store × Bool :=
  if amt < 0 then (s, false)
  else if amt = 0 then (s, true)
  else
    match s.token with
    | some t =>
        match s.ensureMigrated t account with
        | (s, _, false) => (s, false)
        | (s, t, true) =>
            match t.transfer account amt with
            | none => (s, false)
            | some t => ({ s with rows := noteAccount s.rows account, token := some t }, true)
    | none =>
        match addAmount (s.balance account) amt with
        | none => (s, false)
        | some next =>
            ({ s with
                rows := noteAccount s.rows account
                bal := update s.bal account (some next) }, true)

/-- Removes from a liquid balance, refusing to overdraw. -/
def debit (account : String) (amt : Int) : Store × Bool :=
  if amt < 0 then (s, false)
  else
    match s.token with
    | some t =>
        match s.ensureMigrated t account with
        | (s, _, false) => (s, false)
        | (s, t, true) =>
            if t.bal account < amt then (s, false)
            else
              match t.transferFrom account amt with
              | none => (s, false)
              | some t => ({ s with token := some t }, true)
    | none =>
        let cur := s.balance account
        if cur < amt then (s, false)
        else ({ s with bal := update s.bal account (some (i64 (cur - amt))) }, true)

/-- Raises a supply counter and, on a token, mints the same amount into the core. -/
def mintSupply (key : AmountKey) (delta : Int) : Store × Bool :=
  if delta < 0 then (s, false)
  else if delta = 0 then (s, true)
  else
    match addAmount (s.rows.getAmount key) delta with
    | none => (s, false)
    | some next =>
        match s.token with
        | some t =>
            match t.mint delta with
            | none => (s, false)
            | some t => ({ s with rows := s.rows.setAmount key next, token := some t }, true)
        | none => (s.modify (·.setAmount key next), true)

/-- Moves a batch of legacy balances into the token. -/
def migrateLedger (accounts : List String) : Store × Result :=
  if s.token.isNone then (s, fail "no token ledger configured")
  else go s 0 accounts
where
  /-- The batch loop, counting the moved accounts. -/
  go (s : Store) (moved : Nat) : List String → Store × Result
    | [] => (s, ok ("migrated " ++ encU64 moved))
    | a :: rest =>
        if a = "" then go s moved rest
        else if s.legacyBalance a ≤ 0 then go s moved rest
        else
          match s.token with
          | none => (s, fail "no token ledger configured")
          | some t =>
              match s.ensureMigrated t a with
              | (s, _, false) => (s, fail ("migration failed for " ++ a))
              | (s, _, true) => go s (moved + 1) rest

/-- Mints the backing that the token never received: the books less the token's supply. -/
def reconcileFloat : Store × Result :=
  match s.token with
  | none => (s, fail "no token ledger configured")
  | some t =>
      match addAmount (s.rows.getAmount .migrated) (s.rows.getAmount .emitted) with
      | none => (s, fail "supply counters overflow")
      | some books =>
          if t.supply ≥ books then (s, ok "already backed")
          else
            let need := i64 (books - t.supply)
            match t.mint need with
            | none => (s, fail "mint failed")
            | some t =>
                ({ s with token := some t }, ok ("minted " ++ encU64 (toU64 need) ++ " of backing"))

end Store

end LasseCash.State
