import LasseCash.Lib.Program
import LasseCash.State.Ledger

/-! How operations reach the store: they are programs over a few calls, so that one text of
an operation runs on the legacy rows and on a token alike.
-/

namespace LasseCash.State

open Engine MachineInt Function

-----------------------------------------------------------------------------------------
-- The world of an operation
-----------------------------------------------------------------------------------------

/-- What moves real HBD in and out of the contract. `draw` pulls from the caller, `transfer`
sends to an address; a refusal changes nothing that the contract can see.
-/
class Assets (A : Type) where
  draw : A → Int → A × Bool
  transfer : A → String → Int → A × Bool

/-- The in-memory HBD of tests and of the simulator. -/
structure MemAssets where
  held : Int
  wallets : String → Int
  fail : Bool

def MemAssets.new : MemAssets := ⟨0, fun _ => 0, false⟩

instance : Assets MemAssets where
  draw a amount :=
    if a.fail ∨ amount ≤ 0 then (a, false) else ({ a with held := i64 (a.held + amount) }, true)
  transfer a recipient amount :=
    if a.fail ∨ hbdPayMilli amount ≤ 0 ∨ amount > a.held then (a, false)
    else
      ({ a with
          held := i64 (a.held - amount)
          wallets := update a.wallets recipient (i64 (a.wallets recipient + amount)) }, true)

/-- The contract's store and the HBD it has custody of. -/
structure World (A : Type) where
  store : Store
  assets : A

def World.rows {A : Type} (w : World A) : Rows := w.store.rows

-----------------------------------------------------------------------------------------
-- Calls
-----------------------------------------------------------------------------------------

/-- What an operation may ask for. -/
inductive Call
  | rows
  | setRows (r : Rows)
  | balance (account : String)
  | credit (account : String) (amt : Int)
  | debit (account : String) (amt : Int)
  | mintSupply (key : AmountKey) (delta : Int)
  | draw (amount : Int)
  | transferHbd (recipient : String) (amount : Int)

@[reducible]
def Reply : Call → Type
  | .rows => Rows
  | .setRows _ => Unit
  | .balance _ => Int
  | _ => Bool

/-- A program over the calls. -/
abbrev Op := Program Call Reply

/-- Serves a call on a world. -/
def serve {A : Type} [Assets A] : Program.Handler Call Reply (World A)
  | .rows, w => (w, w.store.rows)
  | .setRows r, w => ({ w with store := { w.store with rows := r } }, ())
  | .balance account, w => (w, w.store.balance account)
  | .credit account amt, w =>
      ({ w with store := (w.store.credit account amt).1 }, (w.store.credit account amt).2)
  | .debit account amt, w =>
      ({ w with store := (w.store.debit account amt).1 }, (w.store.debit account amt).2)
  | .mintSupply key delta, w =>
      ({ w with store := (w.store.mintSupply key delta).1 }, (w.store.mintSupply key delta).2)
  | .draw amount, w =>
      ({ w with assets := (Assets.draw w.assets amount).1 }, (Assets.draw w.assets amount).2)
  | .transferHbd recipient amount, w =>
      ({ w with assets := (Assets.transfer w.assets recipient amount).1 },
        (Assets.transfer w.assets recipient amount).2)

/-- The rows as they stand. -/
def rows : Op Rows := Program.issue Call.rows

def setRows (r : Rows) : Op Unit := Program.issue (Call.setRows r)

def modify (f : Rows → Rows) : Op Unit := do setRows (f (← rows))

def balance (account : String) : Op Int := Program.issue (Call.balance account)

def credit (account : String) (amt : Int) : Op Bool := Program.issue (Call.credit account amt)

def debit (account : String) (amt : Int) : Op Bool := Program.issue (Call.debit account amt)

def mintSupply (key : AmountKey) (delta : Int) : Op Bool := Program.issue (Call.mintSupply key delta)

def draw (amount : Int) : Op Bool := Program.issue (Call.draw amount)

def transferHbd (recipient : String) (amount : Int) : Op Bool :=
  Program.issue (Call.transferHbd recipient amount)

-----------------------------------------------------------------------------------------
-- Initialisation, transfers and burns
-----------------------------------------------------------------------------------------

def genesisHeight (r : Rows) : Nat := r.getU64 .genesis

/-- The emission schedule bound to this contract's genesis. -/
def schedule (r : Rows) : EmissionSchedule :=
  { defaultSchedule with genesisHeight := genesisHeight r }

/-- One-time genesis setup. -/
def init (genesis : Nat) : Op Result := do
  let r ← rows
  if r.init then return fail "already initialised"
  if genesis = 0 then return fail "genesis height must be set"
  setRows ((r.setU64 .genesis genesis).setU64 .settled genesis).setInit
  return ok ("initialised at height " ++ encU64 genesis)

/-- The null account: burned value stays in the supply, where nobody can sign for it. -/
def burnAccount : String := "hive:null"

/-- Credits the null account, the one way value is ever burned. -/
def burn (amt : Int) : Op Bool := if amt ≤ 0 then return true else credit burnAccount amt

/-- Moves liquid LASSECASH to a fully qualified address. -/
def transfer (ctx : Ctx) (recipient : String) (amt : Int) : Op Result := do
  if amt ≤ 0 then return fail "amount must be positive"
  if recipient = "" ∨ recipient = ctx.sender then return fail "invalid recipient"
  if ':' ∉ recipient.toList then
    return fail "recipient must be a full address, e.g. hive:alice"
  if !(← debit ctx.sender amt) then return fail "insufficient balance"
  if !(← credit recipient amt) then
    -- the sender is made whole again before the refusal
    let _ ← credit ctx.sender amt
    return fail "credit failed"
  return ok "transferred"

/-- Moves liquid balance to the null account. -/
def burnLiquid (ctx : Ctx) (amt : Int) : Op Result := do
  if amt ≤ 0 then return fail "amount must be positive"
  if ctx.sender = burnAccount then return fail "null cannot act"
  if !(← debit ctx.sender amt) then return fail "insufficient balance"
  if !(← burn amt) then return fail "burn failed"
  return ok "burned"

end LasseCash.State
