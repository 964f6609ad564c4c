import LasseCash.Engine.Merkle
import LasseCash.State.Mint

/-! How the snapshot's value enters: credits pushed by the owner (`contract/state/ledger.go`)
and positions claimed against a committed Merkle root (`contract/state/claim.go`).
-/

namespace LasseCash.State

open Engine MachineInt

-----------------------------------------------------------------------------------------
-- Pushed credits
-----------------------------------------------------------------------------------------

/-- Emission has been credited past genesis, after which no snapshot value is pushed. -/
def emissionStarted (r : Rows) : Bool := r.getU64 .settled > genesisHeight r

/-- The amounts of a snapshot position that no migration path accepts. -/
def badPosition (liquid staked : Int) : Bool :=
  liquid < 0 || staked < 0 || i64 (liquid + staked) ≤ 0

/-- Supply after a push, together with all future emission, within the cap. The sum is the
source's plain `int64` sum.
-/
def breachesCap (next : Int) : Bool := i64 (next + emissionCap) > historicHardCap

/-- A credit that is skipped when nothing is due. -/
def creditIfAny (account : String) (amt : Int) : Op Bool :=
  if amt > 0 then credit account amt else return true

/-- Turns staked power into a mint that starts at genesis, whenever it is sent. -/
def creditMigrationMint (account : String) (staked : Int) : Op Bool := do
  let r ← rows
  match newMigrationMint account staked (genesisHeight r) with
  | none => return false
  | some m => return (← registerMints (genesisHeight r) [m]).isSome

/-- The mint of a push that carries stake. -/
def stakeIfAny (account : String) (staked : Int) : Op Bool :=
  if staked > 0 then creditMigrationMint account staked else return true

/-- Credits one account's snapshot position. -/
def creditMigration (account : String) (liquid staked : Int) : Op Result := do
  let r ← rows
  if !r.init then return fail "not initialised"
  if emissionStarted r then return fail "migration closed: emission already started"
  if badPosition liquid staked then return fail "amount must be positive"
  if account = burnAccount ∧ staked > 0 then return fail "null cannot stake"
  if (r.migDone account).isSome then return fail "account already migrated"
  let migrated := r.getAmount .migrated
  match addAmount migrated (i64 (liquid + staked)) with
  | none => return fail "overflow"
  | some next =>
      if breachesCap next then return fail "would breach 51M hardcap"
      -- the supply has to exist before anything can receive it
      if !(← mintSupply .migrated (i64 (next - migrated))) then return fail "supply mint failed"
      if !(← creditIfAny account liquid) then return fail "credit failed"
      if !(← stakeIfAny account staked) then return fail "migration mint failed"
      modify (·.setMigDone account (.migrated liquid staked))
      return ok "migrated"

/-- One account's snapshot position in a batch. -/
structure MigrationEntry where
  account : String
  liquid : Int
  staked : Int
  deriving DecidableEq

def maxMigrateBatch : Nat := 50

/-- What a validation loop makes of a batch: the total to add and the entries not recorded yet, or
the refusal. `inBatch` holds the accounts seen so far.
-/
abbrev Validation := Rows → List String → List MigrationEntry → Int
  → Except Result (Int × List MigrationEntry)

/-- The validation loop of `CreditMigrationBatch`. -/
def validateCredits (r : Rows) : List String → List MigrationEntry → Int
    → Except Result (Int × List MigrationEntry)
  | _, [], toAdd => .ok (toAdd, [])
  | inBatch, e :: rest, toAdd =>
      if badPosition e.liquid e.staked then
        .error (fail (e.account ++ ": amount must be positive"))
      else if e.account = burnAccount ∧ e.staked > 0 then .error (fail "null cannot stake")
      else if e.account ∈ inBatch then
        .error (fail (e.account ++ ": duplicated within the batch"))
      else if (r.migDone e.account).isSome then
        -- already recorded: a resent batch skips it
        validateCredits r (e.account :: inBatch) rest toAdd
      else
        match addAmount toAdd (i64 (e.liquid + e.staked)) with
        | none => .error (fail "overflow")
        | some next => do
            let (total, fresh) ← validateCredits r (e.account :: inBatch) rest next
            return (total, e :: fresh)

/-- The validation loop of `BurnMigrationBatch`, which takes a stake of the null account. -/
def validateBurns (r : Rows) : List String → List MigrationEntry → Int
    → Except Result (Int × List MigrationEntry)
  | _, [], toAdd => .ok (toAdd, [])
  | inBatch, e :: rest, toAdd =>
      if badPosition e.liquid e.staked then
        .error (fail (e.account ++ ": amount must be positive"))
      else if e.account ∈ inBatch then
        .error (fail (e.account ++ ": duplicated within the batch"))
      else if (r.migDone e.account).isSome then
        -- already migrated or already burned: never twice
        validateBurns r (e.account :: inBatch) rest toAdd
      else
        match addAmount toAdd (i64 (e.liquid + e.staked)) with
        | none => .error (fail "overflow")
        | some next => do
            let (total, fresh) ← validateBurns r (e.account :: inBatch) rest next
            return (total, e :: fresh)

/-- The checks that a batch makes before writing anything, with its own validation loop: the amount
to mint and the entries to record, or the refusal.
-/
def admitBatch (validate : Validation) (r : Rows) (entries : List MigrationEntry)
    : Except Result (Int × List MigrationEntry) := do
  if !r.init then throw (fail "not initialised")
  if emissionStarted r then throw (fail "migration closed: emission already started")
  if entries.isEmpty then throw (fail "empty batch")
  if entries.length > maxMigrateBatch then
    throw (fail ("batch exceeds " ++ encU64 maxMigrateBatch ++ " accounts"))
  let (toAdd, fresh) ← validate r [] entries 0
  let migrated := r.getAmount .migrated
  match addAmount migrated toAdd with
  | none => throw (fail "overflow")
  | some total =>
      if breachesCap total then throw (fail "would breach 51M hardcap")
      return (i64 (total - migrated), fresh)

/-- The paying loop of `CreditMigrationBatch`: credits the liquid parts and collects the
mints of the staked ones, or refuses.
-/
def payBatch (genesis : Nat) : List MigrationEntry → Op (Except Result (List Mint))
  | [] => return .ok []
  | e :: rest => do
      if !(← creditIfAny e.account e.liquid) then return .error (fail "credit failed")
      match stakeMint e with
      | none => return .error (fail "migration mint failed")
      | some mints =>
          modify (·.setMigDone e.account (.migrated e.liquid e.staked))
          match ← payBatch genesis rest with
          | .error refusal => return .error refusal
          | .ok more => return .ok (mints ++ more)
where
  /-- The mint of an entry's stake, if it has any. -/
  stakeMint (e : MigrationEntry) : Option (List Mint) :=
    if e.staked > 0 then (newMigrationMint e.account e.staked genesis).map fun m => [m]
    else some []

/-- Registers a batch's mints in bulk, if there are any. -/
def registerBatch (genesis : Nat) (mints : List Mint) : Op Bool :=
  if mints.isEmpty then return true else return (← registerMints genesis mints).isSome

/-- Credits up to fifty snapshot positions. -/
def creditMigrationBatch (entries : List MigrationEntry) : Op Result := do
  let r ← rows
  match admitBatch validateCredits r entries with
  | .error refusal => return refusal
  | .ok (delta, fresh) =>
      if !(← mintSupply .migrated delta) then return fail "supply mint failed"
      match ← payBatch (genesisHeight r) fresh with
      | .error refusal => return refusal
      | .ok mints =>
          if !(← registerBatch (genesisHeight r) mints) then return fail "migration mint failed"
          return ok ("migrated " ++ encU64 fresh.length ++ " of " ++ encU64 entries.length)

/-- Marks every entry of a burned batch. -/
def recordBurned (r : Rows) (entries : List MigrationEntry) : Rows :=
  entries.foldl (fun r e => r.setMigDone e.account (.burned e.liquid e.staked)) r

/-- Records up to fifty burned snapshot positions and credits their sum to null. -/
def burnMigrationBatch (entries : List MigrationEntry) : Op Result := do
  match admitBatch validateBurns (← rows) entries with
  | .error refusal => return refusal
  | .ok (delta, fresh) =>
      if !(← mintSupply .migrated delta) then return fail "supply mint failed"
      modify (recordBurned · fresh)
      if !(← burn (toNull fresh)) then return fail "burn failed"
      return ok ("burned " ++ encU64 fresh.length ++ " of " ++ encU64 entries.length ++ " to null")
where
  /-- The running sum that is credited to null. -/
  toNull (fresh : List MigrationEntry) : Int :=
    fresh.foldl (fun total e => i64 (total + i64 (e.liquid + e.staked))) 0

-----------------------------------------------------------------------------------------
-- Claims against a committed root
-----------------------------------------------------------------------------------------

/-- When claiming closes: the end of the migration mints' bleed. -/
def claimDeadlineHeight (r : Rows) : Nat :=
  u64 (genesisHeight r + (migrationMintDays + graceDays + bleedDays) * heightsPerDay)

/-- The whole committed snapshot, burned and claimable. -/
def snapshotTotal (r : Rows) : Int := i64 (r.getAmount .migTotal + r.getAmount .migBurn)

/-- Writes the committed root and its totals. -/
def commitSnapshot (r : Rows) (rootHex : String) (qualifierTotal burnTotal : Int) : Rows :=
  ((r.setMigRoot rootHex).setAmount .migTotal qualifierTotal).setAmount .migBurn burnTotal

/-- Commits the snapshot tree, once, and credits its burned part to null. -/
def setSnapshot (rootHex : String) (qualifierTotal burnTotal : Int) : Op Result := do
  let r ← rows
  if !r.init then return fail "not initialised"
  if emissionStarted r then return fail "migration closed: emission already started"
  if r.migRoot.isSome then return fail "snapshot already committed"
  if (hexToHash rootHex).isNone then return fail "root must be 64 hex characters"
  if qualifierTotal < 0 ∨ burnTotal < 0 ∨ i64 (qualifierTotal + burnTotal) ≤ 0 then
    return fail "totals must be positive"
  let whole := i64 (qualifierTotal + burnTotal)
  if breachesCap (i64 (r.getAmount .migrated + whole)) then
    return fail "would breach 51M hardcap"
  setRows (commitSnapshot r rootHex qualifierTotal burnTotal)
  if burnTotal > 0 then
    if !(← mintSupply .migrated burnTotal) then return fail "supply mint failed"
    if !(← burn burnTotal) then return fail "burn failed"
    return ok "snapshot committed"
  else return ok "snapshot committed"

/-- The white space of Unicode. -/
def isSpace (c : Char) : Bool :=
  let n := c.toNat
  (9 ≤ n && n ≤ 13) || (0x2000 ≤ n && n ≤ 0x200A)
    || n ∈ [0x20, 0x85, 0xA0, 0x1680, 0x2028, 0x2029, 0x202F, 0x205F, 0x3000]

/-- White space at both ends is dropped from a proof's hashes. -/
def trimSpace (s : String) : String :=
  .ofList ((s.toList.dropWhile isSpace).reverse.dropWhile isSpace).reverse

/-- Checks one leaf and its proof against the committed root. -/
def verifyLeaf (rootHex account : String) (liquid staked : Int) (burned : Bool)
    (proofHex : List String) : Bool :=
  match hexToHash rootHex with
  | none => false
  | some root =>
      if proofHex.length > maxProofLen then false
      else
        match proofHex.mapM fun p => hexToHash (trimSpace p) with
        | none => false
        | some proof => verifyProof (leafHash account liquid staked burned) proof root

/-- What a claim pays at once and what it recycles. Before maturity the stake becomes a real
mint, afterwards its mint is settled here without yield. `none` while the walk is behind.
-/
def claimStake (ctx : Ctx) (staked : Int) : Op (Option (Int × Int)) := do
  let r ← rows
  match newMigrationMint ctx.sender staked (genesisHeight r) with
  | none => return some (0, 0)
  | some m =>
      if !m.isMature ctx.height then
        if !(← accrue ctx.height) then return none
        match ← registerMints ctx.height [m] with
        | none => return none
        | some _ => return some (0, 0)
      else
        let st := m.settle ctx.height 0
        return some (st.toOwner, st.toRewardPool)

/-- Writes what a claim leaves behind. -/
def recordClaim (r : Rows) (account : String) (liquid staked claimed recycled : Int) : Rows :=
  ((recycle r recycled).setAmount .migClaimed claimed).setMigDone account
    (.migrated liquid staked)

/-- Collects the sender's snapshot position. -/
def claimMigration (ctx : Ctx) (liquid staked : Int) (proofHex : List String) : Op Result := do
  let r ← rows
  if !r.init then return fail "not initialised"
  match r.migRoot with
  | none => return fail "snapshot not committed yet"
  | some rootHex =>
      if ctx.height ≥ claimDeadlineHeight r then return fail "claim window closed"
      if ctx.sender = burnAccount then return fail "null cannot act"
      if badPosition liquid staked then return fail "amount must be positive"
      if (r.migDone ctx.sender).isSome then return fail "already claimed"
      if !verifyLeaf rootHex ctx.sender liquid staked false proofHex then
        return fail "proof does not match the snapshot"
      match addAmount (r.getAmount .migClaimed) (i64 (liquid + staked)) with
      | none => return fail "claim exceeds the committed snapshot"
      | some next =>
          if next > r.getAmount .migTotal then
            return fail "claim exceeds the committed snapshot"
          match ← claimStake ctx staked with
          | none => return fail "accrual is behind; call advance then claim again"
          | some (toOwner, recycled) =>
              let paid := i64 (liquid + toOwner)
              if !(← mintSupply .migrated (i64 (liquid + staked))) then
                return fail "supply mint failed"
              if !(← creditIfAny ctx.sender paid) then return fail "credit failed"
              modify (recordClaim · ctx.sender liquid staked next recycled)
              return ok ("claimed " ++ encI64 paid ++ " liquid")

/-- Writes the receipt of a burned leaf; nothing moves. -/
def recordBurn (account : String) (liquid staked : Int) (proofHex : List String)
    : Op Result := do
  let r ← rows
  match r.migRoot with
  | none => return fail "snapshot not committed yet"
  | some rootHex =>
      if account = "" ∨ badPosition liquid staked then return fail "bad entry"
      if (r.migDone account).isSome then return fail "already recorded"
      if !verifyLeaf rootHex account liquid staked true proofHex then
        return fail "proof does not match the snapshot"
      setRows (r.setMigDone account (.burned liquid staked))
      return ok "burn recorded"

/-- Mints and recycles the part of the snapshot that nobody claimed. -/
def recycleRemainder (remainder : Int) : Op Bool := do
  if remainder > 0 then
    if !(← mintSupply .migrated remainder) then return false
    modify (recycle · remainder)
    return true
  else return true

/-- Recycles the unclaimed remainder, once, after the window has closed. -/
def sweepUnclaimed (ctx : Ctx) : Op Result := do
  let r ← rows
  if r.migRoot.isNone then return fail "snapshot not committed yet"
  if ctx.height < claimDeadlineHeight r then return fail "claim window still open"
  if r.migSwept then return fail "already swept"
  if !(← accrue ctx.height) then return fail "accrual is behind; call advance then sweep again"
  let r ← rows
  let remainder := i64 (r.getAmount .migTotal - r.getAmount .migClaimed)
  if !(← recycleRemainder remainder) then return fail "supply mint failed"
  modify (·.setMigSwept)
  return ok ("swept " ++ encI64 remainder ++ " unclaimed to the reward pool")

end LasseCash.State
