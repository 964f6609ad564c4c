import LasseCash.State.Governance

/-! Creating, ending and claiming time-lock positions: `contract/state/mint.go`. -/

namespace LasseCash.State

open Engine MachineInt

-----------------------------------------------------------------------------------------
-- Settings
-----------------------------------------------------------------------------------------

/-- The length of the monthly mint of an account that never chose one. -/
def defaultDurationDays : Int := migrationMintDays

/-- The mint length an account chose, clamped to the allowed range. -/
def mintDuration (r : Rows) (account : String) : Int :=
  match r.duration account with
  | none => defaultDurationDays
  | some d => if d < minMintDays then minMintDays else if d > maxMintDays then maxMintDays else d

def setMintDuration (ctx : Ctx) (days : Int) : Op Result := do
  if days < minMintDays ∨ days > maxMintDays then return fail "duration must be 1..1095 days"
  modify (·.setDuration ctx.sender days)
  return ok "duration set"

-----------------------------------------------------------------------------------------
-- Registration
-----------------------------------------------------------------------------------------

/-- A running `int64` total. -/
def sumI64 (values : List Int) : Int := values.foldl (fun total v => i64 (total + v)) 0

/-- The day in which a mint matures. -/
def maturityDay (r : Rows) (m : Mint) : Nat := dayOf r m.maturityHeight

/-- The stamping loop of `registerMints`: every mint receives the accumulator reading and an
id, and its owner the shares.
-/
def stampMints (acc : Int) : List Mint → Rows → Rows × List (Nat × Mint)
  | [], r => (r, [])
  | m :: rest, r =>
      let id := r.getU64 (.mintSeq m.owner) + 1
      let r := r.setU64 (.mintSeq m.owner) id
      let r := r.setAmount (.shares m.owner) (i64 (sharesOf r m.owner + m.shares))
      let (r, stamped) := stampMints acc rest (offer r m.owner)
      (r, (id, { m with accStart := acc }) :: stamped)

/-- Hands the chunks of a day's entries to the mints due that day, in order. -/
def assignChunks (due : Mint → Bool) : List (Nat × Mint) → List Nat → List (Nat × Mint)
  | (id, m) :: rest, chunk :: chunks =>
      if due m then (id, { m with expChunk := chunk }) :: assignChunks due rest chunks
      else (id, m) :: assignChunks due rest (chunk :: chunks)
  | stamped, _ => stamped

/-- Schedules the stop of every mint due on `day`: the aggregate and the list of accounts. -/
def scheduleDay (r : Rows) (stamped : List (Nat × Mint)) (day : Nat)
    : Rows × List (Nat × Mint) :=
  let due (m : Mint) : Bool := maturityDay r m = day
  let entries := (stamped.filter (due ·.2)).map fun e => (e.2.owner, e.2.shares)
  let (r, chunks) := scheduleExpiryEntries
    (scheduleExpiry r day (sumI64 (entries.map (·.2)))) day entries
  (r, assignChunks due stamped chunks)

/-- The loop over the maturity days, in the order of their first mint. -/
def scheduleDays : List Nat → Rows → List (Nat × Mint) → Rows × List (Nat × Mint)
  | [], r, stamped => (r, stamped)
  | day :: days, r, stamped =>
      let (r, stamped) := scheduleDay r stamped day
      scheduleDays days r stamped

/-- Stores the mints and notes their owners in the account roll. -/
def storeMints (r : Rows) (stamped : List (Nat × Mint)) : Rows :=
  stamped.foldl (fun r e => noteAccount (r.putMint e.1 e.2) e.2.owner) r

/-- Everything `registerMints` writes once accrual is current. Returns the new ids. -/
def enterMints (r : Rows) (mints : List Mint) : Rows × List Nat :=
  let (r, stamped) := stampMints (accPerShare r) mints r
  let r := r.setAmount .sharesTotal (i64 (totalShares r + sumI64 (mints.map (·.shares))))
  let (r, stamped) := scheduleDays (mints.map (maturityDay r)).eraseDups r stamped
  (storeMints r stamped, stamped.map (·.1))

/-- The one way mints enter state; refused while the walk is behind. -/
def registerMints (height : Nat) (mints : List Mint) : Op (Option (List Nat)) := do
  if !(← accrue height) then return none
  let (r, ids) := enterMints (← rows) mints
  setRows r
  return some ids

/-- Locks liquid LASSECASH into a new position. -/
def createMint (ctx : Ctx) (principal days : Int) : Op Result := do
  if !(← rows).init then return fail "not initialised"
  if principal < minMintAmount then return fail "below minimum mint amount"
  if days < minMintDays ∨ days > maxMintDays then return fail "duration must be 1..1095 days"
  if (← balance ctx.sender) < principal then return fail "insufficient balance"
  -- accrual must be current before any money moves
  if !(← accrue ctx.height) then return fail "accrual is behind; call advance then mint again"
  match newMint ctx.sender principal days ctx.height (mintParamsNow (← rows) ctx.height) with
  | none => return fail "mint would yield no shares"
  | some m =>
      if !(← debit ctx.sender principal) then return fail "insufficient balance"
      match ← registerMints ctx.height [m] with
      | none => return fail "accrual is behind; call advance then mint again"
      | some _ => return ok ("minted " ++ encI64 m.shares ++ " L-Shares")

-----------------------------------------------------------------------------------------
-- Ending
-----------------------------------------------------------------------------------------

/-- The accumulator reading a position is paid by: the live one before maturity, the
checkpoint of its maturity day afterwards, and none while that day has not closed.
-/
def accEndOf (r : Rows) (m : Mint) (height : Nat) : Option Int :=
  if height ≥ m.maturityHeight then accAtDay r (maturityDay r m) else some (accPerShare r)

/-- Takes a closed mint's shares out of whichever schedules the walk has not retired them
from, and pays its yield out of the pool.
-/
def closeMint (r : Rows) (id : Nat) (m : Mint) (accrued : Int) : Rows :=
  let matDay := maturityDay r m
  let retiredByWalk := accruedDays r > matDay
  let r := if accrued > 0 then r.setAmount .poolLShare (i64 (r.getAmount .poolLShare - accrued))
    else r
  let r := r.putMint id { m with ended := true }
  -- a partial drain may have processed this mint's chunk already
  let drained := r.getU64 (.explCursor matDay) > m.expChunk
  let r :=
    if ¬retiredByWalk ∧ ¬drained then
      let left := i64 (sharesOf r m.owner - m.shares)
      removeExpiryEntry (r.setAmount (.shares m.owner) (if left < 0 then 0 else left))
        matDay m.expChunk m.owner m.shares
    else r
  let r :=
    if ¬retiredByWalk then
      unscheduleExpiry (r.setAmount .sharesTotal (i64 (totalShares r - m.shares)))
        matDay m.shares
    else r
  offer r m.owner

/-- The yield of a position up to a reading, never more than the pool holds. -/
def accruedYield (r : Rows) (m : Mint) (accEnd : Int) : Int :=
  let accrued := entitlement m.shares m.accStart accEnd
  if accrued > r.getAmount .poolLShare then r.getAmount .poolLShare else accrued

/-- The one way a position closes. -/
def endMint (ctx : Ctx) (owner : String) (id : Nat) (sweep : Bool) : Op Result := do
  let r ← rows
  if !r.init then return fail "not initialised"
  match r.getMint owner id with
  | none => return fail "no such mint"
  | some m =>
      if m.ended then return fail "mint already ended"
      let _caughtUp ← accrue ctx.height
      let r ← rows
      match accEndOf r m ctx.height with
      | none =>
          return fail
            "mint matured today; the day has not closed yet — call advance, then claim again"
      | some accEnd =>
          let accrued := accruedYield r m accEnd
          let settlement := m.settle ctx.height accrued
          if sweep ∧ settlement.toOwner > 0 then
            return fail "mint still holds value; only the owner may end it"
          setRows (closeMint r id m accrued)
          if !(← payOwner owner settlement.toOwner) then return fail "credit failed"
          modify (recycle · settlement.toRewardPool)
          if sweep then
            return ok ("swept " ++ encI64 settlement.toRewardPool ++ " to the reward pool")
          if settlement.early then
            return ok ("ended early, recovered " ++ encI64 settlement.toOwner)
          return ok ("claimed " ++ encI64 settlement.toOwner)
where
  /-- A position that is worth nothing to its owner needs no credit. -/
  payOwner (owner : String) (amt : Int) : Op Bool :=
    if amt > 0 then credit owner amt else return true

/-- The owner closes a position, early or mature: the height decides which. -/
def claimMint (ctx : Ctx) (id : Nat) : Op Result := endMint ctx ctx.sender id false

/-- Anyone closes a position that the bleed has consumed. -/
def sweepMint (ctx : Ctx) (owner : String) (id : Nat) : Op Result := endMint ctx owner id true

/-- Extends the grace of a matured mint, before its bleed has started. -/
def armGoodAccounting (ctx : Ctx) (id : Nat) : Op Result := do
  match (← rows).getMint ctx.sender id with
  | none => return fail "no such mint"
  | some m =>
      if !m.canArmGoodAccounting ctx.height then
        if m.isMature ctx.height then
          return fail "too late: grace is over and the bleed has started"
        else return fail "too early: opens at maturity"
      modify (·.putMint id { m with goodAccounting := true })
      return ok "good accounting armed"

/-- What a mint would pay as yield right now, without settling it. -/
def pendingYield (r : Rows) (account : String) (id height : Nat) : Int :=
  match r.getMint account id with
  | none => 0
  | some m =>
      if m.ended then 0
      else
        match accEndOf r m height with
        | none => 0
        | some accEnd => entitlement m.shares m.accStart accEnd

end LasseCash.State
