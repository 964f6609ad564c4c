import LasseCash.State.Operation

/-! The accrual walk of `contract/state/accrual.go`: day after day it distributes emission,
retires matured voting shares and writes the checkpoints that matured mints are paid by.
-/

namespace LasseCash.State

open Engine MachineInt

-----------------------------------------------------------------------------------------
-- Days and readings
-----------------------------------------------------------------------------------------

/-- The most days of one walk. -/
def maxAccrualDays : Nat := 1200

/-- Whole days since genesis. -/
def dayOf (r : Rows) (height : Nat) : Nat :=
  if height ≤ genesisHeight r then 0 else (height - genesisHeight r) / heightsPerDay

/-- The first height of a day. -/
def heightOfDay (r : Rows) (day : Nat) : Nat := u64 (genesisHeight r + day * heightsPerDay)

/-- The accumulator, stored as unsigned bits. -/
def accPerShare (r : Rows) : Int := i64 (r.getU64 .accPerShare)

def accruedDays (r : Rows) : Nat := r.getU64 .accDay

def sharesOf (r : Rows) (account : String) : Int := r.getAmount (.shares account)

def totalShares (r : Rows) : Int := r.getAmount .sharesTotal

/-- The checkpoint for the end of a day, once the walk has passed it. -/
def accAtDay (r : Rows) (day : Nat) : Option Int :=
  if accruedDays r ≤ day then none else some (i64 (r.getU64 (.accAt day)))

-----------------------------------------------------------------------------------------
-- The expiry schedule
-----------------------------------------------------------------------------------------

/-- Records that `shares` stop earning at the end of `day`. -/
def scheduleExpiry (r : Rows) (day : Nat) (shares : Int) : Rows :=
  r.setAmount (.exp day) (i64 (r.getAmount (.exp day) + shares))

/-- The new chunks of a day's list, from chunk `count` on. Returns the number of chunks and
the chunk of every entry; `fuel` bounds the number of rounds.
-/
def newChunks (day : Nat) : Nat → Nat → List ExpiryEntry → Rows → Rows × Nat × List Nat
  | _, count, [], r => (r, count, [])
  | 0, count, _, r => (r, count, [])
  | fuel + 1, count, entry :: rest, r =>
      let chunk := (entry :: rest).take expiryChunkSize
      let (r, total, chunks) :=
        newChunks day fuel (count + 1) ((entry :: rest).drop expiryChunkSize)
          (r.setExpiry day count (some chunk))
      (r, total, chunk.map (fun _ => count) ++ chunks)

/-- How many of the entries the last chunk of a day still takes, and that chunk. -/
def topUp (r : Rows) (day : Nat) (entries : List ExpiryEntry) : Option (Nat × List ExpiryEntry) :=
  let count := r.getU64 (.explCount day)
  if count = 0 then none
  else
    match r.expiry (day, count - 1) with
    | none => none
    | some chunk =>
        if chunk.length < expiryChunkSize then
          some (min (expiryChunkSize - chunk.length) entries.length, chunk)
        else none

/-- Appends entries to a day's list, writing every chunk once. Returns each entry's chunk. -/
def scheduleExpiryEntries (r : Rows) (day : Nat) (entries : List ExpiryEntry)
    : Rows × List Nat :=
  if entries.isEmpty then (r, [])
  else
    let count := r.getU64 (.explCount day)
    -- top up the last existing chunk first
    let (r, rest, topped) :=
      match topUp r day entries with
      | none => (r, entries, [])
      | some (take, chunk) =>
          (r.setExpiry day (count - 1) (some (chunk ++ entries.take take)),
            entries.drop take, (entries.take take).map fun _ => count - 1)
    let (r, total, chunks) := newChunks day rest.length count rest r
    (r.setU64 (.explCount day) total, topped ++ chunks)

/-- Retires one entry from its account's voting shares. -/
def retireEntry (r : Rows) (entry : ExpiryEntry) : Rows :=
  if entry.1 = "" then r
  else
    let left := i64 (sharesOf r entry.1 - entry.2)
    r.setAmount (.shares entry.1) (if left < 0 then 0 else left)

/-- The chunk loop of `drainExpiryList`, with the chunks from `cur` to go. Returns the rows,
the budget left and whether the list is drained.
-/
def drainChunks (day : Nat) : Nat → Nat → Rows → Nat → Rows × Nat × Bool
  | 0, _, r, budget =>
      ((r.deleteU64 (.explCount day)).deleteU64 (.explCursor day), budget, true)
  | togo + 1, cur, r, budget =>
      match r.expiry (day, cur) with
      | none => drainChunks day togo (cur + 1) r budget
      | some entries =>
          if budget < entries.length then (r.setU64 (.explCursor day) cur, budget, false)
          else
            drainChunks day togo (cur + 1) ((entries.foldl retireEntry r).setExpiry day cur none)
              (budget - entries.length)

/-- Retires a day's matured shares, resuming where an exhausted budget stopped it. -/
def drainExpiryList (r : Rows) (day budget : Nat) : Rows × Nat × Bool :=
  let count := r.getU64 (.explCount day)
  if count = 0 then (r, budget, true)
  else
    let cur := r.getU64 (.explCursor day)
    drainChunks day (count - cur) cur r budget

/-- Takes one entry out of a chunk, for a mint closed before the walk reached it. -/
def removeExpiryEntry (r : Rows) (day chunk : Nat) (account : String) (shares : Int) : Rows :=
  match r.expiry (day, chunk) with
  | none => r
  | some entries =>
      if (account, shares) ∈ entries then
        match entries.erase (account, shares) with
        | [] => r.setExpiry day chunk none
        | rest => r.setExpiry day chunk (some rest)
      else r

/-- Cancels a scheduled stop, for a mint ended before maturity. -/
def unscheduleExpiry (r : Rows) (day : Nat) (shares : Int) : Rows :=
  if accruedDays r > day then r
  else
    let rest := i64 (r.getAmount (.exp day) - shares)
    if rest ≤ 0 then r.deleteAmount (.exp day) else r.setAmount (.exp day) rest

-----------------------------------------------------------------------------------------
-- The walk
-----------------------------------------------------------------------------------------

/-- The rows and the locals of a walk in progress. -/
structure Walk where
  rows : Rows
  day : Nat
  acc : Int
  held : Int
  active : Int
  totalEmitted : Int
  lshareTotal : Int
  budget : Nat

/-- A walk at its start, with everything loaded from the rows. -/
def Walk.start (r : Rows) (budget : Nat) : Walk where
  rows := r
  day := accruedDays r
  acc := accPerShare r
  held := r.getAmount .accHeld
  active := totalShares r
  totalEmitted := 0
  lshareTotal := 0
  budget := budget

/-- Counts a day's emission, if there is any. -/
def Walk.emit (w : Walk) (amount : Int) : Walk :=
  if amount > 0 then
    { w with
      totalEmitted := i64 (w.totalEmitted + amount)
      lshareTotal := i64 (w.lshareTotal + (split amount).lShare) }
  else w

/-- Steps the accumulator by a day's L-Share slice, also when only held value remains. -/
def Walk.distribute (w : Walk) (lshare : Int) : Walk :=
  if lshare > 0 ∨ w.held > 0 then
    let (acc, held) := accumulatorStep w.acc lshare w.held w.active
    { w with acc, held }
  else w

/-- Takes the shares that mature today out of the denominator and writes the checkpoint. -/
def Walk.expire (w : Walk) : Walk :=
  let exp := w.rows.getAmount (.exp w.day)
  if exp > 0 then
    let left := i64 (w.active - exp)
    { w with
      active := if left < 0 then 0 else left
      rows := (w.rows.deleteAmount (.exp w.day)).setU64 (.accAt w.day) (toU64 w.acc) }
  else w

/-- Everything a day does after its list is drained. -/
def Walk.closeDay (w : Walk) (sc : EmissionSchedule) : Walk :=
  let amount := sc.emissionBetween (heightOfDay w.rows w.day) (heightOfDay w.rows (w.day + 1))
  let lshare := if amount > 0 then (split amount).lShare else 0
  let w := ((w.emit amount).distribute lshare).expire
  { w with day := w.day + 1 }

/-- The day loop: it stops after its last day, or within a day whose list it cannot drain. -/
def Walk.days (sc : EmissionSchedule) : Nat → Walk → Walk
  | 0, w => w
  | togo + 1, w =>
      match drainExpiryList w.rows w.day w.budget with
      | (rows, budget, false) => { w with rows, budget }
      | (rows, budget, true) => Walk.days sc togo (({ w with rows, budget } : Walk).closeDay sc)

/-- Credits a reward pool. -/
def addPool (r : Rows) (key : AmountKey) (amt : Int) : Rows :=
  if amt > 0 then r.setAmount key (i64 (r.getAmount key + amt)) else r

/-- The pool credits of a walk: the whole slice is split once, but the L-Share pool receives
the sum of the daily parts.
-/
def Walk.creditPools (w : Walk) (r : Rows) : Rows :=
  let (viral, deep) := splitPoB (split w.totalEmitted).proofOfBrain
  let r := addPool r .poolViral viral
  let r := addPool r .poolDeep deep
  let r := addPool r .poolLiquidity (split w.totalEmitted).liquidity
  addPool r .poolLShare w.lshareTotal

/-- Writes the locals of a walk back. -/
def Walk.commit (w : Walk) (r : Rows) : Rows :=
  let r := r.setU64 .accPerShare (toU64 w.acc)
  let r := r.setAmount .accHeld w.held
  let r := r.setAmount .sharesTotal w.active
  let r := r.setU64 .accDay w.day
  r.setU64 .settled (heightOfDay r w.day)

/-- Mints a walk's emission, then credits the pools from it. -/
def issueEmission (w : Walk) : Op Bool := do
  if w.totalEmitted > 0 then
    if !(← mintSupply .emitted w.totalEmitted) then return false
    modify w.creditPools
    return true
  else return true

/-- Walks toward a height, at most `maxDays` days and `retireBudget` retirements. Returns
whether it caught up.
-/
def accrueWalk (toHeight : Nat) (maxDays : Int) (retireBudget : Nat) : Op Bool := do
  let r ← rows
  let maxDays := if maxDays ≤ 0 ∨ maxDays > maxAccrualDays then maxAccrualDays else maxDays.toNat
  let target := dayOf r toHeight
  let day := accruedDays r
  if day ≥ target then return true
  let w := Walk.days (schedule r) (min maxDays (target - day)) (.start r retireBudget)
  setRows w.rows
  if !(← issueEmission w) then return false
  modify w.commit
  return w.day ≥ target

/-- The walk an ordinary transaction carries. -/
def accrue (toHeight : Nat) : Op Bool := accrueWalk toHeight maxAccrualDays userRetireBudget

/-- The walk of `advance`, whose length the caller chooses. -/
def accrueSteps (toHeight : Nat) (maxDays : Int) : Op Bool :=
  accrueWalk toHeight maxDays maxRetirePerWalk

/-- Repeats the walk until it has caught up, at most `fuel` times; `none` when it has not. -/
def accrueFully (toHeight : Nat) : Nat → Op (Option Unit)
  | 0 => return none
  | fuel + 1 => do
      if ← accrue toHeight then return some ()
      accrueFully toHeight fuel

/-- Returns value to the L-Share pool and to the accumulator. -/
def recycleThroughAccumulator (r : Rows) (amt : Int) : Rows :=
  if amt ≤ 0 then r
  else
    let r := addPool r .poolLShare amt
    let (acc, held) := accumulatorStep (accPerShare r) amt (r.getAmount .accHeld) (totalShares r)
    (r.setU64 .accPerShare (toU64 acc)).setAmount .accHeld held

/-- The one destination of all recycled value. -/
def recycle (r : Rows) (amt : Int) : Rows := recycleThroughAccumulator r amt

/-- Credits the block rewards owed up to the current height. -/
def settle (ctx : Ctx) : Op Result := do
  if !(← rows).init then return fail "not initialised"
  if ← accrue ctx.height then return ok "settled"
  return ok "settled partially; call advance to catch up"

/-- The permissionless catch-up of at most `maxDays` days. -/
def advance (ctx : Ctx) (maxDays : Int) : Op Result := do
  if ← accrueSteps ctx.height maxDays then return ok "accrual is current"
  return ok "advanced; still behind, call again"

-----------------------------------------------------------------------------------------
-- Funding the pools
-----------------------------------------------------------------------------------------

/-- Splits into the viral and deep pools; deep takes the remainder. -/
def fundPoB (r : Rows) (amt : Int) : Rows :=
  if amt ≤ 0 then r
  else
    let (viral, _) := splitPoB amt
    addPool (addPool r .poolViral viral) .poolDeep (i64 (amt - viral))

/-- The pools a donation may name. -/
def fundTargets : List String := ["pob", "viral", "deep", "liquidity", "lshare", "all"]

/-- Adds a donation to the pool that `target` names. -/
def fundTarget (r : Rows) (target : String) (amt : Int) : Rows :=
  if target = "pob" then fundPoB r amt
  else if target = "viral" then addPool r .poolViral amt
  else if target = "deep" then addPool r .poolDeep amt
  else if target = "liquidity" then addPool r .poolLiquidity amt
  else if target = "lshare" then recycleThroughAccumulator r amt
  else if target = "all" then
    let sp := split amt
    let r := addPool (fundPoB r sp.proofOfBrain) .poolLiquidity sp.liquidity
    recycleThroughAccumulator r (i64 (i64 (amt - sp.proofOfBrain) - sp.liquidity))
  else r

/-- Moves LASSECASH from the caller's balance into a reward pool. -/
def fundPool (ctx : Ctx) (target : String) (amt : Int) : Op Result := do
  if !(← rows).init then return fail "not initialised"
  if amt ≤ 0 then return fail "amount must be positive"
  if ctx.sender = burnAccount then return fail "null cannot act"
  if target ∉ fundTargets then
    return fail "target must be pob, viral, deep, liquidity, lshare or all"
  if !(← debit ctx.sender amt) then return fail "insufficient balance"
  modify (fundTarget · target amt)
  return ok ("funded " ++ target)

end LasseCash.State
