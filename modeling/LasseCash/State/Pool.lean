import LasseCash.State.Accrual

/-! The LASSECASH:HBD pool and its tranches: `contract/state/pool.go`. LASSECASH lives in the
rows, HBD is real and moves through the assets.
-/

namespace LasseCash.State

open Engine MachineInt

-----------------------------------------------------------------------------------------
-- Liquidity rewards
-----------------------------------------------------------------------------------------

/-- Folds the inflow since the last sync into the accumulator. Returns its reading. -/
def syncPoolAccumulator (r : Rows) : Rows × Int :=
  let pool := r.getAmount .poolLiquidity
  let seen := r.getAmount .poolAccSeen
  let acc := i64 (r.getU64 .poolAcc)
  let (r, acc) :=
    if pool > seen then
      let (acc, held) := accumulatorStep acc (i64 (pool - seen)) (r.getAmount .poolAccHeld)
        (r.getAmount .poolWeight)
      ((r.setU64 .poolAcc (toU64 acc)).setAmount .poolAccHeld held, acc)
    else (r, acc)
  (r.setAmount .poolAccSeen pool, acc)

/-- The view of what a claim would pay a tranche right now. -/
def poolRewardsOwed (r : Rows) (t : Tranche) : Int :=
  if t.closed then 0
  else
    Engine.poolRewardsOwed t.weight t.accStart (r.getAmount .poolLiquidity)
      (r.getAmount .poolAccSeen) (r.getAmount .poolAccHeld) (i64 (r.getU64 .poolAcc))
      (r.getAmount .poolWeight)

/-- A tranche registered at its loyalty of `height` and at the reading `acc`. -/
def Tranche.registered (t : Tranche) (height : Nat) (acc : Int) : Tranche :=
  { t with weight := trancheWeight t.shares (ageDays t.startHeight height), accStart := acc }

/-- Moves a tranche's weight in the total to the one it is registered with now. -/
def reweigh (r : Rows) (id : Nat) (t : Tranche) (next : Tranche) : Rows :=
  (r.setAmount .poolWeight (i64 (i64 (r.getAmount .poolWeight - t.weight) + next.weight))).putTranche
    id next

/-- Takes a reward out of the pool and keeps the sync watermark in step. -/
def takeReward (r : Rows) (owed : Int) : Rows :=
  let left := i64 (r.getAmount .poolLiquidity - owed)
  (r.setAmount .poolLiquidity left).setAmount .poolAccSeen left

/-- Pays a tranche what the accumulator owes it and registers it at its current age. Returns
the tranche as registered; it is `none` where there is no open tranche.
-/
def settleTranche (ctx : Ctx) (owner : String) (id : Nat) : Op (Option Tranche × Result) := do
  match (← rows).getTranche owner id with
  | none => return (none, fail "no open tranche")
  | some t =>
      if t.closed then return (none, fail "no open tranche")
      let _ ← settle ctx
      let (r, acc) := syncPoolAccumulator (← rows)
      let pool := r.getAmount .poolLiquidity
      let owed := entitlement t.weight t.accStart acc
      let owed := if owed > pool then pool else owed
      let next := t.registered ctx.height acc
      let r := reweigh r id t next
      if owed ≤ 0 then
        setRows r
        return (some next, ok "nothing to claim")
      setRows (takeReward r owed)
      if !(← credit owner owed) then return (some next, fail "credit failed")
      return (some next, ok ("claimed " ++ encI64 owed))

/-- Pays the caller's tranche; claiming is its proof of life. -/
def claimPoolRewards (ctx : Ctx) (id : Nat) : Op Result := do
  match ← settleTranche ctx ctx.sender id with
  | (none, res) => return res
  | (some t, res) =>
      if !res.ok then return res
      modify (·.putTranche id { t with lastTouch := ctx.height })
      return res

-----------------------------------------------------------------------------------------
-- Deposits and withdrawals
-----------------------------------------------------------------------------------------

/-- The HBD a deposit must supply: the caller's own figure opens an empty pool, the price
decides afterwards.
-/
def hbdForDeposit (r : Rows) (lcIn maxHbd : Int) : Except Result Int :=
  let lcRes := r.getAmount .poolLC
  let hbdRes := r.getAmount .poolHBD
  if r.getAmount .poolShares ≤ 0 ∨ lcRes ≤ 0 ∨ hbdRes ≤ 0 then
    if maxHbd ≤ 0 then .error (fail "first deposit must supply HBD to set the price")
    else .ok maxHbd
  else
    match hbdRequiredFor lcIn lcRes hbdRes with
    | none => .error (fail "cannot price deposit")
    | some need =>
        if need > maxHbd then
          .error (fail ("needs " ++ encI64 need ++ " HBD, above the limit given"))
        else .ok need

/-- Opens a tranche at the reading `acc`; it starts at the weight of age zero. -/
def openTranche (r : Rows) (ctx : Ctx) (shares acc : Int) : Rows :=
  let weight := trancheWeight shares 0
  let r := r.setAmount .poolWeight (i64 (r.getAmount .poolWeight + weight))
  let id := r.getU64 (.lpSeq ctx.sender) + 1
  (r.setU64 (.lpSeq ctx.sender) id).putTranche id
    { owner := ctx.sender, shares, startHeight := ctx.height, weight
      accStart := acc, lastTouch := ctx.height }

/-- Deposits into the pool and opens a new tranche. -/
def addLiquidity (ctx : Ctx) (lcIn maxHbd : Int) : Op Result := do
  let r ← rows
  if !r.init then return fail "not initialised"
  if lcIn ≤ 0 then return fail "amount must be positive"
  if (← balance ctx.sender) < lcIn then return fail "insufficient LASSECASH"
  let lcRes := r.getAmount .poolLC
  let hbdRes := r.getAmount .poolHBD
  let total := r.getAmount .poolShares
  match hbdForDeposit r lcIn maxHbd with
  | .error refusal => return refusal
  | .ok hbdIn =>
      let shares := (lpSharesFor lcIn lcRes total).getD 0
      if shares ≤ 0 then return fail "deposit too small to earn shares"
      -- the real HBD comes first: if it fails nothing else has happened yet
      if !(← draw hbdIn) then return fail "HBD transfer failed"
      if !(← debit ctx.sender lcIn) then return fail "insufficient LASSECASH"
      modify fun r =>
        ((r.setAmount .poolLC (i64 (lcRes + lcIn))).setAmount .poolHBD
          (i64 (hbdRes + hbdIn))).setAmount .poolShares (i64 (total + shares))
      let _ ← settle ctx
      let (r, acc) := syncPoolAccumulator (← rows)
      setRows (openTranche r ctx shares acc)
      return ok ("added " ++ encI64 lcIn ++ " LASSECASH and " ++ encI64 hbdIn ++ " HBD")

/-- Sends HBD out of custody; dust below a thousandth stays in the pool. Returns what was
paid, or `none` when the transfer was refused.
-/
def payHbd (owner : String) (hbdOut : Int) : Op (Option Int) := do
  if hbdOut ≤ 0 then return some hbdOut
  if hbdPayMilli hbdOut ≤ 0 then return some 0
  if ← transferHbd owner hbdOut then return some hbdOut
  return none

/-- The reserves and totals without a closed tranche's part. -/
def takeFromPool (r : Rows) (t : Tranche) (lcOut hbdOut : Int) : Rows :=
  let r := r.setAmount .poolLC (i64 (r.getAmount .poolLC - lcOut))
  let r := r.setAmount .poolHBD (i64 (r.getAmount .poolHBD - hbdOut))
  let r := r.setAmount .poolShares (i64 (r.getAmount .poolShares - t.shares))
  r.setAmount .poolWeight (i64 (r.getAmount .poolWeight - t.weight))

/-- Dissolves a tranche and pays everything to its owner, never to the caller. -/
def closeTranche (ctx : Ctx) (owner : String) (id : Nat) : Op Result := do
  match (← rows).getTranche owner id with
  | none => return fail "no such tranche"
  | some t =>
      if t.closed then return fail "tranche already closed"
      let _ ← settleTranche ctx owner id
      let r ← rows
      match r.getTranche owner id with
      | none => return fail "cannot compute withdrawal"
      | some t =>
          match withdrawAmounts t.shares (r.getAmount .poolShares) (r.getAmount .poolLC)
              (r.getAmount .poolHBD) with
          | none => return fail "cannot compute withdrawal"
          | some (lcOut, hbdOut) =>
              match ← payHbd owner hbdOut with
              | none => return fail "HBD transfer failed"
              | some realHbdOut =>
                  modify (takeFromPool · t lcOut realHbdOut)
                  if !(← credit owner lcOut) then return fail "credit failed"
                  modify (·.putTranche id { t with closed := true, weight := 0 })
                  return ok
                    ("withdrew " ++ encI64 lcOut ++ " LASSECASH and " ++ encI64 realHbdOut ++ " HBD")

def removeLiquidity (ctx : Ctx) (id : Nat) : Op Result := closeTranche ctx ctx.sender id

/-- Evicts a dormant position; everything goes to its owner. -/
def sweepTranche (ctx : Ctx) (owner : String) (id : Nat) : Op Result := do
  match (← rows).getTranche owner id with
  | none => return fail "no open tranche"
  | some t =>
      if t.closed then return fail "no open tranche"
      if !trancheIsDormant t.lastTouch ctx.height then return fail "tranche is not dormant"
      closeTranche ctx owner id

-----------------------------------------------------------------------------------------
-- Swaps
-----------------------------------------------------------------------------------------

/-- Sells LASSECASH to the pool. -/
def swapLCForHBD (ctx : Ctx) (lcIn minOut : Int) : Op Result := do
  if lcIn ≤ 0 then return fail "amount must be positive"
  if (← balance ctx.sender) < lcIn then return fail "insufficient LASSECASH"
  let r ← rows
  let lcRes := r.getAmount .poolLC
  let hbdRes := r.getAmount .poolHBD
  match swapOut lcRes hbdRes lcIn with
  | none => return fail "swap not possible at this size"
  | some out =>
      if out < minOut then
        return fail ("output " ++ encI64 out ++ " below the minimum required")
      if !(← debit ctx.sender lcIn) then return fail "insufficient LASSECASH"
      if !(← transferHbd ctx.sender out) then
        let _ ← credit ctx.sender lcIn
        return fail "HBD transfer failed"
      modify fun r =>
        (r.setAmount .poolLC (i64 (lcRes + lcIn))).setAmount .poolHBD (i64 (hbdRes - out))
      return ok ("swapped for " ++ encI64 out ++ " HBD")

/-- Buys LASSECASH from the pool with HBD. -/
def swapHBDForLC (ctx : Ctx) (hbdIn minOut : Int) : Op Result := do
  if hbdIn ≤ 0 then return fail "amount must be positive"
  let r ← rows
  let lcRes := r.getAmount .poolLC
  let hbdRes := r.getAmount .poolHBD
  match swapOut hbdRes lcRes hbdIn with
  | none => return fail "swap not possible at this size"
  | some out =>
      if out < minOut then
        return fail ("output " ++ encI64 out ++ " below the minimum required")
      if !(← draw hbdIn) then return fail "HBD transfer failed"
      setRows
        ((r.setAmount .poolHBD (i64 (hbdRes + hbdIn))).setAmount .poolLC (i64 (lcRes - out)))
      if !(← credit ctx.sender out) then return fail "credit failed"
      return ok ("swapped for " ++ encI64 out ++ " LASSECASH")

end LasseCash.State
