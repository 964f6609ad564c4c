import LasseCash.State.WalkEnds

/-! What an operation can do to the rows, said once: every operation moves them by a chain of
steps, each of them one write of the source with the checks that stand before it. An invariant
of the rows is then proved step by step, whatever the ledger and the assets answer.
-/

namespace LasseCash.State

open Engine MachineInt Program

-----------------------------------------------------------------------------------------
-- The parts of a step
-----------------------------------------------------------------------------------------

/-- (Accrues height r r') says that `r'` is what one walk toward `height` leaves of `r`. -/
inductive Accrues (height : Nat) (r : Rows) : Rows → Prop
  | idle : Accrues height r r
  | stalled (maxDays : Int) (budget : Nat) (behind : accruedDays r < dayOf r height)
      (due : 0 < (callWalk r height maxDays budget).totalEmitted)
      : Accrues height r (callWalk r height maxDays budget).rows
  | booked (maxDays : Int) (budget : Nat) (behind : accruedDays r < dayOf r height)
      (due : 0 < (callWalk r height maxDays budget).totalEmitted) (next : Int)
      (sum : addAmount ((callWalk r height maxDays budget).rows.getAmount .emitted)
        (callWalk r height maxDays budget).totalEmitted = some next)
      : Accrues height r ((callWalk r height maxDays budget).commit
          ((callWalk r height maxDays budget).creditPools
            ((callWalk r height maxDays budget).rows.setAmount .emitted next)))
  | flat (maxDays : Int) (budget : Nat) (behind : accruedDays r < dayOf r height)
      (none_due : (callWalk r height maxDays budget).totalEmitted ≤ 0)
      : Accrues height r ((callWalk r height maxDays budget).commit
          (callWalk r height maxDays budget).rows)

/-- (Strides height r r') says that `r'` is what one walk toward `height` leaves of `r` where a walk
only stalls on a supply that overflows.
-/
inductive Strides (height : Nat) (r : Rows) : Rows → Prop
  | idle : Strides height r r
  | overflown (maxDays : Int) (budget : Nat) (behind : accruedDays r < dayOf r height)
      (sum : addAmount ((callWalk r height maxDays budget).rows.getAmount .emitted)
        (callWalk r height maxDays budget).totalEmitted = none)
      : Strides height r (callWalk r height maxDays budget).rows
  | booked (maxDays : Int) (budget : Nat) (behind : accruedDays r < dayOf r height)
      (due : 0 < (callWalk r height maxDays budget).totalEmitted) (next : Int)
      (sum : addAmount ((callWalk r height maxDays budget).rows.getAmount .emitted)
        (callWalk r height maxDays budget).totalEmitted = some next)
      : Strides height r ((callWalk r height maxDays budget).commit
          ((callWalk r height maxDays budget).creditPools
            ((callWalk r height maxDays budget).rows.setAmount .emitted next)))
  | flat (maxDays : Int) (budget : Nat) (behind : accruedDays r < dayOf r height)
      (none_due : (callWalk r height maxDays budget).totalEmitted ≤ 0)
      : Strides height r ((callWalk r height maxDays budget).commit
          (callWalk r height maxDays budget).rows)

/-- (Entry ctx r m) says that `m` may enter the rows `r`: a position locked now, once the walk
is current, or one of the snapshot, before any emission or before its maturity.
-/
inductive Entry (ctx : Ctx) (r : Rows) : Mint → Prop
  | locked (owner : String) (principal days : Int) (params : MintParams) (m : Mint)
      (word : principal < 2 ^ 63)
      (made : newMint owner principal days ctx.height params = some m)
      (current : dayOf r ctx.height ≤ accruedDays r)
      : Entry ctx r m
  | pushed (owner : String) (staked : Int) (m : Mint) (word : staked < 2 ^ 63)
      (made : newMigrationMint owner staked (genesisHeight r) = some m)
      (early : emissionStarted r = false)
      : Entry ctx r m
  | claimed (staked : Int) (m : Mint) (word : staked < 2 ^ 63)
      (made : newMigrationMint ctx.sender staked (genesisHeight r) = some m)
      (current : dayOf r ctx.height ≤ accruedDays r) (unripe : m.isMature ctx.height = false)
      : Entry ctx r m

/-- The rows once a post is paid out of its pool: its curators' part is parked on it, unless
there is nothing to pay.
-/
def payoutRows (r : Rows) (height : Nat) (author permlink : String) (p : PostRec) : Rows :=
  let (total, r) := claimPool r p.window p.rshares
  if total ≤ 0 then r.putPost author permlink (p.settled height p.curatorPot p.curatorRshares)
  else
    r.putPost author permlink
      (p.settled height ((mulDiv total curatorPct 100).getD 0) p.rshares)

/-- What the settlement of a tranche owes it at the reading of its sync. -/
def owedTo (r : Rows) (t : Tranche) : Int :=
  let (r, acc) := syncPoolAccumulator r
  let owed := entitlement t.weight t.accStart acc
  if owed > r.getAmount .poolLiquidity then r.getAmount .poolLiquidity else owed

/-- The rows once a tranche is settled: synced, registered anew, and without what it is owed. -/
def settleRows (r : Rows) (height id : Nat) (t : Tranche) : Rows :=
  let (synced, acc) := syncPoolAccumulator r
  let registered := reweigh synced id t (t.registered height acc)
  if owedTo r t ≤ 0 then registered else takeReward registered (owedTo r t)

/-- The reserves and the total of shares with a deposit. -/
def depositRows (r : Rows) (lcIn hbdIn shares : Int) : Rows :=
  ((r.setAmount .poolLC (i64 (r.getAmount .poolLC + lcIn))).setAmount .poolHBD
    (i64 (r.getAmount .poolHBD + hbdIn))).setAmount .poolShares
      (i64 (r.getAmount .poolShares + shares))

/-- What a withdrawal pays of the HBD it releases: everything, or nothing of mere dust. -/
def PaidHbd (hbdOut paid : Int) : Prop :=
  paid = hbdOut ∨ 0 < hbdOut ∧ hbdPayMilli hbdOut ≤ 0 ∧ paid = 0

/-- The rows without a curation claim that is settled. -/
def claimRows (r : Rows) (author permlink curator : String) (p : PostRec) (paid : p.paidOut = true)
    (share mine : Int) : Rows :=
  (r.putPost author permlink
    { p with
      curatorPot := i64 (p.curatorPot - share)
      curatorRshares := i64 (p.curatorRshares - mine)
      pot_open := fun h => absurd (paid.symm.trans h) (by simp) }).setPostVote
    (postVoteKey author permlink curator) none

/-- The rows without a vote. -/
def unvoteRows (r : Rows) (author permlink voter : String) (p : PostRec) (prev : Int) : Rows :=
  let votes := if p.votes > 0 then i64 (p.votes - 1) else p.votes
  let r := r.putPost author permlink { p with rshares := i64 (p.rshares - prev), votes }
  let r := r.setPostVote (postVoteKey author permlink voter) none
  r.setAmount (rsharesKey p.window) (i64 (r.getAmount (rsharesKey p.window) - prev))

/-- The record of a post that its first vote registers. -/
def registeredBy (ctx : Ctx) : PostRec :=
  { window := .viral, createdHeight := ctx.height, pot_open := PostRec.new_open }

/-- The tranche that an action settles. -/
def Action.settles (ctx : Ctx) : Action → Option (String × Nat)
  | claimPoolRewards id => some (ctx.sender, id.toNat)
  | removeLiquidity id => some (ctx.sender, id.toNat)
  | sweepTranche owner id => some (owner, id.toNat)
  | _ => none

/-- The actions that dissolve a tranche. -/
def Action.withdraws : Action → Bool
  | removeLiquidity _ | sweepTranche _ _ => true
  | _ => false

/-- The actions that may move HBD. -/
def Action.trades : Action → Bool
  | addLiquidity _ _ | removeLiquidity _ | sweepTranche _ _ => true
  | swapLCForHBD _ _ | swapHBDForLC _ _ => true
  | _ => false

/-- The operation that a step belongs to: who calls it and when, the rows that it found, and
whether the ledger is sure to mint a supply that fits.
-/
structure Origin where
  ctx : Ctx
  action : Action
  start : Rows
  sure : Prop

/-- (Claimable o r author permlink curator) says what allows a claim of `curator`: the operation
names it, or it is queued. The empty name stands for the caller.
-/
def Claimable (o : Origin) (r : Rows) (author permlink curator : String) : Prop :=
  ∃ named, (o.action = .claimCuration author permlink named
      ∨ ∃ n, r.curation (named, n) = some (author, permlink))
    ∧ curator = if named = "" then o.ctx.sender else named

-----------------------------------------------------------------------------------------
-- Steps
-----------------------------------------------------------------------------------------

/-- What the ledger, accrual, donations and settings do. A donation is all of its operation. -/
inductive LedgerWrite (o : Origin) (whole : Prop) (r : Rows) : Rows → Prop
  | note (account : String) : LedgerWrite o whole r (noteAccount r account)
  | push (delta next : Int) (positive : 0 < delta)
      (sum : addAmount (r.getAmount .migrated) delta = some next)
      : LedgerWrite o whole r (r.setAmount .migrated next)
  | accrue {r' : Rows} (accrues : Accrues o.ctx.height r r')
      (strides : o.sure → Strides o.ctx.height r r') : LedgerWrite o whole r r'
  | fund (done : whole) (target : String) (amt : Int64) (asked : o.action = .fundPool target amt)
      (first : r = o.start) (positive : 0 < amt.toInt)
      : LedgerWrite o whole r (fundTarget r target amt.toInt)
  | recycle (amt : Int) : LedgerWrite o whole r (recycle r amt)
  | seat (account : String) : LedgerWrite o whole r (offer r account)
  | prefer (key : ParamKey) (value : Int)
      : LedgerWrite o whole r (r.setPreference key o.ctx.sender value)
  | span (days : Int) : LedgerWrite o whole r (r.setDuration o.ctx.sender days)

/-- What entering, converting into, closing and arming mints does. -/
inductive MintWrite (o : Origin) (r : Rows) : Rows → Prop
  | enter (mints : List Mint) (entries : ∀ m ∈ mints, Entry o.ctx r m)
      : MintWrite o r (enterMints r mints).1
  | convert (account : String) (days : Int) (params : MintParams) (m : Mint)
      (made : newMint account (r.getPending account).balance days o.ctx.height params = some m)
      (current : dayOf r o.ctx.height ≤ accruedDays r)
      : MintWrite o r
          (enterMints (r.putPending account ⟨0, o.ctx.epoch⟩) [m]).1
  | close (owner : String) (id : Nat) (m : Mint) (accEnd : Int)
      (found : r.getMint owner id = some m) (going : m.ended = false)
      (reading : accEndOf r m o.ctx.height = some accEnd)
      (own : owner = o.ctx.sender
        ∨ (m.settle o.ctx.height (accruedYield r m accEnd)).toOwner ≤ 0)
      : MintWrite o r (closeMint r id m (accruedYield r m accEnd))
  | arm (id : Nat) (m : Mint) (found : r.getMint o.ctx.sender id = some m)
      (able : m.canArmGoodAccounting o.ctx.height = true)
      : MintWrite o r (r.putMint id { m with goodAccounting := true })

/-- What publishing, voting, paying out and claiming does. -/
inductive ContentWrite (o : Origin) (r : Rows) : Rows → Prop
  | publish (author permlink : String) (window : Window) (mode : PayoutMode)
      (parentAuthor parentPermlink : String)
      (asked : (author, permlink) ∈ o.action.publishes o.ctx)
      (unknown : r.getPost author permlink = none)
      : ContentWrite o r (r.putPost author permlink
          { window, createdHeight := o.ctx.height, mode, parentAuthor, parentPermlink })
  | boost (author permlink : String) (p : PostRec) (amt : Int)
      (found : r.getPost author permlink = some p)
      : ContentWrite o r (r.putPost author permlink { p with promoted := i64 (p.promoted + amt) })
  | owe (account : String) (amount : Int)
      : ContentWrite o r (accruePending r account amount o.ctx.epoch)
  | pay (author permlink : String) (p : PostRec) (asked : o.action = .payout author permlink)
      (accrued : Accrues o.ctx.height o.start r) (found : r.getPost author permlink = some p)
      (unpaid : p.paidOut = false) (closed : p.closesAt ≤ o.ctx.height)
      : ContentWrite o r (payoutRows r o.ctx.height author permlink p)
  | forfeit (author permlink curator : String) (p : PostRec) (mine : Int)
      (due : Claimable o r author permlink curator)
      (found : r.getPost author permlink = some p) (paid : p.paidOut = true)
      (vote : r.postVote (postVoteKey author permlink curator) = some mine)
      (worthless : mine ≤ 0 ∨ (mulDiv p.curatorPot mine p.curatorRshares).getD 0 ≤ 0)
      : ContentWrite o r (r.setPostVote (postVoteKey author permlink curator) none)
  | claim (author permlink curator : String) (p : PostRec) (mine : Int)
      (due : Claimable o r author permlink curator)
      (found : r.getPost author permlink = some p) (paid : p.paidOut = true)
      (pot : 0 < p.curatorPot) (base : 0 < p.curatorRshares)
      (vote : r.postVote (postVoteKey author permlink curator) = some mine) (positive : 0 < mine)
      (worth : 0 < (mulDiv p.curatorPot mine p.curatorRshares).getD 0)
      : ContentWrite o r (claimRows r author permlink curator p paid
          ((mulDiv p.curatorPot mine p.curatorRshares).getD 0) mine)
  | sweepPot (author permlink : String) (p : PostRec)
      (found : r.getPost author permlink = some p) (paid : p.paidOut = true)
      (pot : 0 < p.curatorPot) (ripe : p.ripeAt ≤ o.ctx.height)
      : ContentWrite o r (State.recycle (r.putPost author permlink
          { p with curatorPot := 0, curatorRshares := 0, pot_open := fun _ => rfl }) p.curatorPot)
  | clearSlot (account author permlink : String) (n : Nat)
      (queued : r.curation (account, n) = some (author, permlink))
      (settled : ∀ p, r.getPost author permlink = some p → p.paidOut = true
        ∧ (p.curatorRshares ≤ 0 ∨ p.curatorPot ≤ 0 ∨ account = ""
          ∨ r.postVote (postVoteKey author permlink account) = none))
      : ContentWrite o r (r.setCuration account n none)
  | advanceHead (account : String)
      : ContentWrite o r (State.advanceHead account
          (r.getU64 (.cqTail account) - r.getU64 (.cqHead account)) (r.getU64 (.cqHead account)) r)
  | unvote (author permlink : String) (weightPct : Int64) (p : PostRec) (prev : Int)
      (asked : o.action = .vote author permlink weightPct)
      (found : r.getPost author permlink = some p) (unpaid : p.paidOut = false)
      (open_ : o.ctx.height < p.closesAt)
      (vote : r.postVote (postVoteKey author permlink o.ctx.sender) = some prev)
      : ContentWrite o r (unvoteRows r author permlink o.ctx.sender p prev)
  | vote (author permlink : String) (weightPct : Int64) (p : PostRec) (power : VotePower)
      (asked : o.action = .vote author permlink weightPct)
      (found : r.getPost author permlink = some p) (unpaid : p.paidOut = false)
      (open_ : o.ctx.height < p.closesAt)
      (opened : r = o.start ∨ o.start.getPost author permlink = none
        ∧ r = o.start.putPost author permlink (registeredBy o.ctx))
      (positive : 0 < voteWeight (sharesOf r o.ctx.sender) (voteCost weightPct.toInt))
      : ContentWrite o r (writeVote r o.ctx author permlink p
          (voteWeight (sharesOf r o.ctx.sender) (voteCost weightPct.toInt)) power)
  | roll (account : String)
      : ContentWrite o r (r.putPending account
          { r.getPending account with lastEpoch := o.ctx.epoch })

/-- What settlements, deposits, withdrawals and swaps do. A deposit is all of its operation,
which is then `whole`; only a withdrawal that is refused halfway strands its tranche outside the
totals.
-/
inductive LiquidityWrite (o : Origin) (whole : Prop) (r : Rows) : Rows → Prop
  | settle (owner : String) (id : Nat) (t : Tranche)
      (asked : o.action.settles o.ctx = some (owner, id)) (accrued : Accrues o.ctx.height o.start r)
      (found : r.getTranche owner id = some t) (going : t.closed = false)
      (own : owner = o.ctx.sender ∨ trancheIsDormant t.lastTouch o.ctx.height = true)
      : LiquidityWrite o whole r (settleRows r o.ctx.height id t)
  | touch (id : Nat) (t : Tranche) (found : r.getTranche o.ctx.sender id = some t)
      (going : t.closed = false)
      : LiquidityWrite o whole r (r.putTranche id { t with lastTouch := o.ctx.height })
  | deposit (done : whole) (lcIn maxHbd : Int64) (hbdIn shares : Int) (r' : Rows)
      (asked : o.action = .addLiquidity lcIn maxHbd) (first : r = o.start)
      (positive : 0 < lcIn.toInt)
      (priced : hbdForDeposit r lcIn.toInt maxHbd.toInt = .ok hbdIn)
      (earned : shares
        = (lpSharesFor lcIn.toInt (r.getAmount .poolLC) (r.getAmount .poolShares)).getD 0)
      (some_earned : 0 < shares)
      (accrues : Accrues o.ctx.height (depositRows r lcIn.toInt hbdIn shares) r')
      (strides : o.sure → Strides o.ctx.height (depositRows r lcIn.toInt hbdIn shares) r')
      : LiquidityWrite o whole r (openTranche (syncPoolAccumulator r').1 o.ctx shares
          (syncPoolAccumulator r').2)
  | withdraw (asked : o.action.withdraws = true) (owner : String) (id : Nat) (t : Tranche)
      (lcOut hbdOut paid : Int) (r' : Rows)
      (found : r.getTranche owner id = some t) (going : t.closed = false)
      (own : owner = o.ctx.sender ∨ trancheIsDormant t.lastTouch o.ctx.height = true)
      (amounts : withdrawAmounts t.shares (r.getAmount .poolShares) (r.getAmount .poolLC)
        (r.getAmount .poolHBD) = some (lcOut, hbdOut))
      (dust : PaidHbd hbdOut paid)
      (noted : r' = takeFromPool r t lcOut paid
        ∨ r' = noteAccount (takeFromPool r t lcOut paid) owner)
      : LiquidityWrite o whole r (r'.putTranche id { t with closed := true, weight := 0 })
  | strand (torn : ¬whole) (asked : o.action.withdraws = true) (owner : String) (id : Nat)
      (t : Tranche) (lcOut hbdOut paid : Int)
      (found : r.getTranche owner id = some t) (going : t.closed = false)
      (own : owner = o.ctx.sender ∨ trancheIsDormant t.lastTouch o.ctx.height = true)
      (amounts : withdrawAmounts t.shares (r.getAmount .poolShares) (r.getAmount .poolLC)
        (r.getAmount .poolHBD) = some (lcOut, hbdOut))
      (dust : PaidHbd hbdOut paid)
      : LiquidityWrite o whole r (takeFromPool r t lcOut paid)
  | sellLC (lcIn minOut : Int64) (out : Int) (asked : o.action = .swapLCForHBD lcIn minOut)
      (swap : swapOut (r.getAmount .poolLC) (r.getAmount .poolHBD) lcIn.toInt = some out)
      : LiquidityWrite o whole r
          ((r.setAmount .poolLC (i64 (r.getAmount .poolLC + lcIn.toInt))).setAmount .poolHBD
            (i64 (r.getAmount .poolHBD - out)))
  | buyLC (hbdIn minOut : Int64) (out : Int) (asked : o.action = .swapHBDForLC hbdIn minOut)
      (swap : swapOut (r.getAmount .poolHBD) (r.getAmount .poolLC) hbdIn.toInt = some out)
      : LiquidityWrite o whole r
          ((r.setAmount .poolHBD (i64 (r.getAmount .poolHBD + hbdIn.toInt))).setAmount .poolLC
            (i64 (r.getAmount .poolLC - out)))

/-- What the migration writes. -/
inductive MigrationWrite (r : Rows) : Rows → Prop
  | record (account : String) (receipt : MigrationRecord)
      : MigrationWrite r (r.setMigDone account receipt)
  | recordBurned (entries : List MigrationEntry) : MigrationWrite r (State.recordBurned r entries)
  | recordClaim (account : String) (liquid staked claimed recycled : Int)
      : MigrationWrite r (State.recordClaim r account liquid staked claimed recycled)
  | commitSnapshot (root : String) (qualifierTotal burnTotal : Int)
      : MigrationWrite r (State.commitSnapshot r root qualifierTotal burnTotal)
  | sweepSnapshot : MigrationWrite r r.setMigSwept

/-- (Step o whole r r') says that `o` can take the rows from `r` to `r'` in one go. -/
inductive Step (o : Origin) (whole : Prop) (r r' : Rows) : Prop
  | ledger (step : LedgerWrite o whole r r')
  | mint (step : MintWrite o r r')
  | content (step : ContentWrite o r r')
  | liquidity (step : LiquidityWrite o whole r r')
  | migration (step : MigrationWrite r r')

/-- A chain of steps. -/
abbrev Steps (o : Origin) (whole : Prop) : Rows → Rows → Prop :=
  Relation.ReflTransGen (Step o whole)

-----------------------------------------------------------------------------------------
-- What an operation asks of the ledger
-----------------------------------------------------------------------------------------

/-- The supply counters agree, and nobody on the roll is forgotten. -/
structure SameSupply (r x : Rows) : Prop where
  migrated : x.getAmount .migrated = r.getAmount .migrated
  emitted : x.getAmount .emitted = r.getAmount .emitted
  seen : ∀ account, r.seen account = true → x.seen account = true

/-- An operation writes no supply counter by itself, mints a word under none but the two of them,
debits nobody but its caller, and moves HBD only where it trades.
-/
def callerNeeds (o : Origin) : Call → Rows → Prop
  | .setRows x, r => SameSupply r x
  | .mintSupply key delta, _ => (key = .migrated ∨ key = .emitted) ∧ delta < 2 ^ 63
  | .debit account _, _ => account = o.ctx.sender
  | .draw _, _ => o.action.trades = true
  | .transferHbd _ _, _ => o.action.trades = true
  | _, _ => True

/-- A supply that is to be raised and fits is raised. -/
def Minted : (c : Call) → Rows → Reply c → Prop
  | .mintSupply key delta, r, minted =>
      0 < delta → (addAmount (r.getAmount key) delta).isSome → minted = true
  | _, _, _ => True

/-- The rows under a call of `o`, on a ledger that is sure to mint where `o` says so. -/
def askMay (o : Origin) : May Call Reply Rows :=
  fun c r reply r' => rowsMay c r reply r' ∧ (o.sure → Minted c r reply)

/-- Whatever the ledger answers, the operation asks for no more than a caller may, and ends
in `Q`.
-/
abbrev Asks {α : Type} (o : Origin) (p : Op α) (Q : α → Rows → Prop) (r : Rows) : Prop :=
  p.wp (callerNeeds o) (askMay o) Q r

section Rules

variable {o : Origin} {r : Rows}

@[simp]
theorem asks_rows {Q : Rows → Rows → Prop} : Asks o rows Q r ↔ Q r r := by
  refine wp_issue.trans ⟨fun h => h.2 r r ⟨⟨rfl, rfl⟩, fun _ => trivial⟩, fun h => ⟨trivial, ?_⟩⟩
  rintro reply r' ⟨⟨rfl, rfl⟩, -⟩
  exact h

@[simp]
theorem asks_setRows {x : Rows} {Q : Unit → Rows → Prop}
    : Asks o (setRows x) Q r ↔ SameSupply r x ∧ Q () x := by
  refine wp_issue.trans ⟨fun h => ⟨h.1, h.2 () x ⟨rfl, fun _ => trivial⟩⟩, fun h => ⟨h.1, ?_⟩⟩
  rintro ⟨⟩ r' ⟨rfl, -⟩
  exact h.2

@[simp]
theorem asks_modify {f : Rows → Rows} {Q : Unit → Rows → Prop}
    : Asks o (modify f) Q r ↔ SameSupply r (f r) ∧ Q () (f r) := by
  rw [modify, Asks, wp_bind]
  exact asks_rows.trans asks_setRows

@[simp]
theorem asks_balance {account : String} {Q : Int → Rows → Prop}
    : Asks o (balance account) Q r ↔ ∀ n, Q n r := by
  refine wp_issue.trans ⟨fun h n => h.2 n r ⟨rfl, fun _ => trivial⟩, fun h => ⟨trivial, ?_⟩⟩
  rintro n r' ⟨rfl, -⟩
  exact h n

@[simp]
theorem asks_debit {account : String} {amt : Int} {Q : Bool → Rows → Prop}
    : Asks o (debit account amt) Q r ↔ account = o.ctx.sender ∧ ∀ b, Q b r := by
  refine wp_issue.trans ⟨fun h => ⟨h.1, fun b => h.2 b r ⟨rfl, fun _ => trivial⟩⟩,
    fun h => ⟨h.1, ?_⟩⟩
  rintro b r' ⟨rfl, -⟩
  exact h.2 b

@[simp]
theorem asks_draw {amount : Int} {Q : Bool → Rows → Prop}
    : Asks o (draw amount) Q r ↔ o.action.trades = true ∧ ∀ b, Q b r := by
  refine wp_issue.trans ⟨fun h => ⟨h.1, fun b => h.2 b r ⟨rfl, fun _ => trivial⟩⟩,
    fun h => ⟨h.1, ?_⟩⟩
  rintro b r' ⟨rfl, -⟩
  exact h.2 b

@[simp]
theorem asks_transferHbd {recipient : String} {amount : Int} {Q : Bool → Rows → Prop}
    : Asks o (transferHbd recipient amount) Q r ↔ o.action.trades = true ∧ ∀ b, Q b r := by
  refine wp_issue.trans ⟨fun h => ⟨h.1, fun b => h.2 b r ⟨rfl, fun _ => trivial⟩⟩,
    fun h => ⟨h.1, ?_⟩⟩
  rintro b r' ⟨rfl, -⟩
  exact h.2 b

@[simp]
theorem asks_credit {account : String} {amt : Int} {Q : Bool → Rows → Prop}
    : Asks o (credit account amt) Q r ↔ (∀ b, Q b r) ∧ Q true (noteAccount r account) := by
  refine wp_issue.trans ⟨fun h => ⟨fun b => h.2 b r ⟨.inl rfl, fun _ => trivial⟩,
    h.2 true _ ⟨.inr ⟨rfl, rfl⟩, fun _ => trivial⟩⟩, fun h => ⟨trivial, ?_⟩⟩
  obtain ⟨same, noted⟩ := h
  rintro b r' ⟨rfl | ⟨rfl, rfl⟩, -⟩
  · exact same b
  · exact noted

@[simp]
theorem asks_mintSupply {key : AmountKey} {delta : Int} {Q : Bool → Rows → Prop}
    : Asks o (mintSupply key delta) Q r
      ↔ ((key = .migrated ∨ key = .emitted) ∧ delta < 2 ^ 63)
        ∧ ((o.sure → 0 < delta → addAmount (r.getAmount key) delta = none) → Q false r)
        ∧ (delta = 0 → Q true r)
        ∧ (0 < delta → ∀ next, addAmount (r.getAmount key) delta = some next
          → Q true (r.setAmount key next)) := by
  refine wp_issue.trans ⟨fun h => ⟨h.1, fun unfit => h.2 false r ⟨.inl ⟨.inl rfl, rfl⟩, ?_⟩,
    fun zero => h.2 true r ⟨.inl ⟨.inr zero, rfl⟩, fun _ _ _ => rfl⟩,
    fun pos next sum => h.2 true _ ⟨.inr ⟨rfl, pos, next, sum, rfl⟩, fun _ _ _ => rfl⟩⟩,
    fun h => ⟨h.1, ?_⟩⟩
  · intro sure positive fits
    rw [unfit sure positive] at fits
    cases fits
  obtain ⟨-, refused, zero, raised⟩ := h
  have kept (b : Bool) (minted : o.sure → Minted (.mintSupply key delta) r b)
      (none : b = false ∨ delta = 0) : Q b r := by
    cases b with
    | false =>
        exact refused fun sure positive => Option.not_isSome_iff_eq_none.mp fun fits =>
          Bool.false_ne_true (minted sure positive fits)
    | true => exact zero (none.resolve_left nofun)
  rintro b r' ⟨⟨none, rfl⟩ | ⟨rfl, pos, next, sum, rfl⟩, minted⟩
  · exact kept b minted none
  · exact raised pos next sum

/-- What holds of an operation whatever the ledger answers holds of what it asks. -/
theorem Asks.mono {α : Type} {p : Op α} {Q Q' : α → Rows → Prop} (holds : Asks o p Q r)
    (weaker : ∀ value r, Q value r → Q' value r)
    : Asks o p Q' r :=
  wp_mono weaker holds

end Rules

end LasseCash.State
