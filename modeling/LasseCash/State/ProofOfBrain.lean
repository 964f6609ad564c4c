import LasseCash.State.Mint

/-! Posting, voting and content payouts, the curation queue and the monthly mint:
`contract/state/pob.go`.
-/

namespace LasseCash.State

open Engine MachineInt

/-- The pool of a content window. -/
def poolKey : Window → AmountKey
  | .viral => .poolViral
  | .deep => .poolDeep

/-- The total of the rshares that claim against a window's pool. -/
def rsharesKey : Window → AmountKey
  | .viral => .rsharesViral
  | .deep => .rsharesDeep

/-- The height from which a post may be paid out and no longer voted on. -/
def PostRec.closesAt (p : PostRec) : Nat := u64 (p.createdHeight + p.window.payoutHeights)

-----------------------------------------------------------------------------------------
-- Posting
-----------------------------------------------------------------------------------------

/-- The governed threshold of a post or, for a reply, of a comment. -/
def thresholdOf (r : Rows) (window : Window) (parentPermlink : String) : Int :=
  effectiveParam r
    (if parentPermlink ≠ "" then .postThresholdComment else thresholdKeyFor window)

/-- Publishes content of the sender that clears its threshold. -/
def createContent (ctx : Ctx) (permlink : String) (window : Window) (mode : PayoutMode)
    (parentAuthor parentPermlink : String) : Op Result := do
  let r ← rows
  if !r.init then return fail "not initialised"
  if permlink = "" ∨ '|' ∈ permlink.toList ∨ '|' ∈ parentAuthor.toList
      ∨ '|' ∈ parentPermlink.toList then
    return fail "invalid permlink"
  if (r.getPost ctx.sender permlink).isSome then return fail "permlink already used"
  let threshold := thresholdOf r window parentPermlink
  if !canPost (sharesOf r ctx.sender) threshold then
    if parentPermlink ≠ "" then
      return fail ("need " ++ encI64 threshold ++ " L-Shares to comment")
    else return fail ("need " ++ encI64 threshold ++ " L-Shares to post here")
  setRows (r.putPost ctx.sender permlink
    { window, createdHeight := ctx.height, mode, parentAuthor, parentPermlink })
  return ok (if parentPermlink ≠ "" then "commented" else "posted")

def createPost (ctx : Ctx) (permlink : String) (window : Window) (mode : PayoutMode)
    : Op Result :=
  createContent ctx permlink window mode "" ""

/-- A reply to a registered post; it runs on the viral window. -/
def createComment (ctx : Ctx) (permlink : String) (mode : PayoutMode)
    (parentAuthor parentPermlink : String) : Op Result := do
  if parentAuthor = "" ∨ parentPermlink = "" then return fail "comment needs a parent post"
  if ((← rows).getPost parentAuthor parentPermlink).isNone then
    return fail "parent post is not registered on LasseCash"
  createContent ctx permlink .viral mode parentAuthor parentPermlink

/-- Opens a viral window for a post that its author published elsewhere. -/
def registerForAuthor (ctx : Ctx) (author permlink : String) : Op Result := do
  let r ← rows
  if author = "" ∨ permlink = "" ∨ '|' ∈ author.toList ∨ '|' ∈ permlink.toList then
    return fail "invalid post"
  let threshold := effectiveParam r (thresholdKeyFor .viral)
  if !canPost (sharesOf r author) threshold then
    return fail ("author needs " ++ encI64 threshold ++ " L-Shares for this post to earn")
  setRows (r.putPost author permlink { window := .viral, createdHeight := ctx.height })
  return ok "registered by first vote"

/-- Burns LASSECASH for a promoted slot. -/
def promotePost (ctx : Ctx) (author permlink : String) (amt : Int) : Op Result := do
  let r ← rows
  if !r.init then return fail "not initialised"
  match r.getPost author permlink with
  | none => return fail "no such post"
  | some p =>
      if p.isComment then return fail "comments cannot be promoted"
      if p.paidOut then return fail "post already paid out"
      if !p.window.promoteOpen p.createdHeight ctx.height then
        return fail "promotion closed: 75% of the window has elapsed"
      let minBurn := effectiveParam r .promoteMinBurn
      if amt < minBurn then return fail ("minimum promotion burn is " ++ encI64 minBurn)
      if ctx.sender = burnAccount then return fail "null cannot act"
      if !(← debit ctx.sender amt) then return fail "insufficient balance"
      if !(← burn amt) then return fail "burn failed"
      modify (·.putPost author permlink { p with promoted := i64 (p.promoted + amt) })
      return ok ("promoted with " ++ encI64 amt)

-----------------------------------------------------------------------------------------
-- Pending balances and rewards
-----------------------------------------------------------------------------------------

/-- Adds to a pending balance and anchors its epoch on first sighting. -/
def accruePending (r : Rows) (account : String) (amount : Int) (epoch : Nat) : Rows :=
  let p := r.getPending account
  r.putPending account
    { balance := i64 (p.balance + amount), lastEpoch := if p.lastEpoch = 0 then epoch else p.lastEpoch }

/-- Delivers a reward according to the chosen mode. -/
def payReward (ctx : Ctx) (account : String) (amount : Int) (mode : PayoutMode) : Op Bool := do
  if amount ≤ 0 then return true
  match mode with
  | .burn => burn amount
  | .powerUp =>
      modify (accruePending · account amount ctx.epoch)
      return true
  | .default =>
      let (liquid, pending) := routePayout amount
      if !(← credit account liquid) then return false
      modify (accruePending · account pending ctx.epoch)
      return true

-----------------------------------------------------------------------------------------
-- Payout and curation
-----------------------------------------------------------------------------------------

/-- A post as its payout leaves it. -/
def PostRec.settled (p : PostRec) (height : Nat) (curatorPot curatorRshares : Int) : PostRec :=
  { p with
    paidOut := true
    paidHeight := height
    curatorPot := curatorPot
    curatorRshares := curatorRshares
    pot_open := by simp }

/-- What a payout takes from its pool, and the rows without it. -/
def claimPool (r : Rows) (w : Window) (rshares : Int) : Int × Rows :=
  let (total, pool) :=
    (⟨r.getAmount (poolKey w), r.getAmount (rsharesKey w)⟩ : Pool).claim rshares
  (total, (r.setAmount (poolKey w) pool.balance).setAmount (rsharesKey w) pool.rshares)

/-- Settles a post once its window has closed: the author is paid, the curators' part is
parked on the post.
-/
def payout (ctx : Ctx) (author permlink : String) : Op Result := do
  let r ← rows
  if !r.init then return fail "not initialised"
  match r.getPost author permlink with
  | none => return fail "no such post"
  | some p =>
      if p.paidOut then return fail "already paid out"
      if ctx.height < p.closesAt then return fail "window still open"
      let _ ← settle ctx
      let (total, r) := claimPool (← rows) p.window p.rshares
      if total ≤ 0 then
        -- an unvoted post pays nothing and keeps its record of rshares
        setRows (r.putPost author permlink (p.settled ctx.height p.curatorPot p.curatorRshares))
        return ok "no rewards"
      let curatorPot := (mulDiv total curatorPct 100).getD 0
      let authorAmount := i64 (total - curatorPot)
      setRows (r.putPost author permlink (p.settled ctx.height curatorPot p.rshares))
      if !(← payReward ctx author authorAmount p.mode) then
        return fail "author payout failed"
      return ok ("paid author " ++ encI64 authorAmount)

/-- Pays one curator the share of a post's pot that the vote record entitles to. -/
def claimCuration (ctx : Ctx) (author permlink curator : String) : Op Result := do
  let curator := if curator = "" then ctx.sender else curator
  let r ← rows
  match r.getPost author permlink with
  | none => return fail "no such post"
  | some p =>
      if unpaid : p.paidOut = false then return fail "post has not paid out yet"
      else
        if p.curatorRshares ≤ 0 ∨ p.curatorPot ≤ 0 then return fail "nothing to claim"
        let vk := postVoteKey author permlink curator
        match r.postVote vk with
        | none => return fail "no vote to claim"
        | some mine =>
            let share := (mulDiv p.curatorPot mine p.curatorRshares).getD 0
            if mine ≤ 0 then
              setRows (r.setPostVote vk none)
              return fail "nothing to claim"
            if share ≤ 0 then
              setRows (r.setPostVote vk none)
              return fail "share rounds to zero"
            let rest : PostRec :=
              { p with
                curatorPot := i64 (p.curatorPot - share)
                curatorRshares := i64 (p.curatorRshares - mine)
                pot_open := fun h => absurd h unpaid }
            setRows ((r.putPost author permlink rest).setPostVote vk none)
            if !(← payReward ctx curator share .default) then
              return fail "curator payout failed"
            return ok ("claimed " ++ encI64 share)

/-- How long a settled post keeps its curator pot, in days. -/
def curationExpiryDays : Nat := 365

/-- The height from which a settled post's pot may be swept. -/
def PostRec.ripeAt (p : PostRec) : Nat :=
  let paid := if p.paidHeight = 0 then p.closesAt else p.paidHeight
  u64 (paid + curationExpiryDays * heightsPerDay)

/-- Recycles a settled post's unclaimed pot. -/
def sweepCuration (ctx : Ctx) (author permlink : String) : Op Result := do
  let r ← rows
  match r.getPost author permlink with
  | none => return fail "no such post"
  | some p =>
      if !p.paidOut then return fail "post has not paid out yet"
      if p.curatorPot ≤ 0 then return fail "nothing left to sweep"
      if ctx.height < p.ripeAt then
        return fail ("not expired: curators have until height " ++ encU64 p.ripeAt)
      setRows (recycle (r.putPost author permlink
        { p with curatorPot := 0, curatorRshares := 0, pot_open := fun _ => rfl }) p.curatorPot)
      return ok ("swept " ++ encI64 p.curatorPot)

-----------------------------------------------------------------------------------------
-- The curation queue
-----------------------------------------------------------------------------------------

def maxCurationDrain : Nat := 20

/-- The queued claims that a vote settles as a side effect. -/
def piggybackDrain : Nat := 3

/-- Records that an account will be owed curation on a post. -/
def cqAppend (r : Rows) (account author permlink : String) : Rows :=
  let tail := r.getU64 (.cqTail account)
  (r.setCuration account tail (some (author, permlink))).setU64 (.cqTail account) (tail + 1)

/-- The scan over `togo` slots from slot `n`; posts still open are left for later. Returns
how many claims were paid.
-/
def drainScan (ctx : Ctx) (account : String) : Nat → Nat → Op Nat
  | 0, _ => return 0
  | togo + 1, n => do
      let r ← rows
      match r.curation (account, n) with
      | none => drainScan ctx account togo (n + 1)
      | some (author, permlink) =>
          match r.getPost author permlink with
          | none =>
              modify (·.setCuration account n none)
              drainScan ctx account togo (n + 1)
          | some p =>
              if !p.paidOut then drainScan ctx account togo (n + 1)
              else
                let res ← claimCuration ctx author permlink account
                modify (·.setCuration account n none)
                let settled ← drainScan ctx account togo (n + 1)
                return settled + (if res.ok then 1 else 0)

/-- Moves the head past a run of settled slots, with `togo` slots before the tail. -/
def advanceHead (account : String) : Nat → Nat → Rows → Rows
  | 0, head, r => r.setU64 (.cqHead account) head
  | togo + 1, head, r =>
      match r.curation (account, head) with
      | some _ => r.setU64 (.cqHead account) head
      | none => advanceHead account togo (head + 1) (r.setCuration account head none)

/-- Settles up to `limit` queued curation claims of an account. -/
def drainCuration (ctx : Ctx) (account : String) (limit : Nat) : Op Nat := do
  let limit := if limit = 0 ∨ limit > maxCurationDrain then maxCurationDrain else limit
  let r ← rows
  let head := r.getU64 (.cqHead account)
  let tail := r.getU64 (.cqTail account)
  let settled ← drainScan ctx account (min limit (tail - head)) head
  modify (advanceHead account (tail - head) head)
  return settled

-----------------------------------------------------------------------------------------
-- Voting
-----------------------------------------------------------------------------------------

/-- Withdraws the sender's vote from an open post. -/
def unvote (ctx : Ctx) (author permlink : String) : Op Result := do
  let r ← rows
  match r.getPost author permlink with
  | none => return fail "no such post"
  | some p =>
      if p.paidOut ∨ ctx.height ≥ p.closesAt then return fail "voting has closed"
      let vk := postVoteKey author permlink ctx.sender
      match r.postVote vk with
      | none => return fail "no vote to remove"
      | some prev =>
          let votes := if p.votes > 0 then i64 (p.votes - 1) else p.votes
          let r := r.putPost author permlink { p with rshares := i64 (p.rshares - prev), votes }
          let r := r.setPostVote vk none
          let rk := rsharesKey p.window
          setRows (r.setAmount rk (i64 (r.getAmount rk - prev)))
          return ok "vote removed"

/-- Loads a post, registering it for its author when nobody did so before. -/
def openPost (ctx : Ctx) (author permlink : String) : Op (Except Result PostRec) := do
  match (← rows).getPost author permlink with
  | some p => return .ok p
  | none =>
      let reg ← registerForAuthor ctx author permlink
      if !reg.ok then return .error reg
      match (← rows).getPost author permlink with
      | none => return .error reg
      | some p => return .ok p

/-- Writes a vote of `rshares` in place of the sender's previous one. -/
def writeVote (r : Rows) (ctx : Ctx) (author permlink : String) (p : PostRec) (rshares : Int)
    (power : VotePower) : Rows :=
  let vk := postVoteKey author permlink ctx.sender
  let prev := (r.postVote vk).getD 0
  let first := (r.postVote vk).isNone
  let r := if first then cqAppend r ctx.sender author permlink else r
  let delta := i64 (rshares - prev)
  let votes := if first then i64 (p.votes + 1) else p.votes
  let r := r.putPost author permlink { p with rshares := i64 (p.rshares + delta), votes }
  let r := (r.setPostVote vk (some rshares)).putVotePower ctx.sender p.window power
  let rk := rsharesKey p.window
  r.setAmount rk (i64 (r.getAmount rk + delta))

/-- Casts a weighted vote; the first vote on an unknown post registers it. -/
def vote (ctx : Ctx) (author permlink : String) (weightPct : Int) : Op Result := do
  if !(← rows).init then return fail "not initialised"
  if weightPct < 0 ∨ weightPct > 100 then return fail "weight must be 0..100"
  if weightPct = 0 then unvote ctx author permlink
  else
    match ← openPost ctx author permlink with
    | .error reg => return reg
    | .ok p =>
        let r ← rows
        if p.paidOut ∨ ctx.height ≥ p.closesAt then return fail "voting has closed"
        let shares := sharesOf r ctx.sender
        if shares ≤ 0 then return fail "no L-Shares, no vote weight"
        match (r.getVotePower ctx.sender p.window).spend p.window ctx.height weightPct with
        | none => return fail "not enough vote power"
        | some power =>
            let rshares := voteWeight shares (voteCost weightPct)
            if rshares ≤ 0 then return fail "vote too small to register"
            setRows (writeVote r ctx author permlink p rshares power)
            -- the voter's own backlog rides along
            let _ ← drainCuration ctx ctx.sender piggybackDrain
            return ok "voted"

-----------------------------------------------------------------------------------------
-- The monthly mint
-----------------------------------------------------------------------------------------

/-- Converts a pending balance into a mint, once a month boundary has passed. -/
def settlePending (ctx : Ctx) (account : String) : Op Result := do
  if !(← rows).init then return fail "not initialised"
  let _ ← drainCuration ctx account maxCurationDrain
  let r ← rows
  let p := r.getPending account
  if p.lastEpoch = 0 then
    -- first sighting: anchor without minting
    setRows (r.putPending account { p with lastEpoch := ctx.epoch })
    return ok "anchored"
  if ctx.epoch ≤ p.lastEpoch then return ok "not due yet"
  if p.balance < minMintAmount then return ok "below minimum, rolled over"
  if !(← accrue ctx.height) then
    return fail "accrual is behind; call advance then settle again"
  let r := (← rows).putPending account { balance := 0, lastEpoch := ctx.epoch }
  let days := mintDuration r account
  match newMint account p.balance days ctx.height (mintParamsNow r ctx.height) with
  | none =>
      -- the balance is given back rather than destroyed
      setRows (r.putPending account { balance := p.balance, lastEpoch := ctx.epoch })
      return fail "mint would yield no shares"
  | some m =>
      setRows r
      let _ ← registerMints ctx.height [m]
      return ok ("minted " ++ encI64 p.balance ++ " for " ++ encI64 days ++ " days")

/-- What a post would earn if it paid out right now. -/
def pendingPayout (r : Rows) (author permlink : String) : Int :=
  match r.getPost author permlink with
  | none => 0
  | some p =>
      if p.paidOut ∨ p.rshares ≤ 0 then 0
      else
        ((⟨r.getAmount (poolKey p.window), r.getAmount (rsharesKey p.window)⟩ : Pool).claim
          p.rshares).1

end LasseCash.State
