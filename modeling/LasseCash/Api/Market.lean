import LasseCash.Api.PositionHistory
import LasseCash.State.PoolAnswers

/-! The public market data, `api/src/market.ts`: trades and reserves rebuilt from what the contract
answered to the calls of the pool.
-/

namespace LasseCash.Api

open App Engine MachineInt State

-----------------------------------------------------------------------------------------
-- Ledger entries
-----------------------------------------------------------------------------------------

/-- One recorded call of the pool. -/
structure PoolLedgerEntry where
  txId : String
  time : String
  height : Nat
  action : String
  payload : String
  signer : String
  ok : Bool
  ret : String

/-- The two swaps under their names before the rename. -/
def legacyEntrypoint : List (String × String) :=
  [("swap_lc_hbd", "swap_lassecash_hbd"), ("swap_hbd_lc", "swap_hbd_lassecash")]

/-- A recorded name as the current contract spells it. -/
def canonicalAction (action : String) : String := (legacyEntrypoint.lookup action).getD action

/-- `buy` and `sell` are of LASSECASH; `add` and `remove` move depth, not price. -/
inductive TradeType
  | buy
  | sell
  | add
  | remove
  deriving DecidableEq

/-- What an entry moved, and the reserve deltas it caused. -/
structure LedgerMove where
  type : TradeType
  lc : Int
  hbd : Int
  dLc : Int
  dHbd : Int
  deriving DecidableEq

/-- `swapped for <out>` and the token, nothing else. -/
def swappedFor (token : String) (ret : String) : Option Nat := do
  let rest ← following "swapped for " ret.toList
  let (out, rest) ← leadingNumber rest
  if rest = token.toList then some out else none

/-- The verb and `<lc> LC and <hbd> HBD`, or the same with the new name of the token. -/
def movedBoth (verb : String) (ret : String) : Option (Nat × Nat) := do
  let rest ← following verb ret.toList
  let (lc, rest) ← leadingNumber rest
  let rest ← (following " LC and " rest).or (following " LASSECASH and " rest)
  let (hbd, rest) ← leadingNumber rest
  if rest = " HBD".toList then some (lc, hbd) else none

/-- The deltas of one entry, `none` where the call was refused or cannot be read. -/
def parseLedgerEntry (e : PoolLedgerEntry) : Option LedgerMove :=
  if !e.ok then none
  else
    let arg0 := (field e.payload 0).getD ""
    let action := canonicalAction e.action
    if !allDigits arg0 && (action == "swap_lassecash_hbd" || action == "swap_hbd_lassecash") then none
    else if action = "swap_lassecash_hbd" then do
      let out ← swappedFor " HBD" e.ret
      let amount ← bigInt arg0
      some ⟨.sell, amount, out, amount, -out⟩
    else if action = "swap_hbd_lassecash" then do
      let out ← swappedFor " LASSECASH" e.ret
      let amount ← bigInt arg0
      some ⟨.buy, out, amount, -out, amount⟩
    else if action = "add_liquidity" then do
      let (lc, hbd) ← movedBoth "added " e.ret
      some ⟨.add, lc, hbd, lc, hbd⟩
    else if action = "remove_liquidity" then do
      let (lc, hbd) ← movedBoth "withdrew " e.ret
      some ⟨.remove, lc, hbd, -lc, -hbd⟩
    else none

-----------------------------------------------------------------------------------------
-- The replay
-----------------------------------------------------------------------------------------

structure MarketTrade where
  tradeId : String
  time : String
  height : Nat
  type : TradeType
  lc : Int
  hbd : Int
  lcReserve : Int
  hbdReserve : Int
  price : Int
  trader : String

/-- The marginal price of the pool, floored. -/
def reservePrice (lc hbd : Int) : Int := if lc ≤ 0 ∨ hbd ≤ 0 then 0 else hbd * unit / lc

/-- A time with its zone; the node's have none and are UTC. -/
def utcIso (anchorTs : String) : String :=
  let zoned :=
    anchorTs.toList.any (fun c => c == 'z' || c == 'Z')
      || match anchorTs.toList.reverse with
        | m' :: m :: ':' :: h' :: h :: sign :: _ =>
            [h, h', m, m'].all Char.isDigit && (sign == '+' || sign == '-')
        | _ => false
  if zoned then anchorTs else anchorTs ++ "Z"

structure MarketReplay where
  trades : List MarketTrade
  lcReserve : Int
  hbdReserve : Int
  skipped : Nat

/-- One entry of the replay. -/
def MarketReplay.add (r : MarketReplay) (e : PoolLedgerEntry) : MarketReplay :=
  match parseLedgerEntry e with
  | none => { r with skipped := r.skipped + 1 }
  | some p =>
      let lc := r.lcReserve + p.dLc
      let hbd := r.hbdReserve + p.dHbd
      { r with
        lcReserve := lc
        hbdReserve := hbd
        trades := r.trades ++ [{
          tradeId := e.txId, time := utcIso e.time, height := e.height, type := p.type
          lc := p.lc, hbd := p.hbd, lcReserve := lc, hbdReserve := hbd
          price := reservePrice lc hbd, trader := e.signer }] }

/-- Replays a ledger, oldest first. -/
def buildMarketTrades (ledger : List PoolLedgerEntry) : MarketReplay :=
  ledger.foldl MarketReplay.add ⟨[], 0, 0, 0⟩

/-- The replay lands on the live reserves, to the base unit. -/
def reconciles (r : MarketReplay) (liveLcUnits liveHbdUnits : Int) : Bool :=
  r.lcReserve = liveLcUnits && r.hbdReserve = liveHbdUnits

/-- The operations of the pool. -/
def poolOperations : List Entrypoint :=
  [.addLiquidity, .removeLiquidity, .sweepTranche, .swapLassecashHbd, .swapHbdLassecash]

/-- A call and its answer as they are recorded. -/
def PoolLedgerEntry.of (t : ChainCall) (res : Result) : PoolLedgerEntry where
  txId := t.txId
  time := t.time
  height := t.ctx.height
  action := t.invocation.action
  payload := t.invocation.payload
  signer := t.ctx.sender
  ok := res.ok
  ret := res.msg

/-- The successful operations of the pool in a log. -/
def poolLedger (log : List (ChainCall × Result)) : List PoolLedgerEntry :=
  (log.filter fun e => e.2.ok && e.1.invocation.action ∈ poolOperations.map (·.name)).map fun e =>
    .of e.1 e.2

-----------------------------------------------------------------------------------------
-- What the replay reads
-----------------------------------------------------------------------------------------

/-- A swap's answer is read back. -/
theorem swappedFor_written {token : String} (stops : ∀ c ∈ token.toList.head?, c.isDigit = false)
    {out : Int} (nonneg : 0 ≤ out)
    : swappedFor token ("swapped for " ++ encI64 out ++ token) = some out.toNat := by
  have whole : ("swapped for " ++ encI64 out ++ token).toList
      = "swapped for ".toList ++ (out.toNat.repr.toList ++ token.toList) := by
    rw [encI64_of_nonneg nonneg]
    simp only [String.toList_append, List.append_assoc]
  rw [swappedFor, whole, following_written]
  simp only [Option.bind_eq_bind, Option.bind_some, leadingNumber_written _ _ stops, if_true]

/-- The answer to a deposit or a withdrawal is read up to its second amount. -/
theorem movedBoth_reads (verb : String) {lc : Int} (nonneg : 0 ≤ lc) (hbd : Int)
    : movedBoth verb (verb ++ encI64 lc ++ " LASSECASH and " ++ encI64 hbd ++ " HBD")
      = (leadingNumber ((encI64 hbd).toList ++ " HBD".toList)).bind fun e =>
          if e.2 = " HBD".toList then some (lc.toNat, e.1) else none := by
  have number := leadingNumber_written lc.toNat
    (" LASSECASH and ".toList ++ ((encI64 hbd).toList ++ " HBD".toList)) (by
      rintro c ⟨⟩
      rfl)
  have other : following " LC and " (" LASSECASH and ".toList
      ++ ((encI64 hbd).toList ++ " HBD".toList)) = none := rfl
  have whole : (verb ++ encI64 lc ++ " LASSECASH and " ++ encI64 hbd ++ " HBD").toList
      = verb.toList ++ (lc.toNat.repr.toList ++ (" LASSECASH and ".toList
        ++ ((encI64 hbd).toList ++ " HBD".toList))) := by
    rw [encI64_of_nonneg nonneg]
    simp only [String.toList_append, List.append_assoc]
  rw [movedBoth, whole, following_written]
  simp only [Option.bind_eq_bind, Option.bind_some, number, other, following_written, Option.none_or]

/-- A whole amount is read back. -/
theorem movedBoth_written (verb : String) {lc hbd : Int} (lc_nonneg : 0 ≤ lc)
    (hbd_nonneg : 0 ≤ hbd)
    : movedBoth verb (verb ++ encI64 lc ++ " LASSECASH and " ++ encI64 hbd ++ " HBD")
      = some (lc.toNat, hbd.toNat) := by
  have number := leadingNumber_written hbd.toNat " HBD".toList (by
    rintro c ⟨⟩
    rfl)
  rw [movedBoth_reads verb lc_nonneg, encI64_of_nonneg hbd_nonneg, number, Option.bind_some,
    if_pos rfl]

/-- A negative one is not read. -/
theorem movedBoth_negative (verb : String) {lc hbd : Int} (lc_nonneg : 0 ≤ lc) (negative : hbd < 0)
    : movedBoth verb (verb ++ encI64 lc ++ " LASSECASH and " ++ encI64 hbd ++ " HBD")
      = none := by
  rw [movedBoth_reads verb lc_nonneg, leadingNumber_negative negative]
  rfl

-----------------------------------------------------------------------------------------
-- What an entry is read as
-----------------------------------------------------------------------------------------

section Entries

variable {e : PoolLedgerEntry} {text : String} {amount lc hbd out : Int}

theorem parse_sell (succeeded : e.ok = true) (named : e.action = "swap_lassecash_hbd")
    (first : field e.payload 0 = some text)
    (value : allDigits text = true → bigInt text = some amount)
    (answer : e.ret = "swapped for " ++ encI64 out ++ " HBD") (nonneg : 0 ≤ out)
    : parseLedgerEntry e
      = if allDigits text then some ⟨.sell, amount, out, amount, -out⟩ else none := by
  have canonical : canonicalAction "swap_lassecash_hbd" = "swap_lassecash_hbd" := by decide
  have said : swappedFor " HBD" e.ret = some out.toNat :=
    answer ▸ swappedFor_written (by rintro c ⟨⟩; rfl) nonneg
  simp only [parseLedgerEntry, succeeded, named, canonical, first, said]
  cases digits : allDigits text with
  | false => simp [digits]
  | true => simp [digits, value digits, Int.toNat_of_nonneg nonneg]

theorem parse_buy (succeeded : e.ok = true) (named : e.action = "swap_hbd_lassecash")
    (first : field e.payload 0 = some text)
    (value : allDigits text = true → bigInt text = some amount)
    (answer : e.ret = "swapped for " ++ encI64 out ++ " LASSECASH") (nonneg : 0 ≤ out)
    : parseLedgerEntry e
      = if allDigits text then some ⟨.buy, out, amount, -out, amount⟩ else none := by
  have canonical : canonicalAction "swap_hbd_lassecash" = "swap_hbd_lassecash" := by decide
  have said : swappedFor " LASSECASH" e.ret = some out.toNat :=
    answer ▸ swappedFor_written (by rintro c ⟨⟩; rfl) nonneg
  simp only [parseLedgerEntry, succeeded, named, canonical, first, said]
  cases digits : allDigits text with
  | false => simp [digits]
  | true => simp [digits, value digits, Int.toNat_of_nonneg nonneg]

theorem parse_add (succeeded : e.ok = true) (named : e.action = "add_liquidity")
    (answer : e.ret = "added " ++ encI64 lc ++ " LASSECASH and " ++ encI64 hbd ++ " HBD")
    (nonneg : 0 ≤ lc)
    : parseLedgerEntry e = if 0 ≤ hbd then some ⟨.add, lc, hbd, lc, hbd⟩ else none := by
  have canonical : canonicalAction "add_liquidity" = "add_liquidity" := by decide
  simp only [parseLedgerEntry, succeeded, named, canonical, answer]
  by_cases whole : 0 ≤ hbd
  · simp [movedBoth_written "added " nonneg whole, whole, Int.toNat_of_nonneg nonneg]
  · simp [movedBoth_negative "added " nonneg (not_le.mp whole), whole]

theorem parse_remove (succeeded : e.ok = true) (named : e.action = "remove_liquidity")
    (answer : e.ret = "withdrew " ++ encI64 lc ++ " LASSECASH and " ++ encI64 hbd ++ " HBD")
    (lc_nonneg : 0 ≤ lc) (hbd_nonneg : 0 ≤ hbd)
    : parseLedgerEntry e = some ⟨.remove, lc, hbd, -lc, -hbd⟩ := by
  have canonical : canonicalAction "remove_liquidity" = "remove_liquidity" := by decide
  simp only [parseLedgerEntry, succeeded, named, canonical, answer]
  simp [movedBoth_written "withdrew " lc_nonneg hbd_nonneg, Int.toNat_of_nonneg lc_nonneg,
    Int.toNat_of_nonneg hbd_nonneg]

/-- An eviction is not read. -/
theorem parse_sweep (named : e.action = "sweep_tranche") : parseLedgerEntry e = none := by
  have canonical : canonicalAction "sweep_tranche" = "sweep_tranche" := by decide
  simp only [parseLedgerEntry, named, canonical]
  simp

end Entries

-----------------------------------------------------------------------------------------
-- What the pool's calls move
-----------------------------------------------------------------------------------------

variable {A : Type} [Assets A] {w : World A} {t : ChainCall} {payload : String}

/-- The first field of a payload that an amount is read from. -/
theorem amount_field {v : Int} (read : (parseArgs payload).amount 0 = some v)
    : ∃ text, field payload 0 = some text ∧ (allDigits text = true → bigInt text = some v) := by
  obtain ⟨text, there, -⟩ := field_of_amount read
  exact ⟨text, there, bigInt_amount read there⟩

theorem sell_moves (invoked : t.invocation = .entry .swapLassecashHbd payload)
    (succeeds : (t.exec w).2.ok = true)
    : ∃ text lcIn out, field payload 0 = some text ∧ (allDigits text = true → bigInt text = some lcIn)
      ∧ lcIn < 2 ^ 63
      ∧ swapOut (w.rows.getAmount .poolLC) (w.rows.getAmount .poolHBD) lcIn = some out
      ∧ ReserveMove w.rows (t.exec w).1.rows lcIn (-out)
      ∧ (t.exec w).2.msg = "swapped for " ++ encI64 out ++ " HBD" := by
  obtain ⟨action, asked, ran⟩ := entry_ran invoked succeeds
  rw [Entrypoint.action] at asked
  obtain ⟨lcIn, minOut, read, -, rfl⟩ := amounts_asked asked
  obtain ⟨text, there, value⟩ := amount_field read
  have answers := Action.exec_asks (w := w) rfl (swapLCForHBD_answers (r := w.rows)
    (o := ⟨t.ctx, .swapLCForHBD (.ofInt lcIn) (.ofInt minOut), w.rows, False⟩) rfl)
  rw [ran, amount_toInt read] at answers
  obtain ⟨out, swap, move, msg⟩ := answers succeeds
  have word : lcIn < 2 ^ 63 := amount_toInt read ▸ Int64.toInt_lt _
  exact ⟨text, lcIn, out, there, value, word, swap, move, msg⟩

theorem buy_moves (invoked : t.invocation = .entry .swapHbdLassecash payload)
    (succeeds : (t.exec w).2.ok = true)
    : ∃ text hbdIn out, field payload 0 = some text ∧ (allDigits text = true → bigInt text = some hbdIn)
      ∧ hbdIn < 2 ^ 63
      ∧ swapOut (w.rows.getAmount .poolHBD) (w.rows.getAmount .poolLC) hbdIn = some out
      ∧ ReserveMove w.rows (t.exec w).1.rows (-out) hbdIn
      ∧ (t.exec w).2.msg = "swapped for " ++ encI64 out ++ " LASSECASH" := by
  obtain ⟨action, asked, ran⟩ := entry_ran invoked succeeds
  rw [Entrypoint.action] at asked
  obtain ⟨hbdIn, minOut, read, -, rfl⟩ := amounts_asked asked
  obtain ⟨text, there, value⟩ := amount_field read
  have answers := Action.exec_asks (w := w) rfl (swapHBDForLC_answers (r := w.rows)
    (o := ⟨t.ctx, .swapHBDForLC (.ofInt hbdIn) (.ofInt minOut), w.rows, False⟩) rfl)
  rw [ran, amount_toInt read] at answers
  obtain ⟨out, swap, move, msg⟩ := answers succeeds
  have word : hbdIn < 2 ^ 63 := amount_toInt read ▸ Int64.toInt_lt _
  exact ⟨text, hbdIn, out, there, value, word, swap, move, msg⟩

theorem deposit_moves (invoked : t.invocation = .entry .addLiquidity payload)
    (succeeds : (t.exec w).2.ok = true)
    : ∃ lcIn maxHbd hbdIn, (parseArgs payload).amount 0 = some lcIn
      ∧ (parseArgs payload).amount 1 = some maxHbd ∧ 0 < lcIn ∧ lcIn < 2 ^ 63
      ∧ hbdForDeposit w.rows lcIn maxHbd = .ok hbdIn
      ∧ ReserveMove w.rows (t.exec w).1.rows lcIn hbdIn
      ∧ (t.exec w).2.msg
        = "added " ++ encI64 lcIn ++ " LASSECASH and " ++ encI64 hbdIn ++ " HBD" := by
  obtain ⟨action, asked, ran⟩ := entry_ran invoked succeeds
  rw [Entrypoint.action] at asked
  obtain ⟨lcIn, maxHbd, read, read', rfl⟩ := amounts_asked asked
  have answers := Action.exec_asks (w := w) rfl (addLiquidity_answers
    (o := ⟨t.ctx, .addLiquidity (.ofInt lcIn) (.ofInt maxHbd), w.rows, False⟩) rfl)
  rw [ran, amount_toInt read, amount_toInt read'] at answers
  obtain ⟨positive, hbdIn, priced, move, msg⟩ := answers succeeds
  have word : lcIn < 2 ^ 63 := amount_toInt read ▸ Int64.toInt_lt _
  exact ⟨lcIn, maxHbd, hbdIn, read, read', positive, word, priced, move, msg⟩

theorem withdrawal_moves (invoked : t.invocation = .entry .removeLiquidity payload)
    (succeeds : (t.exec w).2.ok = true)
    : ∃ id lcOut paid, Withdraws w.rows (t.exec w).1.rows t.ctx.sender id lcOut paid
      ∧ (t.exec w).2.msg
        = "withdrew " ++ encI64 lcOut ++ " LASSECASH and " ++ encI64 paid ++ " HBD" := by
  obtain ⟨action, asked, ran⟩ := entry_ran invoked succeeds
  rw [Entrypoint.action] at asked
  obtain ⟨id, -, rfl, -⟩ := idArg_asked asked
  have answers := Action.exec_asks (w := w) rfl (removeLiquidity_answers
    (o := ⟨t.ctx, .removeLiquidity (.ofNat id), w.rows, False⟩) _ rfl)
  rw [ran] at answers
  exact ⟨_, answers succeeds⟩

theorem eviction_moves (invoked : t.invocation = .entry .sweepTranche payload)
    (succeeds : (t.exec w).2.ok = true)
    : ∃ id lcOut paid, (parseArgs payload).u64 1 = some id
      ∧ Withdraws w.rows (t.exec w).1.rows ((parseArgs payload).str 0) id lcOut paid := by
  obtain ⟨action, asked, ran⟩ := entry_ran invoked succeeds
  have reads : Entrypoint.sweepTranche.action t.ctx (parseArgs payload)
      = if (parseArgs payload).str 0 = "" then .error "usage: <owner>|<trancheId>"
        else idArg (parseArgs payload) 1 "usage: <owner>|<trancheId>"
          (.sweepTranche ((parseArgs payload).str 0)) := rfl
  rw [reads] at asked
  split at asked
  · cases asked
  obtain ⟨id, read, rfl, same⟩ := idArg_asked asked
  have answers := Action.exec_asks (w := w) rfl (sweepTranche_answers
    (o := ⟨t.ctx, .sweepTranche ((parseArgs payload).str 0) (.ofNat id), w.rows, False⟩) _ _ rfl)
  rw [ran, same] at answers
  obtain ⟨lcOut, paid, withdraws, -⟩ := answers succeeds
  exact ⟨id, lcOut, paid, read, withdraws⟩

/-- No other entrypoint asks for an operation of the pool. -/
theorem trades_of_entry {e : Entrypoint} {ctx : Ctx} {args : Args} {action : Action}
    (asked : e.action ctx args = .ok action) (other : e ∉ poolOperations)
    : action.trades = false := by
  cases e <;>
    first
      | exact absurd (by decide) other
      | (simp only [Entrypoint.action, amounts, amountArg, intArg, idArg, App.authored] at asked
         repeat' split at asked
         all_goals first
           | (obtain rfl := Except.ok.inj asked; rfl)
           | cases asked)

-----------------------------------------------------------------------------------------
-- Steps
-----------------------------------------------------------------------------------------

/-- (Live rep r) says that the replay stands at the live reserves. -/
def Live (rep : MarketReplay) (r : Rows) : Prop :=
  rep.lcReserve = r.getAmount .poolLC ∧ rep.hbdReserve = r.getAmount .poolHBD

/-- The reserves are words and not negative. -/
structure Stocked (r : Rows) : Prop where
  lc : 0 ≤ r.getAmount .poolLC
  hbd : 0 ≤ r.getAmount .poolHBD
  lc_lt : r.getAmount .poolLC < 2 ^ 63
  hbd_lt : r.getAmount .poolHBD < 2 ^ 63

/-- (Replayable r invocation) says that what the operation of the pool does is told by its payload
and its answer: a swap's amount is all digits, a deposit asks for no negative HBD and the reserves
that it leaves are words, and an eviction releases nothing.
-/
def Replayable (r : Rows) : Invocation → Prop
  | .entry .swapLassecashHbd payload | .entry .swapHbdLassecash payload =>
      allDigits ((field payload 0).getD "") = true
  | .entry .addLiquidity payload =>
      ∀ lcIn maxHbd hbdIn, (parseArgs payload).amount 0 = some lcIn
        → (parseArgs payload).amount 1 = some maxHbd → hbdForDeposit r lcIn maxHbd = .ok hbdIn
        → 0 ≤ hbdIn ∧ r.getAmount .poolLC + lcIn < 2 ^ 63 ∧ r.getAmount .poolHBD + hbdIn < 2 ^ 63
  | .entry .sweepTranche payload =>
      ∀ id t lcOut hbdOut, (parseArgs payload).u64 1 = some id
        → r.getTranche ((parseArgs payload).str 0) id = some t
        → withdrawAmounts t.shares (r.getAmount .poolShares) (r.getAmount .poolLC)
            (r.getAmount .poolHBD) = some (lcOut, hbdOut)
        → lcOut = 0 ∧ hbdPayMilli hbdOut ≤ 0
  | _ => True

/-- An entry that is read moves the replay by its deltas. -/
theorem add_read {rep : MarketReplay} {e : PoolLedgerEntry} {p : LedgerMove}
    (read : parseLedgerEntry e = some p)
    : (rep.add e).lcReserve = rep.lcReserve + p.dLc
      ∧ (rep.add e).hbdReserve = rep.hbdReserve + p.dHbd := by
  rw [MarketReplay.add, read]
  exact ⟨rfl, rfl⟩

/-- An entry that is not read leaves the replay where it was. -/
theorem add_skipped {rep : MarketReplay} {e : PoolLedgerEntry} (unread : parseLedgerEntry e = none)
    : (rep.add e).lcReserve = rep.lcReserve ∧ (rep.add e).hbdReserve = rep.hbdReserve := by
  rw [MarketReplay.add, unread]
  exact ⟨rfl, rfl⟩

/-- (StepTold rep w t) says that the replay, live before the call, is live after it exactly where
the call is replayable, and that the reserves then stay in range.
-/
def StepTold (rep : MarketReplay) (w : World A) (t : ChainCall) : Prop :=
  (Live (rep.add (.of t (t.exec w).2)) (t.exec w).1.rows ↔ Replayable w.rows t.invocation)
    ∧ (Replayable w.rows t.invocation → Stocked (t.exec w).1.rows)

/-- What a withdrawal releases is a part of the reserves. -/
theorem withdraws_part {r r' : Rows} (stocked : Stocked r) {owner : String} {id : Nat}
    {lcOut paid : Int} (withdraws : Withdraws r r' owner id lcOut paid)
    : 0 ≤ lcOut ∧ lcOut ≤ r.getAmount .poolLC ∧ 0 ≤ paid ∧ paid ≤ r.getAmount .poolHBD := by
  obtain ⟨t, hbdOut, -, amounts, rfl⟩ := withdraws.part
  obtain ⟨positive, le, rfl, rfl⟩ := withdrawAmounts_eq_some stocked.lc stocked.hbd amounts
  have part {reserve : Int} (nonneg : 0 ≤ reserve)
      : 0 ≤ reserve * t.shares / r.getAmount .poolShares
        ∧ reserve * t.shares / r.getAmount .poolShares ≤ reserve :=
    ⟨Int.ediv_nonneg (mul_nonneg nonneg positive.le) (by omega),
      Int.ediv_le_of_le_mul (by omega) (mul_le_mul_of_nonneg_left le nonneg)⟩
  refine ⟨(part stocked.lc).1, (part stocked.lc).2, ?_⟩
  have hbd := part stocked.hbd
  have := stocked.hbd
  unfold paidOf
  split <;> omega

/-- A sum of words is a word exactly where it does not wrap. -/
theorem word_iff {x : Int} (nonneg : 0 ≤ x) : x = i64 x ↔ x < 2 ^ 63 :=
  ⟨fun same => same ▸ (i64_mem x).upper, fun fits => (i64_of_nonneg nonneg fits).symm⟩

section Steps

variable {rep : MarketReplay} (live : Live rep w.rows) (stocked : Stocked w.rows)
  (succeeds : (t.exec w).2.ok = true)
include live stocked succeeds

theorem step_sell (invoked : t.invocation = .entry .swapLassecashHbd payload)
    : StepTold rep w t := by
  obtain ⟨text, lcIn, out, there, value, word, swap, move, msg⟩ := sell_moves invoked succeeds
  obtain ⟨-, positive, fits, -, some_out, part⟩ := swapOut_eq_some stocked.lc_lt word swap
  have lc := move.lc
  have hbd := move.hbd
  have := stocked.lc
  have := stocked.hbd_lt
  rw [i64_of_nonneg (by omega) (by omega)] at lc hbd
  have named : (PoolLedgerEntry.of t (t.exec w).2).action = "swap_lassecash_hbd" := by
    rw [PoolLedgerEntry.of, invoked]
    rfl
  have first : field (PoolLedgerEntry.of t (t.exec w).2).payload 0 = some text := by
    rw [PoolLedgerEntry.of, invoked]
    exact there
  have read := parse_sell succeeds named first value msg some_out.le
  have told : Replayable w.rows t.invocation ↔ allDigits text = true := by
    rw [invoked, Replayable, there, Option.getD_some]
  refine ⟨?_, fun _ => ⟨by omega, by omega, by omega, by omega⟩⟩
  rw [told, Live, lc, hbd, ← live.1, ← live.2]
  by_cases digits : allDigits text = true
  · rw [if_pos digits] at read
    simp only [(add_read read).1, (add_read read).2, digits, and_self]
  · rw [if_neg digits] at read
    simp only [(add_skipped read).1, (add_skipped read).2, digits]
    constructor
    · rintro ⟨same, -⟩
      omega
    · exact nofun

theorem step_buy (invoked : t.invocation = .entry .swapHbdLassecash payload)
    : StepTold rep w t := by
  obtain ⟨text, hbdIn, out, there, value, word, swap, move, msg⟩ := buy_moves invoked succeeds
  obtain ⟨-, positive, fits, -, some_out, part⟩ := swapOut_eq_some stocked.hbd_lt word swap
  have lc := move.lc
  have hbd := move.hbd
  have := stocked.hbd
  have := stocked.lc_lt
  rw [i64_of_nonneg (by omega) (by omega)] at lc hbd
  have named : (PoolLedgerEntry.of t (t.exec w).2).action = "swap_hbd_lassecash" := by
    rw [PoolLedgerEntry.of, invoked]
    rfl
  have first : field (PoolLedgerEntry.of t (t.exec w).2).payload 0 = some text := by
    rw [PoolLedgerEntry.of, invoked]
    exact there
  have read := parse_buy succeeds named first value msg some_out.le
  have told : Replayable w.rows t.invocation ↔ allDigits text = true := by
    rw [invoked, Replayable, there, Option.getD_some]
  refine ⟨?_, fun _ => ⟨by omega, by omega, by omega, by omega⟩⟩
  rw [told, Live, lc, hbd, ← live.1, ← live.2]
  by_cases digits : allDigits text = true
  · rw [if_pos digits] at read
    simp only [(add_read read).1, (add_read read).2, digits, and_self]
  · rw [if_neg digits] at read
    simp only [(add_skipped read).1, (add_skipped read).2, digits]
    constructor
    · rintro ⟨-, same⟩
      omega
    · exact nofun

theorem step_deposit (invoked : t.invocation = .entry .addLiquidity payload)
    : StepTold rep w t := by
  obtain ⟨lcIn, maxHbd, hbdIn, read, read', positive, word, priced, move, msg⟩ :=
    deposit_moves invoked succeeds
  have lc := move.lc
  have hbd := move.hbd
  have := stocked.lc
  have := stocked.hbd
  have := stocked.lc_lt
  have := stocked.hbd_lt
  have named : (PoolLedgerEntry.of t (t.exec w).2).action = "add_liquidity" := by
    rw [PoolLedgerEntry.of, invoked]
    rfl
  have entry := parse_add succeeds named msg positive.le
  have told : Replayable w.rows t.invocation
      ↔ 0 ≤ hbdIn ∧ w.rows.getAmount .poolLC + lcIn < 2 ^ 63
        ∧ w.rows.getAmount .poolHBD + hbdIn < 2 ^ 63 := by
    rw [invoked]
    constructor
    · exact fun told => told lcIn maxHbd hbdIn read read' priced
    · rintro told lcIn' maxHbd' hbdIn' first second priced'
      obtain rfl := Option.some.inj (read.symm.trans first)
      obtain rfl := Option.some.inj (read'.symm.trans second)
      obtain rfl := Except.ok.inj (priced.symm.trans priced')
      exact told
  rw [StepTold, told]
  refine ⟨?_, fun fits => ?_⟩
  · rw [Live, lc, hbd, ← live.1, ← live.2]
    by_cases whole : 0 ≤ hbdIn
    · rw [if_pos whole] at entry
      simp only [(add_read entry).1, (add_read entry).2, whole, true_and]
      rw [live.1, live.2, word_iff (by omega), word_iff (by omega)]
    · rw [if_neg whole] at entry
      simp only [(add_skipped entry).1, (add_skipped entry).2, whole, false_and, iff_false]
      rintro ⟨same, -⟩
      unfold i64 at same
      omega
  · rw [i64_of_nonneg (by omega) (by omega)] at lc hbd
    exact ⟨by omega, by omega, by omega, by omega⟩

theorem step_withdrawal (invoked : t.invocation = .entry .removeLiquidity payload)
    : StepTold rep w t := by
  obtain ⟨id, lcOut, paid, withdraws, msg⟩ := withdrawal_moves invoked succeeds
  obtain ⟨lc_nonneg, lc_le, hbd_nonneg, hbd_le⟩ := withdraws_part stocked withdraws
  have lc := withdraws.move.lc
  have hbd := withdraws.move.hbd
  have := stocked.lc_lt
  have := stocked.hbd_lt
  rw [i64_of_nonneg (by omega) (by omega)] at lc hbd
  have named : (PoolLedgerEntry.of t (t.exec w).2).action = "remove_liquidity" := by
    rw [PoolLedgerEntry.of, invoked]
    rfl
  have read := parse_remove succeeds named msg lc_nonneg hbd_nonneg
  have told : Replayable w.rows t.invocation := by
    rw [invoked]
    trivial
  refine ⟨iff_of_true ?_ told, fun _ => ⟨by omega, by omega, by omega, by omega⟩⟩
  rw [Live, lc, hbd, ← live.1, ← live.2]
  exact add_read read

theorem step_eviction (invoked : t.invocation = .entry .sweepTranche payload)
    : StepTold rep w t := by
  obtain ⟨id, lcOut, paid, read, withdraws⟩ := eviction_moves invoked succeeds
  obtain ⟨lc_nonneg, lc_le, hbd_nonneg, hbd_le⟩ := withdraws_part stocked withdraws
  have lc := withdraws.move.lc
  have hbd := withdraws.move.hbd
  have := stocked.lc_lt
  have := stocked.hbd_lt
  rw [i64_of_nonneg (by omega) (by omega)] at lc hbd
  have named : (PoolLedgerEntry.of t (t.exec w).2).action = "sweep_tranche" := by
    rw [PoolLedgerEntry.of, invoked]
    rfl
  have unread := parse_sweep named
  obtain ⟨tranche, hbdOut, found, amounts, pays⟩ := withdraws.part
  have told : Replayable w.rows t.invocation ↔ lcOut = 0 ∧ hbdPayMilli hbdOut ≤ 0 := by
    rw [invoked]
    constructor
    · exact fun told => told id tranche lcOut hbdOut read found amounts
    · rintro told id' tranche' lcOut' hbdOut' read' found' amounts'
      obtain rfl := Option.some.inj (read.symm.trans read')
      obtain rfl := Option.some.inj (found.symm.trans found')
      obtain ⟨rfl, rfl⟩ := Prod.mk.inj (Option.some.inj (amounts.symm.trans amounts'))
      exact told
  have dust : hbdPayMilli hbdOut ≤ 0 ↔ paid = 0 := by
    unfold paidOf at pays
    by_cases some_out : 0 < hbdOut
    · by_cases below : hbdPayMilli hbdOut ≤ 0
      · rw [if_pos ⟨some_out, below⟩] at pays
        exact iff_of_true below pays
      · rw [if_neg fun both => below both.2] at pays
        exact iff_of_false below (by omega)
    · rw [if_neg fun both => some_out both.1] at pays
      obtain rfl : hbdOut = 0 := by omega
      exact iff_of_true (by simp [hbdPayMilli]) pays
  refine ⟨?_, fun _ => ⟨by omega, by omega, by omega, by omega⟩⟩
  rw [told, dust, Live, lc, hbd, ← live.1, ← live.2, (add_skipped unread).1,
    (add_skipped unread).2]
  omega

end Steps

-----------------------------------------------------------------------------------------
-- Runs
-----------------------------------------------------------------------------------------

/-- (Tellable w t) says that the call, if it succeeds, is replayable. -/
def Tellable (w : World A) (t : ChainCall) : Prop :=
  (t.exec w).2.ok = true → Replayable w.rows t.invocation

/-- A recorded name of the pool is that of one of its entrypoints. -/
theorem pool_recorded {invocation : Invocation}
    (named : invocation.action ∈ poolOperations.map (·.name))
    : ∃ e payload, invocation = .entry e payload ∧ e ∈ poolOperations := by
  cases invocation with
  | entry e payload =>
      refine ⟨e, payload, rfl, ?_⟩
      change e.name ∈ _ at named
      cases e <;> first | decide | exact absurd named (by decide)
  | owners name payload action owned =>
      obtain ⟨e, -, same⟩ := List.mem_map.mp named
      change e.name = name at same
      exact (ownersName_apart (owned.trans (congrArg some same.symm))).elim

/-- A call outside the pool leaves the reserves and is replayable. -/
theorem outside_pool {t : ChainCall} (other : t.invocation.action ∉ poolOperations.map (·.name))
    (w : World A)
    : (t.exec w).1.rows.getAmount .poolLC = w.rows.getAmount .poolLC
      ∧ (t.exec w).1.rows.getAmount .poolHBD = w.rows.getAmount .poolHBD
      ∧ Replayable w.rows t.invocation := by
  have apart (e : Entrypoint) (payload : String) (invoked : t.invocation = .entry e payload)
      : e ∉ poolOperations := by
    intro pool
    rw [invoked] at other
    exact other (List.mem_map_of_mem pool)
  have told : Replayable w.rows t.invocation := by
    cases invoked : t.invocation with
    | entry e payload =>
        have outside := apart e payload invoked
        -- what is not replayable contradicts being outside
        cases e <;> trivial
    | owners name payload action owned => trivial
  rcases Bool.eq_false_or_eq_true (t.exec w).2.ok with succeeds | fails
  · obtain ⟨action, asked, -⟩ := ChainCall.exec_ok succeeds
    have quiet : action.trades = false := by
      cases invoked : t.invocation with
      | entry e payload =>
          rw [ChainCall.requests_entry invoked] at asked
          cases reads : e.action t.ctx (parseArgs payload) with
          | error usage =>
              rw [reads] at asked
              cases asked
          | ok action' =>
              rw [reads] at asked
              have same : action' = action := congrArg Request.action (List.cons.inj asked).1
              exact trades_of_entry (same ▸ reads) (apart e payload invoked)
      | owners name payload action' owned =>
          rw [ChainCall.requests, invoked] at asked
          have same : action' = action := congrArg Request.action (List.cons.inj asked).1
          rw [← same]
          cases action' <;> first | rfl | cases owned
    rw [t.exec_world, asked]
    obtain ⟨lc, hbd⟩ := Request.exec_reserves (q := ⟨t.ctx, action, true⟩) quiet w
    exact ⟨lc, hbd, told⟩
  · rw [ChainCall.exec_failed fails]
    exact ⟨rfl, rfl, told⟩

/-- One call, in the ledger or not. -/
theorem step_told {rep : MarketReplay} {w : World A} (t : ChainCall) (live : Live rep w.rows)
    (stocked : Stocked w.rows)
    : (Live ((poolLedger [(t, (t.exec w).2)]).foldl MarketReplay.add rep) (t.exec w).1.rows
        ↔ Tellable w t)
      ∧ (Tellable w t → Stocked (t.exec w).1.rows) := by
  by_cases listed : (t.exec w).2.ok = true
      ∧ t.invocation.action ∈ poolOperations.map (·.name)
  · obtain ⟨succeeds, named⟩ := listed
    have ledger : poolLedger [(t, (t.exec w).2)] = [.of t (t.exec w).2] := by
      rw [poolLedger, List.filter_cons_of_pos (by simp only [succeeds, decide_eq_true named]; rfl)]
      rfl
    have tellable : Tellable w t ↔ Replayable w.rows t.invocation := by
      rw [Tellable, succeeds]
      exact ⟨fun told => told rfl, fun told _ => told⟩
    have told : StepTold rep w t := by
      obtain ⟨e, payload, invoked, pool⟩ := pool_recorded named
      simp only [poolOperations, List.mem_cons, List.not_mem_nil, or_false] at pool
      rcases pool with rfl | rfl | rfl | rfl | rfl
      · exact step_deposit live stocked succeeds invoked
      · exact step_withdrawal live stocked succeeds invoked
      · exact step_eviction live stocked succeeds invoked
      · exact step_sell live stocked succeeds invoked
      · exact step_buy live stocked succeeds invoked
    rw [ledger, tellable]
    exact told
  · have ledger : poolLedger [(t, (t.exec w).2)] = [] := by
      rw [poolLedger, List.filter_cons_of_neg (by simpa using listed)]
      rfl
    rw [ledger]
    have kept : (t.exec w).1.rows.getAmount .poolLC = w.rows.getAmount .poolLC
        ∧ (t.exec w).1.rows.getAmount .poolHBD = w.rows.getAmount .poolHBD ∧ Tellable w t := by
      rcases Bool.eq_false_or_eq_true (t.exec w).2.ok with succeeds | fails
      · obtain ⟨lc, hbd, told⟩ := outside_pool (fun named => listed ⟨succeeds, named⟩) w
        exact ⟨lc, hbd, fun _ => told⟩
      · rw [ChainCall.exec_failed fails]
        exact ⟨rfl, rfl, fun succeeds => absurd succeeds (by rw [fails]; exact Bool.false_ne_true)⟩
    obtain ⟨lc, hbd, told⟩ := kept
    refine ⟨iff_of_true ⟨live.1.trans lc.symm, live.2.trans hbd.symm⟩ told, fun _ => ?_⟩
    exact ⟨lc ▸ stocked.lc, hbd ▸ stocked.hbd, lc ▸ stocked.lc_lt, hbd ▸ stocked.hbd_lt⟩

/-- The ledger of a longer log. -/
theorem poolLedger_cons (e : ChainCall × Result) (log : List (ChainCall × Result))
    : poolLedger (e :: log) = poolLedger [e] ++ poolLedger log := by
  rw [poolLedger, ← List.singleton_append, List.filter_append, List.map_append]
  rfl

/-- The replay is live after every call exactly where every call is tellable, by induction on the
calls.
-/
theorem replay_live {rep : MarketReplay} {w : World A} (calls : List ChainCall)
    (live : Live rep w.rows) (stocked : Stocked w.rows)
    : (∀ k, Live ((poolLedger (answered w (calls.take k))).foldl MarketReplay.add rep)
          (afterCalls w (calls.take k)).rows)
      ↔ AlongCalls Tellable w calls := by
  induction calls generalizing rep w with
  | nil => exact iff_of_true (fun k => by rw [List.take_nil]; exact live) trivial
  | cons t rest ih =>
      obtain ⟨told, stays⟩ := step_told t live stocked
      have later (k : Nat) : (poolLedger (answered w ((t :: rest).take (k + 1)))).foldl
            MarketReplay.add rep
          = (poolLedger (answered (t.exec w).1 (rest.take k))).foldl MarketReplay.add
            ((poolLedger [(t, (t.exec w).2)]).foldl MarketReplay.add rep) := by
        rw [List.take_succ_cons, answered, poolLedger_cons, List.foldl_append]
      constructor
      · intro everywhere
        have first := everywhere 1
        rw [later 0] at first
        have tellable := told.mp first
        refine ⟨tellable, (ih first (stays tellable)).mp fun k => ?_⟩
        have next := everywhere (k + 1)
        rw [later k] at next
        exact next
      · rintro ⟨tellable, along⟩ k
        cases k with
        | zero => exact live
        | succ k =>
            rw [later k]
            exact (ih (told.mpr tellable) (stays tellable)).mpr along k

/-- (Reconciled w calls) says that the ledger of the calls replays to the live reserves. -/
def Reconciled (w : World A) (calls : List ChainCall) : Prop :=
  reconciles (buildMarketTrades (poolLedger (answered w calls)))
    ((afterCalls w calls).rows.getAmount .poolLC) ((afterCalls w calls).rows.getAmount .poolHBD)
    = true

instance (w : World A) (calls : List ChainCall) : Decidable (Reconciled w calls) :=
  inferInstanceAs (Decidable (_ = true))

/-- After any calls from the start, and after each of them, the market history stands at the live
reserves exactly where each successful operation of the pool is replayable.
-/
theorem history_reconciles (store : Store) (assets : A) (genesis : UInt64)
    (fresh : store.rows = .empty) (calls : List ChainCall)
    : (∀ k, Reconciled (initialised store assets genesis) (calls.take k))
      ↔ AlongCalls Tellable (initialised store assets genesis) calls := by
  have touched := initialised_touches store assets genesis fresh
  have lc : (initialised store assets genesis).rows.getAmount .poolLC = 0 :=
    (touched.amount .poolLC rfl).trans rfl
  have hbd : (initialised store assets genesis).rows.getAmount .poolHBD = 0 :=
    (touched.amount .poolHBD rfl).trans rfl
  have live : Live ⟨[], 0, 0, 0⟩ (initialised store assets genesis).rows := ⟨lc.symm, hbd.symm⟩
  have stocked : Stocked (initialised store assets genesis).rows :=
    ⟨lc.ge, hbd.ge, by rw [lc]; decide, by rw [hbd]; decide⟩
  rw [← replay_live calls live stocked]
  refine forall_congr' fun k => ?_
  simp only [Reconciled, reconciles, Bool.and_eq_true, decide_eq_true_eq]
  rfl

-----------------------------------------------------------------------------------------
-- A small pool
-----------------------------------------------------------------------------------------

def carolStart : World MemAssets := initialised Store.newMem MemAssets.new 1000

/-- Carol's calls, and one by Dave that evicts her. -/
def carolCall (sender : String) (height : UInt64) (entrypoint : Entrypoint) (payload : String)
    : ChainCall where
  txId := "ca01"
  time := "2026-08-20T13:02:24"
  ctx := .of sender height 1
  invocation := .entry entrypoint payload

def carolFunded : ChainCall where
  txId := "ca00"
  time := "2026-08-20T13:02:24"
  ctx := .of "hive:owner" 1000 1
  invocation := .owners "migrate" "hive:carol|1000000000000|0"
    (.creditMigration "hive:carol" 1000000000000 0) rfl

def carolDeposits : ChainCall :=
  carolCall "hive:carol" 2000 .addLiquidity "1000000000|500000000"

def carolSells : ChainCall :=
  carolCall "hive:carol" 3000 .swapLassecashHbd "1000000000|0"

def carolLeaves : ChainCall := carolCall "hive:carol" 4000 .removeLiquidity "1"

def carolEvicted : ChainCall :=
  carolCall "hive:dave" 6000000 .sweepTranche "hive:carol|1"

/-- A deposit, a sale and a withdrawal are replayed to the live reserves. -/
theorem carol_history_reconciles
    : Reconciled carolStart [carolFunded, carolDeposits, carolSells, carolLeaves] := by
  refine (history_reconciles .newMem MemAssets.new 1000 rfl
    [carolFunded, carolDeposits, carolSells, carolLeaves]).mpr
      ⟨fun _ => trivial, fun _ => ?_, fun _ => ?_, fun _ => trivial, trivial⟩ 4
  · intro lcIn maxHbd hbdIn read read' priced
    have first : (parseArgs "1000000000|500000000").amount 0 = some 1000000000 := by decide +kernel
    have second : (parseArgs "1000000000|500000000").amount 1 = some 500000000 := by decide +kernel
    obtain rfl := Option.some.inj (first.symm.trans read)
    obtain rfl := Option.some.inj (second.symm.trans read')
    have asks : (hbdForDeposit (carolFunded.exec carolStart).1.rows 1000000000 500000000).toOption
        = some 500000000 := by decide +kernel
    change hbdForDeposit (carolFunded.exec carolStart).1.rows 1000000000 500000000 = _ at priced
    rw [priced] at asks
    obtain rfl : hbdIn = 500000000 := Option.some.inj asks
    exact ⟨by decide, by decide +kernel, by decide +kernel⟩
  · change allDigits ((field "1000000000|0" 0).getD "") = true
    decide +kernel

/-- An eviction releases the reserves, which the history does not read. -/
theorem eviction_unread
    : (carolEvicted.exec (afterCalls carolStart [carolFunded, carolDeposits])).2.ok = true
      ∧ ¬Reconciled carolStart [carolFunded, carolDeposits, carolEvicted] := by
  decide +kernel

end LasseCash.Api
