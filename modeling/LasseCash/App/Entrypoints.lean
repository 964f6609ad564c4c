import LasseCash.App.Arguments
import LasseCash.State.Action

/-! The entrypoints that anyone may call, `contract/app/main.go`: each reads its arguments from
one payload, and aborts when they are malformed or its operation fails.
-/

namespace LasseCash.App

open Engine MachineInt State

/-- The exported names that do not require the owner. -/
inductive Entrypoint
  | claimMigration | recordBurn | sweepUnclaimed
  | transfer | burn | fund | settle | advance
  | mint | claimMint | sweepMint | goodAccounting | setDuration | settlePending
  | promote | setParam
  | post | comment | promotePost | vote | payout | claimCuration | sweepCuration
  | addLiquidity | removeLiquidity | claimPool | sweepTranche
  | swapLassecashHbd | swapHbdLassecash
  deriving DecidableEq

/-- The exported name. -/
def Entrypoint.name : Entrypoint → String
  | claimMigration => "claim_migration"
  | recordBurn => "record_burn"
  | sweepUnclaimed => "sweep_unclaimed"
  | transfer => "transfer"
  | burn => "burn"
  | fund => "fund"
  | settle => "settle"
  | advance => "advance"
  | mint => "mint"
  | claimMint => "claim_mint"
  | sweepMint => "sweep_mint"
  | goodAccounting => "good_accounting"
  | setDuration => "set_duration"
  | settlePending => "settle_pending"
  | promote => "promote"
  | setParam => "set_param"
  | post => "post"
  | comment => "comment"
  | promotePost => "promote_post"
  | vote => "vote"
  | payout => "payout"
  | claimCuration => "claim_curation"
  | sweepCuration => "sweep_curation"
  | addLiquidity => "add_liquidity"
  | removeLiquidity => "remove_liquidity"
  | claimPool => "claim_pool"
  | sweepTranche => "sweep_tranche"
  | swapLassecashHbd => "swap_lassecash_hbd"
  | swapHbdLassecash => "swap_hbd_lassecash"

-----------------------------------------------------------------------------------------
-- Arguments that the operations take
-----------------------------------------------------------------------------------------

/-- The window that an argument names. -/
def window (w : Nat) : Window := if w = 1 then .deep else .viral

/-- The payout mode that an argument names. A record keeps its byte, and any but these two
reads as the default.
-/
def payoutMode (v : Nat) : PayoutMode :=
  match v % 2 ^ 8 with
  | 1 => .powerUp
  | 2 => .burn
  | _ => .default

/-- The conversion to `int`, which has 32 bits on the contract's target. -/
def machineInt (v : Int) : Int := Int.bmod v (2 ^ 32)

-----------------------------------------------------------------------------------------
-- The contract's entrypoints
-----------------------------------------------------------------------------------------

/-- Two amounts in a row, or the usage. -/
def amounts (args : Args) (i : Nat) (usage : String) (action : Int64 → Int64 → Action)
    : Except String Action :=
  match args.amount i, args.amount (i + 1) with
  | some first, some second => .ok (action (.ofInt first) (.ofInt second))
  | _, _ => .error usage

/-- One amount, or the usage. -/
def amountArg (args : Args) (i : Nat) (usage : String) (action : Int64 → Action)
    : Except String Action :=
  match args.amount i with
  | some amount => .ok (action (.ofInt amount))
  | none => .error usage

/-- One signed number, or the usage. -/
def intArg (args : Args) (i : Nat) (usage : String) (action : Int64 → Action)
    : Except String Action :=
  match args.i64 i with
  | some v => .ok (action (.ofInt v))
  | none => .error usage

/-- One id, or the usage. -/
def idArg (args : Args) (i : Nat) (usage : String) (action : UInt64 → Action)
    : Except String Action :=
  match args.u64 i with
  | some id => .ok (action (.ofNat id))
  | none => .error usage

/-- A named author and permlink, or the usage. -/
def authored (args : Args) (usage : String) (action : String → String → Except String Action)
    : Except String Action :=
  if args.str 0 = "" ∨ args.str 1 = "" then .error usage else action (args.str 0) (args.str 1)

/-- What an entrypoint asks of the state layer, or what it aborts with. -/
def Entrypoint.action (ctx : Ctx) (args : Args) : Entrypoint → Except String Action
  | claimMigration =>
      amounts args 0 "usage: <liquid>|<staked>|<proofHex,…>" fun liquid staked =>
        .claimMigration liquid staked (parseProof (args.str 2))
  | recordBurn =>
      let usage := "usage: <account>|<liquid>|<staked>|<proofHex,…>"
      if args.str 0 = "" then .error usage
      else
        amounts args 1 usage fun liquid staked =>
          .recordBurn (args.str 0) liquid staked (parseProof (args.str 3))
  | sweepUnclaimed => .ok .sweepUnclaimed
  | transfer =>
      if args.str 0 = "" then .error "usage: <to>|<amount>"
      else amountArg args 1 "usage: <to>|<amount>" (.transfer (args.str 0))
  | burn => amountArg args 0 "usage: <amount>" .burnLiquid
  | fund =>
      let usage := "usage: <pob|viral|deep|liquidity|lshare|all>|<amount>"
      if args.str 0 = "" then .error usage else amountArg args 1 usage (.fundPool (args.str 0))
  | settle => .ok .settle
  | advance =>
      -- zero asks for the full cap
      match args.i64 0 with
      | some days => .ok (.advance (if days > 0 then .ofInt (machineInt days) else 0))
      | none => .ok (.advance 0)
  | mint =>
      match args.amount 0, args.i64 1 with
      | some amount, some days => .ok (.createMint (.ofInt amount) (.ofInt days))
      | _, _ => .error "usage: <amount>|<days 1..1095>"
  | claimMint => idArg args 0 "usage: <mintId>" .claimMint
  | sweepMint =>
      if args.str 0 = "" then .error "usage: <owner>|<mintId>"
      else idArg args 1 "usage: <owner>|<mintId>" (.sweepMint (args.str 0))
  | goodAccounting => idArg args 0 "usage: <mintId>" .armGoodAccounting
  | setDuration => intArg args 0 "usage: <days 1..1095>" .setMintDuration
  | settlePending =>
      .ok (.settlePending (if args.str 0 = "" then ctx.sender else args.str 0))
  | promote => .ok (.promote (if args.str 0 = "" then ctx.sender else args.str 0))
  | setParam =>
      if args.str 0 = "" then .error "usage: <paramKey>|<value>"
      else intArg args 1 "usage: <paramKey>|<value>" (.setPreference (args.str 0))
  | post =>
      let usage := "usage: <permlink>|<window 0=viral 1=deep>|[payoutMode]"
      match args.u64 1 with
      | some w =>
          if args.str 0 = "" ∨ w > 1 then .error usage
          else
            let mode := (args.u64 2).getD 0
            if mode > 2 then
              .error "payoutMode must be 0 (split), 1 (power up) or 2 (burn)"
            else .ok (.createPost (args.str 0) (window w) (payoutMode mode))
      | none => .error usage
  | comment =>
      if args.str 0 = "" ∨ args.str 1 = "" ∨ args.str 2 = "" then
        .error "usage: <permlink>|<parentAuthor>|<parentPermlink>|[payoutMode]"
      else
        .ok (.createComment (args.str 0) (payoutMode ((args.u64 3).getD 0)) (args.str 1)
          (args.str 2))
  | promotePost =>
      authored args "usage: <author>|<permlink>|<amount>" fun author permlink =>
        amountArg args 2 "usage: <author>|<permlink>|<amount>" (.promotePost author permlink)
  | vote =>
      let usage := "usage: <author>|<permlink>|<weightPct 0..100, 0 removes your vote>"
      authored args usage fun author permlink => intArg args 2 usage (.vote author permlink)
  | payout =>
      authored args "usage: <author>|<permlink>" fun author permlink =>
        .ok (.payout author permlink)
  | claimCuration =>
      authored args "usage: <author>|<permlink>|[curator]" fun author permlink =>
        .ok (.claimCuration author permlink (args.str 2))
  | sweepCuration =>
      authored args "usage: <author>|<permlink>" fun author permlink =>
        .ok (.sweepCuration author permlink)
  | addLiquidity => amounts args 0 "usage: <lcAmount>|<maxHbd>" .addLiquidity
  | removeLiquidity => idArg args 0 "usage: <trancheId>" .removeLiquidity
  | claimPool => idArg args 0 "usage: <trancheId>" .claimPoolRewards
  | sweepTranche =>
      if args.str 0 = "" then .error "usage: <owner>|<trancheId>"
      else idArg args 1 "usage: <owner>|<trancheId>" (.sweepTranche (args.str 0))
  | swapLassecashHbd => amounts args 0 "usage: <lassecashIn>|<minHbdOut>" .swapLCForHBD
  | swapHbdLassecash => amounts args 0 "usage: <hbdIn>|<minLassecashOut>" .swapHBDForLC

/-- Only one entrypoint asks for a deposit. -/
theorem deposit_of_entry {e : Entrypoint} {ctx : Ctx} {args : Args} {lcIn maxHbd : Int64}
    (asked : e.action ctx args = .ok (.addLiquidity lcIn maxHbd))
    : e = .addLiquidity := by
  cases e <;>
    first
      | rfl
      | (simp only [Entrypoint.action, amounts, amountArg, intArg, idArg, authored] at asked
         repeat' split at asked
         all_goals cases asked)

variable {A : Type} [Assets A]

/-- A failed result aborts, which reverts the transaction. -/
def finish (outcome : World A × Result) : Option (World A × String) :=
  if outcome.2.ok then some (outcome.1, outcome.2.msg) else none

/-- One call of the contract: the world it leaves and the message it returns, `none` when it
aborts.
-/
def call (ctx : Ctx) (entrypoint : Entrypoint) (payload : String) (w : World A)
    : Option (World A × String) :=
  match entrypoint.action ctx (parseArgs payload) with
  | .ok action => finish (action.exec ctx w)
  | .error _ => none

end LasseCash.App
