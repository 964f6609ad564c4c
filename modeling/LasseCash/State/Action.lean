import LasseCash.State.Migration
import LasseCash.State.Pool
import LasseCash.State.ProofOfBrain

/-! The operations of the state layer as requests, and the runs they make. -/

namespace LasseCash.State

open Engine MachineInt

/-- The operations and their arguments, every integer of the width the source gives it. -/
inductive Action
  | transfer (recipient : String) (amt : Int64)
  | burnLiquid (amt : Int64)
  | fundPool (target : String) (amt : Int64)
  | settle
  | advance (maxDays : Int64)
  | createMint (principal days : Int64)
  | claimMint (id : UInt64)
  | sweepMint (owner : String) (id : UInt64)
  | armGoodAccounting (id : UInt64)
  | setMintDuration (days : Int64)
  | promote (account : String)
  | setPreference (key : String) (value : Int64)
  | createPost (permlink : String) (window : Window) (mode : PayoutMode)
  | createComment (permlink : String) (mode : PayoutMode) (parentAuthor parentPermlink : String)
  | vote (author permlink : String) (weightPct : Int64)
  | promotePost (author permlink : String) (amt : Int64)
  | payout (author permlink : String)
  | claimCuration (author permlink curator : String)
  | sweepCuration (author permlink : String)
  | settlePending (account : String)
  | addLiquidity (lcIn maxHbd : Int64)
  | removeLiquidity (id : UInt64)
  | sweepTranche (owner : String) (id : UInt64)
  | claimPoolRewards (id : UInt64)
  | swapLCForHBD (lcIn minOut : Int64)
  | swapHBDForLC (hbdIn minOut : Int64)
  | creditMigration (account : String) (liquid staked : Int64)
  | creditMigrationBatch (entries : List (String × Int64 × Int64))
  | burnMigrationBatch (entries : List (String × Int64 × Int64))
  | setSnapshot (rootHex : String) (qualifierTotal burnTotal : Int64)
  | claimMigration (liquid staked : Int64) (proofHex : List String)
  | recordBurn (account : String) (liquid staked : Int64) (proofHex : List String)
  | sweepUnclaimed
  | migrateLedger (accounts : List String)
  | reconcileFloat

/-- The entries of a batch argument. -/
def entriesOf (entries : List (String × Int64 × Int64)) : List MigrationEntry :=
  entries.map fun e => ⟨e.1, e.2.1.toInt, e.2.2.toInt⟩

/-- The program of an operation. The two that rewrite the token itself have none. -/
def Action.program (ctx : Ctx) : Action → Option (Op Result)
  | transfer recipient amt => State.transfer ctx recipient amt.toInt
  | burnLiquid amt => State.burnLiquid ctx amt.toInt
  | fundPool target amt => State.fundPool ctx target amt.toInt
  | settle => State.settle ctx
  | advance maxDays => State.advance ctx maxDays.toInt
  | createMint principal days => State.createMint ctx principal.toInt days.toInt
  | claimMint id => State.claimMint ctx id.toNat
  | sweepMint owner id => State.sweepMint ctx owner id.toNat
  | armGoodAccounting id => State.armGoodAccounting ctx id.toNat
  | setMintDuration days => State.setMintDuration ctx days.toInt
  | promote account => State.promote account
  | setPreference key value => State.setPreference ctx key value.toInt
  | createPost permlink window mode => State.createPost ctx permlink window mode
  | createComment permlink mode parentAuthor parentPermlink =>
      State.createComment ctx permlink mode parentAuthor parentPermlink
  | vote author permlink weightPct => State.vote ctx author permlink weightPct.toInt
  | promotePost author permlink amt => State.promotePost ctx author permlink amt.toInt
  | payout author permlink => State.payout ctx author permlink
  | claimCuration author permlink curator => State.claimCuration ctx author permlink curator
  | sweepCuration author permlink => State.sweepCuration ctx author permlink
  | settlePending account => State.settlePending ctx account
  | addLiquidity lcIn maxHbd => State.addLiquidity ctx lcIn.toInt maxHbd.toInt
  | removeLiquidity id => State.removeLiquidity ctx id.toNat
  | sweepTranche owner id => State.sweepTranche ctx owner id.toNat
  | claimPoolRewards id => State.claimPoolRewards ctx id.toNat
  | swapLCForHBD lcIn minOut => State.swapLCForHBD ctx lcIn.toInt minOut.toInt
  | swapHBDForLC hbdIn minOut => State.swapHBDForLC ctx hbdIn.toInt minOut.toInt
  | creditMigration account liquid staked =>
      State.creditMigration account liquid.toInt staked.toInt
  | creditMigrationBatch entries => State.creditMigrationBatch (entriesOf entries)
  | burnMigrationBatch entries => State.burnMigrationBatch (entriesOf entries)
  | setSnapshot rootHex qualifierTotal burnTotal =>
      State.setSnapshot rootHex qualifierTotal.toInt burnTotal.toInt
  | claimMigration liquid staked proofHex =>
      State.claimMigration ctx liquid.toInt staked.toInt proofHex
  | recordBurn account liquid staked proofHex =>
      State.recordBurn account liquid.toInt staked.toInt proofHex
  | sweepUnclaimed => State.sweepUnclaimed ctx
  | migrateLedger _ => none
  | reconcileFloat => none

/-- One call: who makes it and when, and whether the chain unwinds it when it fails. The
state layer alone keeps what a failed operation wrote.
-/
structure Request where
  ctx : Ctx
  action : Action
  unwinds : Bool := false

variable {A : Type} [Assets A]

/-- An operation's effect and result. -/
def Action.exec (ctx : Ctx) (action : Action) (w : World A) : World A × Result :=
  match action, action.program ctx with
  | _, some p => p.run serve w
  | .migrateLedger accounts, none =>
      ({ w with store := (w.store.migrateLedger accounts).1 }, (w.store.migrateLedger accounts).2)
  | _, none => ({ w with store := w.store.reconcileFloat.1 }, w.store.reconcileFloat.2)

/-- A request's effect and result. -/
def Request.exec (q : Request) (w : World A) : World A × Result :=
  let (w', res) := q.action.exec q.ctx w
  (if q.unwinds && !res.ok then w else w', res)

-----------------------------------------------------------------------------------------
-- Runs
-----------------------------------------------------------------------------------------

/-- The world that a sequence of requests leaves. -/
def after (w : World A) (requests : List Request) : World A :=
  requests.foldl (fun w q => (q.exec w).1) w

/-- The results of a sequence of requests, in order. -/
def results : World A → List Request → List Result
  | _, [] => []
  | w, q :: rest => (q.exec w).2 :: results (q.exec w).1 rest

/-- The height of the last of a sequence of requests. -/
def clock (now : Nat) (requests : List Request) : Nat :=
  requests.foldl (fun _ q => q.ctx.height) now

/-- From `w` at `now`, the requests come at non-decreasing heights and each of them meets the
guard in the world it finds.
-/
def Run (guard : World A → Request → Prop) : World A → Nat → List Request → Prop
  | _, _, [] => True
  | w, now, q :: rest =>
      now ≤ q.ctx.height ∧ guard w q ∧ Run guard (q.exec w).1 q.ctx.height rest

/-- `P` holds of every world of the requests' run and the request it finds. -/
def Along (P : World A → Request → Prop) : World A → List Request → Prop
  | _, [] => True
  | w, q :: rest => P w q ∧ Along P (q.exec w).1 rest

/-- A world on which `Init` has just been run at genesis height `genesis`. -/
def initialised (store : Store) (assets : A) (genesis : UInt64) : World A :=
  ((init genesis.toNat).run serve ⟨store, assets⟩).1

/-- An invariant that every request of a run keeps holds after the run, by induction on the
requests.
-/
theorem Run.invariant {guard : World A → Request → Prop} {I : Nat → World A → Prop}
    (step : ∀ w now q, I now w → now ≤ q.ctx.height → guard w q
      → I q.ctx.height (q.exec w).1)
    {w : World A} {now : Nat} {requests : List Request} (start : I now w)
    (run : Run guard w now requests)
    : I (clock now requests) (after w requests) := by
  induction requests generalizing w now with
  | nil => exact start
  | cons q rest ih =>
      obtain ⟨later, met, tail⟩ := run
      exact ih (step w now q start later met) tail

/-- What every request keeps holds after any requests, by induction on them. -/
theorem after_keep {I : World A → Prop} (step : ∀ w (q : Request), I w → I (q.exec w).1)
    {w : World A} (start : I w) (requests : List Request)
    : I (after w requests) := by
  induction requests generalizing w with
  | nil => exact start
  | cons q rest ih => exact ih (step w q start)

theorem after_append (w : World A) (before rest : List Request)
    : after w (before ++ rest) = after (after w before) rest :=
  List.foldl_append

/-- A run falls into its beginning and the run from there, by induction on the beginning. -/
theorem Run.append {guard : World A → Request → Prop} {w : World A} {now : Nat}
    {before rest : List Request} (run : Run guard w now (before ++ rest))
    : Run guard w now before ∧ Run guard (after w before) (clock now before) rest := by
  induction before generalizing w now with
  | nil => exact ⟨trivial, run⟩
  | cons q before ih =>
      obtain ⟨later, met, tail⟩ := run
      obtain ⟨first, second⟩ := ih tail
      exact ⟨⟨later, met, first⟩, second⟩

/-- What an invariant and the guard give at each request holds along the run, by induction on
the requests.
-/
theorem Run.along {guard : World A → Request → Prop} {I : Nat → World A → Prop}
    {P : World A → Request → Prop}
    (step : ∀ w now q, I now w → now ≤ q.ctx.height → guard w q
      → I q.ctx.height (q.exec w).1 ∧ P w q)
    {w : World A} {now : Nat} {requests : List Request} (start : I now w)
    (run : Run guard w now requests)
    : Along P w requests := by
  induction requests generalizing w now with
  | nil => trivial
  | cons q rest ih =>
      obtain ⟨later, met, tail⟩ := run
      obtain ⟨kept, here⟩ := step w now q start later met
      exact ⟨here, ih kept tail⟩

end LasseCash.State
