import LasseCash.State.ContentPools
import LasseCash.State.MintClaims
import LasseCash.State.Readings

/-! What is shown is what is paid: the views of a position's yield, of a tranche's reward and of a
post's payout, against the operations that pay them.
-/

namespace LasseCash.State

open Engine MachineInt Program

section Views

variable {A : Type} [Assets A] {w w' : World A} {ctx : Ctx} {msg : String}

/-- Where accrual is current, an operation settles nothing more. -/
theorem settle_current (current : CaughtUp ctx.height w) : ((settle ctx).run serve w).1 = w := by
  have walked : (accrue ctx.height).run serve w = (w, true) := accrueWalk_idle current _ _
  have read : rows.run serve w = (w, w.rows) := rfl
  simp only [settle, run_bind, run_ite, run_pure, read, walked]
  split
  · rfl
  · rfl

theorem caughtUp_current (current : CaughtUp ctx.height w) : caughtUp ctx w = w :=
  congrArg Prod.fst (accrueWalk_idle current _ _)

-----------------------------------------------------------------------------------------
-- Positions
-----------------------------------------------------------------------------------------

/-- (Funded r m accEnd) says that the pool holds what `m` has earned by the reading `accEnd`; a
sum that is no word is not paid, and only takes a pool that owes nothing.
-/
def Funded (r : Rows) (m : Mint) (accEnd : Int) : Prop :=
  0 ≤ r.getAmount .poolLShare
    ∧ (earned m.shares m.accStart accEnd ≤ maxAmount
      → earned m.shares m.accStart accEnd ≤ r.getAmount .poolLShare)

instance (r : Rows) (m : Mint) (accEnd : Int) : Decidable (Funded r m accEnd) :=
  inferInstanceAs (Decidable (_ ∧ _))

/-- The entitlement is paid in full exactly where the pool holds what is earned. -/
theorem accruedYield_full_iff {r : Rows} {m : Mint} {accEnd : Int} (nonneg : 0 ≤ m.accStart)
    (word : accEnd < 2 ^ 63)
    : entitlement m.shares m.accStart accEnd = accruedYield r m accEnd ↔ Funded r m accEnd := by
  have clamp : entitlement m.shares m.accStart accEnd = accruedYield r m accEnd
      ↔ entitlement m.shares m.accStart accEnd ≤ r.getAmount .poolLShare := by
    unfold accruedYield
    dsimp only
    split <;> omega
  have whole := earned_nonneg m.shares m.accStart accEnd
  rw [clamp, entitlement_eq m.shares nonneg word]
  unfold Funded
  split
  · rename_i fits
    exact ⟨fun covered => ⟨whole.trans covered, fun _ => covered⟩, fun funded => funded.2 fits⟩
  · rename_i unfit
    exact ⟨fun owes => ⟨owes, fun fits => absurd fits unfit⟩, fun funded => funded.1⟩

/-- A reading is a word. -/
theorem accEndOf_word {r : Rows} {m : Mint} {height : Nat} {accEnd : Int}
    (reading : accEndOf r m height = some accEnd)
    : accEnd < 2 ^ 63 := by
  unfold accEndOf accAtDay at reading
  split at reading
  · split at reading
    · cases reading
    · exact Option.some.inj reading ▸ (i64_mem _).upper
  · exact Option.some.inj reading ▸ (i64_mem _).upper

/-- What a position is shown to have earned is the entitlement that a claim settles. -/
theorem pendingYield_claimed {id : Nat} {m : Mint} {accEnd : Int}
    (current : CaughtUp ctx.height w) (claimed : MintClaimed ctx id w w' msg m accEnd)
    : pendingYield w.rows ctx.sender id ctx.height = entitlement m.shares m.accStart accEnd := by
  have reading := claimed.reading
  rw [caughtUp_current current] at reading
  unfold pendingYield
  rw [claimed.found]
  dsimp only
  rw [if_neg (Bool.eq_false_iff.mp claimed.going), reading]

/-- A position whose claim is refused until its maturity day closes is shown nothing. -/
theorem pendingYield_unclosed {id : Nat} (current : CaughtUp ctx.height w)
    (refused : (claimMint ctx id).run serve w = (w', fail unclosedDay))
    : pendingYield w.rows ctx.sender id ctx.height = 0 := by
  rw [claimMint_run, caughtUp_current current] at refused
  unfold pendingYield
  split
  · rfl
  rename_i m found
  split
  · rfl
  rename_i going
  split
  · rfl
  rename_i accEnd reading
  have started : w.rows.init = true := by
    by_contra fresh
    rw [if_neg fresh] at refused
    have same : "not initialised" = unclosedDay := congrArg (·.2.msg) refused
    exact absurd same (by decide)
  rw [if_pos started, found] at refused
  dsimp only at refused
  rw [if_neg going, reading] at refused
  unfold closing at refused
  dsimp only at refused
  split at refused
  · have same : true = false := congrArg (·.2.ok) refused
    cases same
  · have same : "credit failed" = unclosedDay := congrArg (·.2.msg) refused
    exact absurd same (by decide)

-----------------------------------------------------------------------------------------
-- Tranches
-----------------------------------------------------------------------------------------

/-- (PoolPaid w w' owner msg paid) says that a claim of pool rewards credits `paid` and says so. -/
structure PoolPaid (w w' : World A) (owner msg : String) (paid : Int) : Prop where
  nonneg : 0 ≤ paid
  credits : Credits w.store w'.store owner paid
  told : msg = if 0 < paid then "claimed " ++ encI64 paid else "nothing to claim"

/-- Settling a tranche credits what it is owed, if that is positive. -/
theorem settleTranche_pays {owner : String} {id : Nat} {t : Tranche} {next : Option Tranche}
    (current : CaughtUp ctx.height w) (found : w.rows.getTranche owner id = some t)
    (settles : (settleTranche ctx owner id).run serve w = (w', next, ok msg))
    : t.closed = false ∧ PoolPaid w w' owner msg (max 0 (owedTo w.rows t)) := by
  have read (w : World A) : rows.run serve w = (w, w.rows) := rfl
  have wrote (r : Rows) (w : World A)
      : (setRows r).run serve w = ({ w with store := { w.store with rows := r } }, ()) := rfl
  have owed : (if entitlement t.weight t.accStart (syncPoolAccumulator w.rows).2
      > (syncPoolAccumulator w.rows).1.getAmount .poolLiquidity then
      (syncPoolAccumulator w.rows).1.getAmount .poolLiquidity
    else entitlement t.weight t.accStart (syncPoolAccumulator w.rows).2) = owedTo w.rows t := rfl
  have credited (r : Rows) : (credit owner (owedTo w.rows t)).run serve
      ({ w with store := { w.store with rows := r } } : World A)
      = ({ w with store := ((w.store.modify fun _ => r).credit owner (owedTo w.rows t)).1 },
        ((w.store.modify fun _ => r).credit owner (owedTo w.rows t)).2) :=
    rfl
  simp only [settleTranche, run_bind, run_ite, run_pure, read, wrote, found, settle_current current,
    owed, credited]
    at settles
  split at settles
  · cases settles
  rename_i going
  refine ⟨Bool.eq_false_iff.mpr going, ?_⟩
  split at settles
  · rename_i nothing
    obtain ⟨rfl, answer⟩ := Prod.mk.inj settles
    rw [max_eq_left nothing]
    exact ⟨le_rfl, ⟨rfl, rfl, rfl⟩, (congrArg Result.msg (Prod.mk.inj answer).2).symm⟩
  rename_i positive
  rw [not_le] at positive
  split at settles
  · cases settles
  rename_i made
  obtain ⟨rfl, answer⟩ := Prod.mk.inj settles
  rw [max_eq_right positive.le]
  obtain ⟨same, bal, token⟩ := w.store.credit_modify
    (fun _ => takeReward (reweigh (syncPoolAccumulator w.rows).1 id t
      (t.registered ctx.height (syncPoolAccumulator w.rows).2)) (owedTo w.rows t)) owner
    (owedTo w.rows t)
  rw [Bool.not_eq_true', Bool.not_eq_false] at made
  refine ⟨positive.le, ⟨same.symm.trans made, bal, token⟩, ?_⟩
  rw [if_pos positive]
  exact (congrArg Result.msg (Prod.mk.inj answer).2).symm

/-- So does a claim of its owner. -/
theorem claimPoolRewards_pays {id : Nat} {t : Tranche} (current : CaughtUp ctx.height w)
    (found : w.rows.getTranche ctx.sender id = some t)
    (claims : (claimPoolRewards ctx id).run serve w = (w', ok msg))
    : t.closed = false ∧ PoolPaid w w' ctx.sender msg (max 0 (owedTo w.rows t)) := by
  simp only [claimPoolRewards, run_bind] at claims
  cases settles : (settleTranche ctx ctx.sender id).run serve w with
  | mk w₁ answer =>
      obtain ⟨next, res⟩ := answer
      rw [settles] at claims
      cases next with
      | none =>
          obtain ⟨rfl, rfl⟩ := Prod.mk.inj claims
          exact settleTranche_pays current found settles
      | some t' =>
          simp only [run_bind, run_ite, run_pure] at claims
          split at claims
          · rename_i refused
            obtain ⟨rfl, rfl⟩ := Prod.mk.inj claims
            cases refused
          · obtain ⟨rfl, rfl⟩ := Prod.mk.inj claims
            obtain ⟨going, paid⟩ := settleTranche_pays current found settles
            exact ⟨going, paid.nonneg, ⟨paid.credits.made, paid.credits.bal, paid.credits.token⟩, paid.told⟩

/-- A sync leaves the pool itself alone. -/
theorem sync_pool (r : Rows)
    : (syncPoolAccumulator r).1.getAmount .poolLiquidity = r.getAmount .poolLiquidity :=
  (syncPoolAccumulator_touches r).amount .poolLiquidity rfl

/-- The view reads the accumulator that a sync writes. -/
theorem poolRewardsOwed_eq {r : Rows} {t : Tranche} (going : t.closed = false)
    (weighs : 0 < t.weight)
    : poolRewardsOwed r t = owedTo r t := by
  have reading : (syncPoolAccumulator r).2
      = if r.getAmount .poolLiquidity > r.getAmount .poolAccSeen then
          (accumulatorStep (i64 (r.getU64 .poolAcc))
            (i64 (r.getAmount .poolLiquidity - r.getAmount .poolAccSeen))
            (r.getAmount .poolAccHeld) (r.getAmount .poolWeight)).1
        else i64 (r.getU64 .poolAcc) := by
    unfold syncPoolAccumulator
    dsimp only
    split <;> rfl
  unfold poolRewardsOwed Engine.poolRewardsOwed owedTo
  dsimp only
  rw [if_neg (Bool.eq_false_iff.mp going), if_neg (not_le.mpr weighs), sync_pool, reading]

/-- What a tranche is shown is what a claim credits, unless it weighs something and the pool is in
debt.
-/
theorem poolRewardsOwed_paid_iff {r : Rows} (readings : Readings r) {owner : String} {id : Nat}
    {t : Tranche} (found : r.getTranche owner id = some t) (going : t.closed = false)
    : poolRewardsOwed r t = max 0 (owedTo r t)
      ↔ t.weight ≤ 0 ∨ 0 ≤ r.getAmount .poolLiquidity := by
  have pool := sync_pool r
  by_cases weighs : t.weight ≤ 0
  · have nothing : entitlement t.weight t.accStart (syncPoolAccumulator r).2 = 0 :=
      if_pos (.inl weighs)
    have shown : poolRewardsOwed r t = 0 := by
      unfold poolRewardsOwed Engine.poolRewardsOwed
      rw [if_neg (Bool.eq_false_iff.mp going), if_pos weighs]
    have owed : owedTo r t ≤ 0 := by
      unfold owedTo
      dsimp only
      rw [nothing]
      split <;> omega
    rw [shown, max_eq_left owed]
    exact ⟨fun _ => .inl weighs, fun _ => rfl⟩
  · rw [not_le] at weighs
    have start := readings.tranche owner id t found
    have word : (syncPoolAccumulator r).2 < 2 ^ 63 := by
      rw [(sync_reading r).1]
      exact (i64_mem _).upper
    have earns : 0 ≤ entitlement t.weight t.accStart (syncPoolAccumulator r).2 := by
      rw [entitlement_eq t.weight start word]
      split
      · exact earned_nonneg _ _ _
      · exact le_rfl
    rw [poolRewardsOwed_eq going weighs]
    unfold owedTo
    dsimp only
    rw [pool]
    split <;> omega

-----------------------------------------------------------------------------------------
-- Posts
-----------------------------------------------------------------------------------------

/-- The view of a post that is not paid out is what a payout claims. -/
theorem pendingPayout_eq {r : Rows} {author permlink : String} {p : PostRec}
    (found : r.getPost author permlink = some p) (unpaid : p.paidOut = false)
    : pendingPayout r author permlink = (claimPool r p.window p.rshares).1 := by
  unfold pendingPayout claimPool
  rw [found]
  dsimp only
  split
  · rename_i nothing
    have none_voted : p.rshares ≤ 0 := nothing.resolve_left (Bool.eq_false_iff.mp unpaid)
    rw [Pool.claim, if_pos (.inl none_voted)]
  · rfl

/-- A payout takes what the post is shown out of its pool. -/
theorem pendingPayout_taken {author permlink : String} (words : PoolWords w.rows)
    (current : CaughtUp ctx.height w)
    (pays : (payout ctx author permlink).run serve w = (w', ok msg))
    : ∃ p, w.rows.getPost author permlink = some p ∧ p.closesAt ≤ ctx.height
      ∧ w'.rows.getAmount (poolKey p.window)
        = w.rows.getAmount (poolKey p.window) - pendingPayout w.rows author permlink := by
  by_cases ready : ∃ p, w.rows.init = true ∧ w.rows.getPost author permlink = some p
      ∧ p.paidOut = false ∧ p.closesAt ≤ ctx.height
  · obtain ⟨p, started, found, unpaid, closed⟩ := ready
    refine ⟨p, found, closed, ?_⟩
    rw [payout_run ctx started found unpaid closed, settle_current current] at pays
    let o : Origin := ⟨ctx, .payout author permlink, w.rows, False⟩
    have paid : Moves o w.rows (payoutRows w.rows ctx.height author permlink p) :=
      (Moves.refl _).step fun _ => .content <| .pay author permlink p rfl .idle found unpaid closed
    have touched := (asks_serve False.elim (closePost_asks (o := o) author permlink p paid)).2
    rw [pays] at touched
    rw [touched.amount (poolKey p.window) (by rw [poolKey_side]; rfl)]
    have left := claimPool_takes words p.window p.rshares
    rw [pendingPayout_eq found unpaid, ← left]
    unfold Rows.getAmount
    rw [payoutRows_amount]
  · obtain ⟨reason, refused⟩ := payout_refused ctx author permlink ready
    rw [refused] at pays
    cases pays

-----------------------------------------------------------------------------------------
-- Every reachable state
-----------------------------------------------------------------------------------------

theorem after_poolWords (store : Store) (assets : A) (genesis : UInt64)
    (fresh : store.rows = .empty) (requests : List Request)
    : PoolWords (after (initialised store assets genesis) requests).rows := by
  refine after_keep (I := fun w => PoolWords w.rows)
    (fun w q words => (q.exec_steps w).keep (fun _ _ words step => step.poolWords words) words)
    (PoolWords.touches ?_ (initialised_touches store assets genesis fresh) rfl) requests
  exact fun window => by cases window <;> decide

/-- Where accrual is current, a claim settles the yield that is shown exactly where the pool holds
what the position has earned; until the maturity day closes nothing is shown. A tranche's claim
credits what is shown unless the tranche weighs something and the pool is in debt, and a payout takes
what is shown.
-/
theorem shown_is_paid_iff (store : Store) (assets : A) (genesis : UInt64) (requests : List Request)
    (ctx : Ctx) (fresh : store.rows = .empty)
    (current : CaughtUp ctx.height (after (initialised store assets genesis) requests))
    : let w := after (initialised store assets genesis) requests
      (∀ id w' msg, (claimMint ctx id).run serve w = (w', ok msg)
          → ∃ m accEnd, MintClaimed ctx id w w' msg m accEnd
            ∧ (pendingYield w.rows ctx.sender id ctx.height
                = accruedYield (caughtUp ctx w).rows m accEnd ↔ Funded w.rows m accEnd))
        ∧ (∀ id w', (claimMint ctx id).run serve w = (w', fail unclosedDay)
          → pendingYield w.rows ctx.sender id ctx.height = 0)
        ∧ (∀ id t w' msg, w.rows.getTranche ctx.sender id = some t
          → (claimPoolRewards ctx id).run serve w = (w', ok msg)
          → ∃ paid, PoolPaid w w' ctx.sender msg paid
            ∧ (poolRewardsOwed w.rows t = paid
              ↔ t.weight ≤ 0 ∨ 0 ≤ w.rows.getAmount .poolLiquidity))
        ∧ ∀ author permlink w' msg, (payout ctx author permlink).run serve w = (w', ok msg)
          → ∃ p, w.rows.getPost author permlink = some p ∧ p.closesAt ≤ ctx.height
            ∧ w'.rows.getAmount (poolKey p.window)
              = w.rows.getAmount (poolKey p.window) - pendingPayout w.rows author permlink := by
  have readings := after_readings store assets genesis fresh requests
  have words := after_poolWords store assets genesis fresh requests
  intro w
  refine ⟨fun id w' msg claims => ?_, fun id w' refused => pendingYield_unclosed current refused,
    fun id t w' msg found claims => ?_, fun author permlink w' msg pays =>
      pendingPayout_taken words current pays⟩
  · obtain ⟨m, accEnd, claimed⟩ := claimMint_claimed claims
    refine ⟨m, accEnd, claimed, ?_⟩
    have word : accEnd < 2 ^ 63 := accEndOf_word claimed.reading
    rw [pendingYield_claimed current claimed, caughtUp_current current]
    exact accruedYield_full_iff (readings.mint _ _ m claimed.found) word
  · obtain ⟨going, paid⟩ := claimPoolRewards_pays current found claims
    exact ⟨_, paid, poolRewardsOwed_paid_iff readings found going⟩

end Views

/-- A matured position whose day has closed is shown what its claim settles. -/
theorem shown_is_paid_matured
    : let requests : List Request :=
        [⟨{ sender := "hive:owner", height := 1 }, .creditMigration "hive:a" 1000000000000 0, true⟩,
          ⟨{ sender := "hive:a", height := 2 }, .createMint 500000000000 30, true⟩,
          ⟨{ sender := "hive:a", height := 892801 }, .advance 0, true⟩]
      let w := after (initialised Store.newMem MemAssets.new 1) requests
      let ctx : Ctx := { sender := "hive:a", height := 892801 }
      ∃ w' m accEnd, MintClaimed ctx 1 w w' "claimed 7577625351189" m accEnd
        ∧ pendingYield w.rows ctx.sender 1 ctx.height
          = accruedYield (caughtUp ctx w).rows m accEnd := by
  intro requests w ctx
  have answered : ((claimMint ctx 1).run serve w).2 = ok "claimed 7577625351189" := by
    decide +kernel
  have funded : ((w.rows.getMint ctx.sender 1).all fun m =>
      (accEndOf w.rows m ctx.height).all fun accEnd => decide (Funded w.rows m accEnd)) = true := by
    decide +kernel
  have current : CaughtUp ctx.height w := by decide +kernel
  cases claims : (claimMint ctx 1).run serve w with
  | mk w' res =>
  rw [claims] at answered
  obtain rfl : res = ok "claimed 7577625351189" := answered
  obtain ⟨m, accEnd, claimed, shown⟩ := (shown_is_paid_iff Store.newMem MemAssets.new 1 requests ctx
    rfl current).1 1 w' _ claims
  have reading := claimed.reading
  rw [caughtUp_current current] at reading
  rw [claimed.found, Option.all_some, reading, Option.all_some] at funded
  exact ⟨_, m, accEnd, claimed, shown.mpr (of_decide_eq_true funded)⟩

/-- The sweep of a snapshot whose total is close to the largest word makes the pool wrap: a position
is still shown its yield, while its claim takes the whole debt of the pool for it.
-/
theorem shown_yield_unpaid_by_wrap
    : let requests : List Request :=
        [⟨{ sender := "hive:owner", height := 1 },
            .creditMigration "hive:a" 10000000000000 0, true⟩,
          ⟨{ sender := "hive:owner", height := 1 }, .setSnapshot
            "0000000000000000000000000000000000000000000000000000000000000000"
            9223362036854775807 0, true⟩,
          ⟨{ sender := "hive:a", height := 2 }, .createMint 10000000000000 200, true⟩,
          ⟨{ sender := "hive:b", height := 6048001 }, .sweepUnclaimed, true⟩]
      let w := after (initialised Store.newMem MemAssets.new 1) requests
      let ctx : Ctx := { sender := "hive:a", height := 6048001 }
      (results (initialised Store.newMem MemAssets.new 1) requests).all Result.ok = true
        ∧ CaughtUp ctx.height w
        ∧ ((claimMint ctx 1).run serve w).2 = ok "claimed -9223324091650783809"
        ∧ pendingYield w.rows ctx.sender 1 ctx.height = 45890409534478
        ∧ ((w.rows.getMint ctx.sender 1).bind fun m => (accEndOf w.rows m ctx.height).map
            fun accEnd => accruedYield w.rows m accEnd) = some (-9223334091650783809) := by
  decide +kernel

end LasseCash.State
