import LasseCash.State.LiquiditySyncs
import LasseCash.State.LiquiditySolvency

/-! What becomes of the liquidity rewards that are held: a sync assigns them together with what
arrived since the last one, and leaves them where nothing did.
-/

namespace LasseCash.State

open Engine MachineInt RewardAccumulator Program

variable {o : Origin} {r r' : Rows}

/-- The actions that sync the liquidity rewards when they succeed. -/
def Action.syncs : Action → Bool
  | addLiquidity .. | claimPoolRewards _ | removeLiquidity _ | sweepTranche .. => true
  | _ => false

/-- (Synced o r') says that `r'` holds and emitted what a sync left, which came after the accrual
of the operation; a deposit writes the reserves before it.
-/
def Synced (o : Origin) (r' : Rows) : Prop :=
  ∃ r₀ r₁, Touches [.reserves] o.start r₀ ∧ Accrues o.ctx.height r₀ r₁
    ∧ r'.getAmount .poolAccHeld = (syncPoolAccumulator r₁).1.getAmount .poolAccHeld
    ∧ r'.getAmount .emitted = r₁.getAmount .emitted

/-- A settlement syncs, and the write after it leaves the accumulator alone. -/
theorem Settles.synced {owner : String} {id : Nat} (h : Settles o owner id r') : Synced o r' := by
  obtain ⟨t, r₂, found, going, ⟨r₁, accrued, strides, there, settled⟩, moved, _⟩ := h
  have held : (settleRows r₁ o.ctx.height id t).getAmount .poolAccHeld
      = (syncPoolAccumulator r₁).1.getAmount .poolAccHeld := by
    unfold settleRows reweigh takeReward
    dsimp only
    split <;> simp
  have emitted := (settleRows_touches r₁ o.ctx.height id t).amount .emitted rfl
  have noted : Touches [.roll] (settleRows r₁ o.ctx.height id t) r₂ := by
    rcases settled with rfl | rfl
    · exact .refl _
    · exact (Touches.refl _).noteAccount owner (by rfl)
  exact ⟨o.start, r₁, .refl _, accrued,
    (moved.amount .poolAccHeld rfl).trans ((noted.amount .poolAccHeld rfl).trans held),
    (moved.amount .emitted rfl).trans ((noted.amount .emitted rfl).trans emitted)⟩

/-- A deposit syncs before it opens its tranche. -/
theorem Deposited.synced (h : Deposited o r') : Synced o r' := by
  obtain ⟨lcIn, hbdIn, shares, r₁, accrued, rfl⟩ := h
  have opened := openTranche_touches (syncPoolAccumulator r₁).1 o.ctx shares
    (syncPoolAccumulator r₁).2
  exact ⟨_, r₁, depositRows_touches o.start lcIn hbdIn shares, accrued,
    opened.amount .poolAccHeld rfl,
    (opened.amount .emitted rfl).trans ((syncPoolAccumulator_touches r₁).amount .emitted rfl)⟩

section Requests

variable {A : Type} [Assets A]

/-- A request that succeeds as one of them has synced. -/
theorem Request.exec_synced {q : Request} (w : World A) (syncs : q.action.syncs = true)
    (success : (q.exec w).2.ok = true)
    : Synced (q.origin w) (q.exec w).1.rows := by
  cases asked : q.action <;> rw [asked] at syncs <;> try cases syncs
  case addLiquidity lcIn maxHbd => exact (q.exec_deposits w asked success).synced
  all_goals exact (q.exec_settles w (by rw [asked]; rfl) success).synced

/-- What a request syncs that arrived since the last sync: what stands in the pool already, and a
quarter of what its accrual emits.
-/
def arrived (w : World A) (q : Request) : Int :=
  w.rows.getAmount .poolLiquidity - w.rows.getAmount .poolAccSeen
    + ((q.exec w).1.rows.getAmount .emitted - w.rows.getAmount .emitted) / 4

/-- What is held could be assigned: the weight is large enough and so is the rise. -/
def Assignable (r : Rows) : Prop :=
  minSharesForAccrual ≤ r.getAmount .poolWeight
    ∧ 0 < riseOf (r.getAmount .poolAccHeld) (r.getAmount .poolWeight)

instance (r : Rows) : Decidable (Assignable r) := inferInstanceAs (Decidable (_ ∧ _))

/-- Something arrived, and the accumulator has room for the rise of all of it. -/
def Folds (w : World A) (q : Request) : Prop :=
  0 < arrived w q
    ∧ i64 (w.rows.getU64 .poolAcc)
      + riseOf (arrived w q + w.rows.getAmount .poolAccHeld) (w.rows.getAmount .poolWeight)
      ≤ maxAccumulator

/-- A larger total rises no less. -/
theorem riseOf_mono {x y weight : Int} (le : x ≤ y) (positive : 0 < weight)
    : riseOf x weight ≤ riseOf y weight :=
  Int.ediv_le_ediv positive (mul_le_mul_of_nonneg_right le (by decide))

/-- What could be assigned is after a sync exactly where something arrived and there was room. -/
theorem Request.exec_held {q : Request} {w : World A} (books : LpBooks w.rows)
    (syncs : q.action.syncs = true) (success : (q.exec w).2.ok = true)
    (assignable : Assignable w.rows)
    : (q.exec w).1.rows.getAmount .poolAccHeld = 0 ↔ Folds w q := by
  obtain ⟨r₀, r₁, brought, accrued, held, emitted⟩ := q.exec_synced w syncs success
  have brought : Touches [.reserves] w.rows r₀ := brought
  obtain ⟨before, same⟩ := books.toFundBooks.touches brought (brought.amount .emitted rfl) rfl
  obtain ⟨after, x, nonneg, total, fund⟩ := before.accrued accrued q.ctx.height_lt
  rw [brought.amount .emitted rfl] at total
  rw [same] at fund
  -- the sync finds the fund of the request's world with what its accrual added
  have inflow : (fundOf r₁).pool - (fundOf r₁).seen = arrived w q := by
    rw [arrived, emitted, total, fund]
    change w.rows.getAmount .poolLiquidity + x - w.rows.getAmount .poolAccSeen = _
    omega
  obtain ⟨enough, some_rise⟩ := assignable
  have base : 0 < w.rows.getAmount .poolWeight := lt_of_lt_of_le (by decide) enough
  have held_nonneg : 0 ≤ w.rows.getAmount .poolAccHeld := books.fund.held_nonneg
  have held_pos : w.rows.getAmount .poolAccHeld ≠ 0 := by
    intro zero
    rw [zero] at some_rise
    simp [riseOf] at some_rise
  have kept : (q.exec w).1.rows.getAmount .poolAccHeld = (fundOf r₁).sync.held := by
    rw [held, ← (fundOf_sync r₁).1]
    rfl
  rw [kept, Folds]
  by_cases some : (fundOf r₁).seen < (fundOf r₁).pool
  · have mono := riseOf_mono (x := w.rows.getAmount .poolAccHeld)
      (y := arrived w q + w.rows.getAmount .poolAccHeld) (by omega) base
    rw [after.fund.sync_eq some, inflow, fund]
    change (if minSharesForAccrual ≤ w.rows.getAmount .poolWeight
        ∧ 0 < riseOf (arrived w q + w.rows.getAmount .poolAccHeld) (w.rows.getAmount .poolWeight)
        ∧ i64 (w.rows.getU64 .poolAcc) + riseOf (arrived w q + w.rows.getAmount .poolAccHeld)
          (w.rows.getAmount .poolWeight) ≤ maxAccumulator then _ else _ : Fund).held = 0 ↔ _
    split
    · rename_i folds
      simp only [true_iff]
      exact ⟨by omega, folds.2.2⟩
    · rename_i refused
      refine ⟨fun zero => ?_, fun folds => absurd ⟨enough, by omega, folds.2⟩ refused⟩
      change arrived w q + w.rows.getAmount .poolAccHeld = 0 at zero
      omega
  · rw [after.fund.sync_idle some, fund]
    change w.rows.getAmount .poolAccHeld = 0 ↔ _
    exact ⟨fun zero => by omega, fun folds => by omega⟩

/-- In a run from `Init`, on any ledger and assets, whose sums fit, a sync leaves nothing held that
could be assigned exactly where something arrived since the last one and the accumulator has room.
-/
theorem held_rewards_folded_iff (store : Store) (assets : A) (genesis : UInt64)
    (requests : List Request) (fresh : store.rows = .empty)
    (run : Run (fun w q => q.LpFits w) (initialised store assets genesis) 0 requests)
    : Along (fun w q => q.action.syncs = true → (q.exec w).2.ok = true → Assignable w.rows
        → ((q.exec w).1.rows.getAmount .poolAccHeld = 0 ↔ Folds w q))
      (initialised store assets genesis) requests := by
  refine run.along (I := fun _ w => LpBooks w.rows) ?_
    (initialised_lpBooks store assets genesis fresh)
  intro w now q books later fits
  exact ⟨Request.exec_lpBooks books fits, Request.exec_held books⟩

end Requests

/-- A donation that arrives before any provider is paid out once more arrives. -/
theorem held_rewards_folded_small
    : Along (fun w q => q.action.syncs = true → (q.exec w).2.ok = true → Assignable w.rows
        → ((q.exec w).1.rows.getAmount .poolAccHeld = 0 ↔ Folds w q))
      (initialised Store.newMem MemAssets.new 1)
      [⟨{ sender := "hive:owner", height := 1 }, .creditMigration "hive:a" 300000000000 0, true⟩,
        ⟨{ sender := "hive:a", height := 2 }, .fundPool "liquidity" 100000000000, true⟩,
        ⟨{ sender := "hive:a", height := 3 }, .addLiquidity 10000000000 50000000000, true⟩,
        ⟨{ sender := "hive:a", height := 4 }, .fundPool "liquidity" 1, true⟩,
        ⟨{ sender := "hive:a", height := 5 }, .claimPoolRewards 1, true⟩] := by
  refine held_rewards_folded_iff Store.newMem MemAssets.new 1 _ rfl
    ⟨by decide, ⟨⟨nofun, nofun, nofun, nofun⟩, nofun⟩, by decide,
      ⟨⟨nofun, nofun, nofun, ?_⟩, nofun⟩, by decide, ⟨⟨?_, ?_, nofun, nofun⟩, nofun⟩, by decide,
      ⟨⟨nofun, nofun, nofun, ?_⟩, nofun⟩, by decide, ⟨⟨nofun, nofun, ?_, nofun⟩, nofun⟩, trivial⟩
  · intro target amt asked _
    cases asked
    decide +kernel
  · intro lcIn maxHbd asked _
    cases asked
    decide +kernel
  · intro lcIn maxHbd asked _
    cases asked
    decide +kernel
  · intro target amt asked _
    cases asked
    decide +kernel
  · intro owner id asked
    cases asked
    decide +kernel

/-- A donation that arrives before any provider stays held at the claim of the only provider, since
nothing arrived since its deposit.
-/
theorem held_rewards_stranded
    : let before : List Request :=
        [⟨{ sender := "hive:owner", height := 1 }, .creditMigration "hive:a" 300000000000 0, true⟩,
          ⟨{ sender := "hive:a", height := 2 }, .fundPool "liquidity" 100000000000, true⟩,
          ⟨{ sender := "hive:a", height := 3 }, .addLiquidity 10000000000 50000000000, true⟩]
      let claim : Request := ⟨{ sender := "hive:a", height := 4 }, .claimPoolRewards 1, true⟩
      let w := initialised Store.newMem MemAssets.new 1
      (results w (before ++ [claim])).all Result.ok = true ∧ Assignable (after w before).rows
        ∧ (after w (before ++ [claim])).rows.getAmount .poolAccHeld = 100000000000 := by
  decide +kernel

end LasseCash.State
