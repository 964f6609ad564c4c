import LasseCash.State.CurationClaims

/-! Which writes move a pending balance: no operation but the monthly mint does more to one than to
credit a reward to it.
-/

namespace LasseCash.State

open Engine MachineInt Function Program

-----------------------------------------------------------------------------------------
-- Programs and their writes
-----------------------------------------------------------------------------------------

/-- What `W` asks of a call: it takes the rows to none but rows that `W` allows. -/
def writeNeeds (W : Rows → Rows → Prop) : Call → Rows → Prop
  | .setRows x, r => W r x
  | _, _ => True

/-- (Writes W p Q r) says that `p` writes the rows as `W` allows, and ends in `Q`. -/
abbrev Writes {α : Type} (W : Rows → Rows → Prop) (p : Op α) (Q : α → Rows → Prop) (r : Rows)
    : Prop :=
  p.wp (writeNeeds W) rowsMay Q r

section Rules

variable {W : Rows → Rows → Prop} {r : Rows}

/-- A call that writes no rows is as free as ever. -/
theorem writes_issue (c : Call) {Q : Reply c → Rows → Prop} (free : writeNeeds W c r)
    : Writes W (issue c) Q r ↔ (issue c : Op (Reply c)).Always rowsMay Q r :=
  wp_issue.trans (and_iff_right free)

@[simp]
theorem writes_rows {Q : Rows → Rows → Prop} : Writes W rows Q r ↔ Q r r :=
  (writes_issue .rows trivial).trans always_rows

@[simp]
theorem writes_setRows {x : Rows} {Q : Unit → Rows → Prop}
    : Writes W (setRows x) Q r ↔ W r x ∧ Q () x := by
  refine wp_issue.trans (and_congr_right fun _ => ⟨fun h => h () x rfl, ?_⟩)
  rintro h ⟨⟩ r' rfl
  exact h

@[simp]
theorem writes_modify {f : Rows → Rows} {Q : Unit → Rows → Prop}
    : Writes W (modify f) Q r ↔ W r (f r) ∧ Q () (f r) := by
  rw [modify, Writes, wp_bind]
  exact writes_rows.trans writes_setRows

@[simp]
theorem writes_balance {account : String} {Q : Int → Rows → Prop}
    : Writes W (balance account) Q r ↔ ∀ n, Q n r :=
  (writes_issue (.balance account) trivial).trans always_balance

@[simp]
theorem writes_debit {account : String} {amt : Int} {Q : Bool → Rows → Prop}
    : Writes W (debit account amt) Q r ↔ ∀ b, Q b r :=
  (writes_issue (.debit account amt) trivial).trans always_debit

@[simp]
theorem writes_draw {amount : Int} {Q : Bool → Rows → Prop}
    : Writes W (draw amount) Q r ↔ ∀ b, Q b r :=
  (writes_issue (.draw amount) trivial).trans always_draw

@[simp]
theorem writes_transferHbd {recipient : String} {amount : Int} {Q : Bool → Rows → Prop}
    : Writes W (transferHbd recipient amount) Q r ↔ ∀ b, Q b r :=
  (writes_issue (.transferHbd recipient amount) trivial).trans always_transferHbd

@[simp]
theorem writes_credit {account : String} {amt : Int} {Q : Bool → Rows → Prop}
    : Writes W (credit account amt) Q r ↔ (∀ b, Q b r) ∧ Q true (noteAccount r account) :=
  (writes_issue (.credit account amt) trivial).trans always_credit

@[simp]
theorem writes_mintSupply {key : AmountKey} {delta : Int} {Q : Bool → Rows → Prop}
    : Writes W (mintSupply key delta) Q r
      ↔ Q false r ∧ (delta = 0 → Q true r)
        ∧ (0 < delta → ∀ next, addAmount (r.getAmount key) delta = some next
          → Q true (r.setAmount key next)) :=
  (writes_issue (.mintSupply key delta) trivial).trans always_mintSupply

/-- A part that keeps its bounds from the rows it finds may be followed by one that keeps them from
any rows.
-/
theorem Writes.any {α : Type} {p : Op α} {Q : α → Rows → Prop}
    (holds : Writes W p (fun _ _ => True) r) (rest : ∀ value r', Q value r')
    : Writes W p Q r :=
  wp_mono (fun value r' _ => rest value r') holds

end Rules

-----------------------------------------------------------------------------------------
-- Writes of pending balances
-----------------------------------------------------------------------------------------

/-- (PendKept r x) says that nothing pending is written. -/
def PendKept (r x : Rows) : Prop := x.pend = r.pend

/-- (PendWrite epoch r x) says that at most one pending balance is written: a reward is added to it, and
its epoch is anchored.
-/
def PendWrite (epoch : Nat) (r x : Rows) : Prop :=
  x.pend = r.pend
    ∨ ∃ account amount, 0 ≤ amount ∧ amount < 2 ^ 63
      ∧ x.pend = (accruePending r account amount epoch).pend

/-- A program keeps still: from any rows it writes nothing pending. -/
def Still {α : Type} (p : Op α) : Prop := ∀ r, Writes PendKept p (fun _ _ => True) r

/-- A program only rewards: from any rows it writes rewards. -/
def Rewards {α : Type} (epoch : Nat) (p : Op α) : Prop :=
  ∀ r, Writes (PendWrite epoch) p (fun _ _ => True) r

/-- To keep still is to reward nobody. -/
theorem Writes.pend {α : Type} {p : Op α} {Q : α → Rows → Prop} {r : Rows}
    (still : Writes PendKept p Q r) (epoch : Nat)
    : Writes (PendWrite epoch) p Q r := by
  refine wp_pre (fun c r needs => ?_) still
  cases c with
  | setRows x => exact .inl needs
  | _ => trivial

theorem Still.rewards {α : Type} {p : Op α} (still : Still p) (epoch : Nat) : Rewards epoch p :=
  fun r => (still r).pend epoch

/-- What touches no pending balance keeps them all. -/
theorem Touches.pendKept {sides : List Side} {r x : Rows} (touched : Touches sides r x)
    (away : sides.contains .pending = false)
    : PendKept r x :=
  touched.pend away

-----------------------------------------------------------------------------------------
-- Accrual, transfers and settings
-----------------------------------------------------------------------------------------

theorem accrueWalk_still (toHeight : Nat) (maxDays : Int) (budget : Nat)
    : Still (accrueWalk toHeight maxDays budget) := by
  intro r
  simp only [accrueWalk, Writes, wp_bind, writes_rows, wp_ite, wp_pure, writes_setRows]
  refine ⟨fun _ => trivial, fun _ => ⟨((days_touches _ _ (.refl r)).pendKept (by rfl)), ?_⟩⟩
  generalize Walk.days _ _ _ = w
  simp only [issueEmission, wp_ite, wp_bind, wp_pure, writes_mintSupply, writes_modify]
  have commits (r : Rows) : PendKept r (w.commit r) := (commit_touches w r).pendKept rfl
  have credits (r : Rows) : PendKept r (w.creditPools r) := (creditPools_touches w r).pendKept rfl
  simp [commits, credits]

theorem accrue_still (toHeight : Nat) : Still (accrue toHeight) := accrueWalk_still _ _ _

theorem settle_still (ctx : Ctx) : Still (settle ctx) := by
  intro r
  simp only [settle, Writes, wp_bind, writes_rows, wp_ite, wp_pure]
  refine ⟨fun _ => trivial, fun _ => (accrue_still ctx.height r).any fun b r' => ?_⟩
  exact ⟨fun _ => trivial, fun _ => trivial⟩

theorem advance_still (ctx : Ctx) (maxDays : Int) : Still (advance ctx maxDays) := by
  intro r
  simp only [advance, accrueSteps, Writes, wp_bind, wp_ite, wp_pure]
  refine (accrueWalk_still ctx.height maxDays _ r).any fun b r' => ?_
  exact ⟨fun _ => trivial, fun _ => trivial⟩

theorem fundPool_still (ctx : Ctx) (target : String) (amt : Int)
    : Still (fundPool ctx target amt) := by
  intro r
  have funded : PendKept r (fundTarget r target amt) := (fundTarget_touches r target amt).pendKept rfl
  simp [fundPool, Writes, funded]

theorem transfer_still (ctx : Ctx) (recipient : String) (amt : Int)
    : Still (transfer ctx recipient amt) := by
  intro r
  simp [transfer, Writes]

theorem burn_still (amt : Int) : Still (burn amt) := by
  intro r
  simp [burn, Writes]

theorem burnLiquid_still (ctx : Ctx) (amt : Int) : Still (burnLiquid ctx amt) := by
  intro r
  simp [burnLiquid, burn, Writes]

theorem setMintDuration_still (ctx : Ctx) (days : Int) : Still (setMintDuration ctx days) := by
  intro r
  have kept : PendKept r (r.setDuration ctx.sender days) := rfl
  simp [setMintDuration, Writes, kept]

theorem promote_still (account : String) : Still (promote account) := by
  intro r
  have kept : PendKept r (offer r account) :=
    ((Touches.refl r).offer account rfl : Touches [.board] _ _).pendKept (by rfl)
  simp [promote, Writes, kept]

theorem setPreference_still (ctx : Ctx) (key : String) (value : Int)
    : Still (setPreference ctx key value) := by
  intro r
  simp only [setPreference, Writes, wp_bind, writes_rows]
  cases registryParam key with
  | none => exact trivial
  | some k =>
      have kept : PendKept r (r.setPreference k ctx.sender value) := rfl
      simp [kept]

-----------------------------------------------------------------------------------------
-- Mints
-----------------------------------------------------------------------------------------

theorem registerMints_still (height : Nat) (mints : List Mint)
    : Still (registerMints height mints) := by
  intro r
  simp only [registerMints, Writes, wp_bind, wp_ite, wp_pure, writes_rows, writes_setRows]
  refine (accrue_still height r).any fun b r' => ?_
  exact ⟨fun _ => trivial, fun _ => ⟨((enterMints_touches r' mints).pendKept rfl), trivial⟩⟩

theorem createMint_still (ctx : Ctx) (principal days : Int)
    : Still (createMint ctx principal days) := by
  intro r
  simp only [createMint, Writes, wp_bind, writes_rows, wp_ite, wp_pure, writes_balance]
  refine ⟨fun _ => trivial, fun _ => ⟨fun _ => trivial, fun _ => ⟨fun _ => trivial, fun _ n =>
    ⟨fun _ => trivial, fun _ => ?_⟩⟩⟩⟩
  refine (accrue_still ctx.height r).any fun b r' => ⟨fun _ => trivial, fun _ => ?_⟩
  cases newMint ctx.sender principal days ctx.height (mintParamsNow r' ctx.height) with
  | none => exact trivial
  | some m =>
      simp only [wp_bind, writes_debit, wp_ite, wp_pure]
      refine fun b => ⟨fun _ => trivial, fun _ => ?_⟩
      refine (registerMints_still ctx.height [m] r').any fun ids r'' => ?_
      cases ids <;> exact trivial

theorem endMint_still (ctx : Ctx) (owner : String) (id : Nat) (sweep : Bool)
    : Still (endMint ctx owner id sweep) := by
  intro r
  simp only [endMint, Writes, wp_bind, writes_rows, wp_ite, wp_pure]
  refine ⟨fun _ => trivial, fun _ => ?_⟩
  cases r.getMint owner id with
  | none => exact trivial
  | some m =>
      simp only [wp_bind, writes_rows, wp_ite, wp_pure]
      refine ⟨fun _ => trivial, fun _ => (accrue_still ctx.height r).any fun b r' => ?_⟩
      cases accEndOf r' m ctx.height with
      | none => exact trivial
      | some accEnd =>
          have closed : PendKept r' (closeMint r' id m (accruedYield r' m accEnd)) :=
            (closeMint_touches r' id m _).pendKept (by rfl)
          have recycled (r : Rows) (amt : Int) : PendKept r (recycle r amt) :=
            (recycle_touches r amt).pendKept rfl
          simp [endMint.payOwner, closed, recycled]

theorem armGoodAccounting_still (ctx : Ctx) (id : Nat) : Still (armGoodAccounting ctx id) := by
  intro r
  simp only [armGoodAccounting, Writes, wp_bind, writes_rows]
  cases r.getMint ctx.sender id with
  | none => exact trivial
  | some m =>
      have armed : PendKept r (r.putMint id { m with goodAccounting := true }) := rfl
      simp [armed]

-----------------------------------------------------------------------------------------
-- The liquidity pool
-----------------------------------------------------------------------------------------

theorem settleTranche_still (ctx : Ctx) (owner : String) (id : Nat)
    : Still (settleTranche ctx owner id) := by
  intro r
  simp only [settleTranche, Writes, wp_bind, writes_rows]
  cases r.getTranche owner id with
  | none => exact trivial
  | some t =>
      simp only [wp_bind, writes_rows, wp_ite, wp_pure]
      refine ⟨fun _ => trivial, fun _ => (settle_still ctx r).any fun _ r' => ?_⟩
      have synced : Touches [.lpAccumulator, .tranches, .liquidityPool] r'
          (syncPoolAccumulator r').1 :=
        (syncPoolAccumulator_touches r').widen (by decide)
      have weighed (next : Tranche)
          : PendKept r' (reweigh (syncPoolAccumulator r').1 id t next) :=
        (synced.trans ((reweigh_touches _ id t next).widen (by decide))).pendKept (by rfl)
      have taken (next : Tranche) (owed : Int)
          : PendKept r' (takeReward (reweigh (syncPoolAccumulator r').1 id t next) owed) :=
        ((synced.trans ((reweigh_touches _ id t next).widen (by decide))).trans
          ((takeReward_touches _ owed).widen (by decide))).pendKept (by rfl)
      simp [weighed, taken]

theorem claimPoolRewards_still (ctx : Ctx) (id : Nat) : Still (claimPoolRewards ctx id) := by
  intro r
  simp only [claimPoolRewards, Writes, wp_bind]
  refine (settleTranche_still ctx ctx.sender id r).any fun settled r' => ?_
  rcases settled with ⟨_ | t, res⟩
  · exact trivial
  · have touched : PendKept r' (r'.putTranche id { t with lastTouch := ctx.height }) := rfl
    simp [touched]

theorem addLiquidity_still (ctx : Ctx) (lcIn maxHbd : Int) : Still (addLiquidity ctx lcIn maxHbd) := by
  intro r
  simp only [addLiquidity, Writes, wp_bind, writes_rows, wp_ite, wp_pure, writes_balance]
  refine ⟨fun _ => trivial, fun _ => ⟨fun _ => trivial, fun _ n => ⟨fun _ => trivial, fun _ => ?_⟩⟩⟩
  cases hbdForDeposit r lcIn maxHbd with
  | error refusal => exact trivial
  | ok hbdIn =>
      simp only [wp_bind, writes_rows, wp_ite, wp_pure, writes_draw, writes_debit, writes_modify,
        writes_setRows]
      refine ⟨fun _ => trivial, fun _ _ => ⟨fun _ => trivial, fun _ _ => ⟨fun _ => trivial, fun _ =>
        ⟨rfl, (settle_still ctx _).any fun _ r' => ⟨?_, trivial⟩⟩⟩⟩⟩
      have synced : Touches [.lpAccumulator, .tranches] r' (syncPoolAccumulator r').1 :=
        (syncPoolAccumulator_touches r').widen (by decide)
      exact (synced.trans ((openTranche_touches _ ctx _ _).widen (by decide))).pendKept (by rfl)

theorem payHbd_still (owner : String) (hbdOut : Int) : Still (payHbd owner hbdOut) := by
  intro r
  simp [payHbd, Writes]

theorem closeTranche_still (ctx : Ctx) (owner : String) (id : Nat)
    : Still (closeTranche ctx owner id) := by
  intro r
  simp only [closeTranche, Writes, wp_bind, writes_rows]
  cases r.getTranche owner id with
  | none => exact trivial
  | some t =>
      simp only [wp_bind, writes_rows, wp_ite, wp_pure]
      refine ⟨fun _ => trivial, fun _ => (settleTranche_still ctx owner id r).any fun _ r' => ?_⟩
      cases r'.getTranche owner id with
      | none => exact trivial
      | some t =>
          dsimp only
          cases withdrawAmounts t.shares (r'.getAmount .poolShares) (r'.getAmount .poolLC)
              (r'.getAmount .poolHBD) with
          | none => exact trivial
          | some out =>
              simp only [wp_bind]
              refine (payHbd_still owner out.2 r').any fun paid r'' => ?_
              cases paid with
              | none => exact trivial
              | some paid =>
                  have taken : PendKept r'' (takeFromPool r'' t out.1 paid) :=
                    (takeFromPool_touches r'' t out.1 paid).pendKept rfl
                  have closed (r : Rows) (next : Tranche) : PendKept r (r.putTranche id next) := rfl
                  simp [taken, closed]

theorem sweepTranche_still (ctx : Ctx) (owner : String) (id : Nat)
    : Still (sweepTranche ctx owner id) := by
  intro r
  simp only [sweepTranche, Writes, wp_bind, writes_rows]
  cases r.getTranche owner id with
  | none => exact trivial
  | some t =>
      simp only [wp_ite, wp_pure]
      exact ⟨fun _ => trivial, fun _ => ⟨fun _ => trivial, fun _ => closeTranche_still ctx owner id r⟩⟩

theorem swapLCForHBD_still (ctx : Ctx) (lcIn minOut : Int) : Still (swapLCForHBD ctx lcIn minOut) := by
  intro r
  simp only [swapLCForHBD, Writes, wp_bind, writes_rows, wp_ite, wp_pure, writes_balance]
  refine ⟨fun _ => trivial, fun _ n => ⟨fun _ => trivial, fun _ => ?_⟩⟩
  cases swapOut (r.getAmount .poolLC) (r.getAmount .poolHBD) lcIn with
  | none => exact trivial
  | some out =>
      have swapped (lc hbd : Int) : PendKept r ((r.setAmount .poolLC lc).setAmount .poolHBD hbd) := rfl
      simp [swapped]

theorem swapHBDForLC_still (ctx : Ctx) (hbdIn minOut : Int)
    : Still (swapHBDForLC ctx hbdIn minOut) := by
  intro r
  simp only [swapHBDForLC, Writes, wp_bind, writes_rows, wp_ite, wp_pure]
  refine ⟨fun _ => trivial, fun _ => ?_⟩
  cases swapOut (r.getAmount .poolHBD) (r.getAmount .poolLC) hbdIn with
  | none => exact trivial
  | some out =>
      have swapped (hbd lc : Int) : PendKept r ((r.setAmount .poolHBD hbd).setAmount .poolLC lc) := rfl
      simp [swapped]

-----------------------------------------------------------------------------------------
-- The migration
-----------------------------------------------------------------------------------------

theorem creditIfAny_still (account : String) (amt : Int) : Still (creditIfAny account amt) := by
  intro r
  simp [creditIfAny, Writes]

theorem stakeIfAny_still (account : String) (staked : Int) : Still (stakeIfAny account staked) := by
  intro r
  simp only [stakeIfAny, creditMigrationMint, Writes, wp_ite, wp_pure, wp_bind, writes_rows]
  refine ⟨fun _ => ?_, fun _ => trivial⟩
  cases newMigrationMint account staked (genesisHeight r) with
  | none => exact trivial
  | some m =>
      simp only [wp_bind, wp_pure]
      exact (registerMints_still _ [m] r).any fun _ _ => trivial

theorem creditMigration_still (account : String) (liquid staked : Int)
    : Still (creditMigration account liquid staked) := by
  intro r
  simp only [creditMigration, Writes, wp_bind, writes_rows, wp_ite, wp_pure]
  refine ⟨fun _ => trivial, fun _ => ⟨fun _ => trivial, fun _ => ⟨fun _ => trivial, fun _ =>
    ⟨fun _ => trivial, fun _ => ⟨fun _ => trivial, fun _ => ?_⟩⟩⟩⟩⟩
  cases addAmount (r.getAmount .migrated) (i64 (liquid + staked)) with
  | none => exact trivial
  | some next =>
      have credits (r' : Rows) : Writes PendKept (do
          if !(← creditIfAny account liquid) then return fail "credit failed"
          if !(← stakeIfAny account staked) then return fail "migration mint failed"
          modify (·.setMigDone account (.migrated liquid staked))
          return ok "migrated") (fun _ _ => True) r' := by
        simp only [Writes, wp_bind, wp_ite, wp_pure, writes_modify]
        refine (creditIfAny_still account liquid r').any fun _ r₁ => ⟨fun _ => trivial, fun _ => ?_⟩
        exact (stakeIfAny_still account staked r₁).any fun _ _ =>
          ⟨fun _ => trivial, fun _ => ⟨rfl, trivial⟩⟩
      simp only [Writes, wp_bind, wp_ite, wp_pure, writes_mintSupply] at credits ⊢
      exact ⟨fun _ => trivial, fun _ => ⟨⟨fun _ => trivial, fun _ => credits r⟩, fun _ =>
        ⟨fun _ => trivial, fun _ => credits r⟩, fun _ next _ => ⟨fun _ => trivial, fun _ => credits _⟩⟩⟩

/-- Paying a batch writes nothing pending, by induction on its entries. -/
theorem payBatch_still (genesis : Nat) (entries : List MigrationEntry)
    : Still (payBatch genesis entries) := by
  induction entries with
  | nil => exact fun r => trivial
  | cons e rest ih =>
      intro r
      simp only [payBatch, Writes, wp_bind, wp_ite, wp_pure]
      refine (creditIfAny_still e.account e.liquid r).any fun _ r' => ⟨fun _ => trivial, fun _ => ?_⟩
      cases payBatch.stakeMint genesis e with
      | none => exact trivial
      | some mints =>
          simp only [wp_bind, writes_modify]
          refine ⟨rfl, (ih _).any fun more r'' => ?_⟩
          cases more <;> exact trivial

theorem registerBatch_still (genesis : Nat) (mints : List Mint)
    : Still (registerBatch genesis mints) := by
  intro r
  simp only [registerBatch, Writes, wp_ite, wp_pure, wp_bind]
  exact ⟨fun _ => trivial, fun _ => (registerMints_still genesis mints r).any fun _ _ => trivial⟩

/-- What a batch does once its supply is issued. -/
def creditAdmitted (genesis given : Nat) (fresh : List MigrationEntry) : Op Result := do
  match ← payBatch genesis fresh with
  | .error refusal => return refusal
  | .ok mints =>
      if !(← registerBatch genesis mints) then return fail "migration mint failed"
      return ok ("migrated " ++ encU64 fresh.length ++ " of " ++ encU64 given)

theorem creditMigrationBatch_still (entries : List MigrationEntry)
    : Still (creditMigrationBatch entries) := by
  intro r
  simp only [creditMigrationBatch, Writes, wp_bind, writes_rows]
  cases admitBatch validateCredits r entries with
  | error refusal => exact trivial
  | ok admitted =>
      have pays (r' : Rows) : Writes PendKept
          (creditAdmitted (genesisHeight r) entries.length admitted.2) (fun _ _ => True) r' := by
        simp only [creditAdmitted, Writes, wp_bind]
        refine (payBatch_still _ admitted.2 r').any fun paid r₁ => ?_
        cases paid with
        | error refusal => exact trivial
        | ok mints =>
            simp only [wp_bind, wp_ite, wp_pure]
            exact (registerBatch_still _ mints r₁).any fun _ _ => ⟨fun _ => trivial, fun _ => trivial⟩
      simp only [creditAdmitted, Writes, wp_bind, wp_ite, wp_pure, writes_mintSupply] at pays ⊢
      exact ⟨⟨fun _ => trivial, fun _ => pays r⟩, fun _ => ⟨fun _ => trivial, fun _ => pays r⟩,
        fun _ next _ => ⟨fun _ => trivial, fun _ => pays _⟩⟩

theorem burnMigrationBatch_still (entries : List MigrationEntry)
    : Still (burnMigrationBatch entries) := by
  intro r
  simp only [burnMigrationBatch, Writes, wp_bind, writes_rows]
  cases admitBatch validateBurns r entries with
  | error refusal => exact trivial
  | ok admitted =>
      have recorded (r : Rows) : PendKept r (recordBurned r admitted.2) :=
        (recordBurned_touches r admitted.2).pendKept rfl
      simp [recorded, burn]

theorem setSnapshot_still (rootHex : String) (qualifierTotal burnTotal : Int)
    : Still (setSnapshot rootHex qualifierTotal burnTotal) := by
  intro r
  have committed : PendKept r (commitSnapshot r rootHex qualifierTotal burnTotal) :=
    (commitSnapshot_touches r rootHex qualifierTotal burnTotal).pendKept rfl
  simp [setSnapshot, Writes, committed, burn]

theorem claimStake_still (ctx : Ctx) (staked : Int) : Still (claimStake ctx staked) := by
  intro r
  simp only [claimStake, Writes, wp_bind, writes_rows]
  cases newMigrationMint ctx.sender staked (genesisHeight r) with
  | none => exact trivial
  | some m =>
      simp only [wp_bind, wp_ite, wp_pure]
      refine ⟨fun _ => ?_, fun _ => trivial⟩
      refine (accrue_still ctx.height r).any fun b r' => ⟨fun _ => trivial, fun _ => ?_⟩
      refine (registerMints_still ctx.height [m] r').any fun ids r'' => ?_
      cases ids <;> exact trivial

theorem claimMigration_still (ctx : Ctx) (liquid staked : Int) (proofHex : List String)
    : Still (claimMigration ctx liquid staked proofHex) := by
  intro r
  simp only [claimMigration, Writes, wp_bind, writes_rows, wp_ite, wp_pure]
  refine ⟨fun _ => trivial, fun _ => ?_⟩
  cases r.migRoot with
  | none => exact trivial
  | some rootHex =>
      simp only [wp_ite, wp_pure]
      refine ⟨fun _ => trivial, fun _ => ⟨fun _ => trivial, fun _ => ⟨fun _ => trivial, fun _ =>
        ⟨fun _ => trivial, fun _ => ⟨fun _ => trivial, fun _ => ?_⟩⟩⟩⟩⟩
      cases addAmount (r.getAmount .migClaimed) (i64 (liquid + staked)) with
      | none => exact trivial
      | some next =>
          simp only [wp_bind, wp_ite, wp_pure]
          refine ⟨fun _ => trivial, fun _ => (claimStake_still ctx staked r).any fun settled r' => ?_⟩
          cases settled with
          | none => exact trivial
          | some settled =>
              have claimed (r : Rows)
                  : PendKept r (recordClaim r ctx.sender liquid staked next settled.2) :=
                (recordClaim_touches r ctx.sender liquid staked next settled.2).pendKept rfl
              simp [creditIfAny, claimed]

theorem recordBurn_still (account : String) (liquid staked : Int) (proofHex : List String)
    : Still (recordBurn account liquid staked proofHex) := by
  intro r
  simp only [recordBurn, Writes, wp_bind, writes_rows]
  cases r.migRoot with
  | none => exact trivial
  | some rootHex =>
      have recorded : PendKept r (r.setMigDone account (.burned liquid staked)) := rfl
      simp [recorded]

theorem sweepUnclaimed_still (ctx : Ctx) : Still (sweepUnclaimed ctx) := by
  intro r
  simp only [sweepUnclaimed, Writes, wp_bind, writes_rows, wp_ite, wp_pure]
  refine ⟨fun _ => trivial, fun _ => ⟨fun _ => trivial, fun _ => ⟨fun _ => trivial, fun _ => ?_⟩⟩⟩
  refine (accrue_still ctx.height r).any fun b r' => ⟨fun _ => trivial, fun _ => ?_⟩
  have recycled (r : Rows) (amt : Int) : PendKept r (recycle r amt) := (recycle_touches r amt).pendKept rfl
  have swept (r : Rows) : PendKept r r.setMigSwept := rfl
  simp [recycleRemainder, recycled, swept]

-----------------------------------------------------------------------------------------
-- Content
-----------------------------------------------------------------------------------------

theorem createContent_still (ctx : Ctx) (permlink : String) (window : Window) (mode : PayoutMode)
    (parentAuthor parentPermlink : String)
    : Still (createContent ctx permlink window mode parentAuthor parentPermlink) := by
  intro r
  have put (p : PostRec) : PendKept r (r.putPost ctx.sender permlink p) := rfl
  simp [createContent, Writes, put]

theorem createComment_still (ctx : Ctx) (permlink : String) (mode : PayoutMode)
    (parentAuthor parentPermlink : String)
    : Still (createComment ctx permlink mode parentAuthor parentPermlink) := by
  intro r
  simp only [createComment, Writes, wp_bind, writes_rows, wp_ite, wp_pure]
  exact ⟨fun _ => trivial, fun _ => ⟨fun _ => trivial, fun _ =>
    createContent_still ctx permlink .viral mode parentAuthor parentPermlink r⟩⟩

theorem registerForAuthor_still (ctx : Ctx) (author permlink : String)
    : Still (registerForAuthor ctx author permlink) := by
  intro r
  have put (p : PostRec) : PendKept r (r.putPost author permlink p) := rfl
  simp [registerForAuthor, Writes, put]

theorem promotePost_still (ctx : Ctx) (author permlink : String) (amt : Int)
    : Still (promotePost ctx author permlink amt) := by
  intro r
  simp only [promotePost, Writes, wp_bind, writes_rows, wp_ite, wp_pure]
  refine ⟨fun _ => trivial, fun _ => ?_⟩
  cases r.getPost author permlink with
  | none => exact trivial
  | some p =>
      have put (r : Rows) (p : PostRec) : PendKept r (r.putPost author permlink p) := rfl
      simp [burn, put]

theorem sweepCuration_still (ctx : Ctx) (author permlink : String)
    : Still (sweepCuration ctx author permlink) := by
  intro r
  simp only [sweepCuration, Writes, wp_bind, writes_rows]
  cases r.getPost author permlink with
  | none => exact trivial
  | some p =>
      simp only [wp_ite, wp_bind, wp_pure, writes_setRows]
      refine ⟨fun _ => trivial, fun _ => ⟨fun _ => trivial, fun _ => ⟨fun _ => trivial, fun _ =>
        ⟨?_, trivial⟩⟩⟩⟩
      have put (next : PostRec) : Touches [.posts] r (r.putPost author permlink next) :=
        (Touches.refl r).putPost author permlink next rfl
      exact (((put _).widen (by decide)).trans ((recycle_touches _ _).widen (by decide))
        : Touches [.posts, .lsharePool, .accumulator] r _).pendKept (by rfl)

theorem unvote_still (ctx : Ctx) (author permlink : String) : Still (unvote ctx author permlink) := by
  intro r
  simp only [unvote, Writes, wp_bind, writes_rows]
  cases r.getPost author permlink with
  | none => exact trivial
  | some p =>
      simp only [wp_ite, wp_pure]
      refine ⟨fun _ => trivial, fun _ => ?_⟩
      cases r.postVote (postVoteKey author permlink ctx.sender) with
      | none => exact trivial
      | some prev =>
          simp only [wp_bind, writes_setRows]
          exact ⟨rfl, trivial⟩

theorem openPost_still (ctx : Ctx) (author permlink : String)
    : Still (openPost ctx author permlink) := by
  intro r
  simp only [openPost, Writes, wp_bind, writes_rows]
  cases r.getPost author permlink with
  | some p => exact trivial
  | none =>
      simp only [wp_bind, wp_ite, wp_pure, writes_rows]
      refine (registerForAuthor_still ctx author permlink r).any fun reg r' => ⟨fun _ => trivial, fun _ => ?_⟩
      cases r'.getPost author permlink <;> exact trivial

-----------------------------------------------------------------------------------------
-- Rewards
-----------------------------------------------------------------------------------------

/-- A reward is one pending write, or none. -/
theorem payReward_rewards (ctx : Ctx) (account : String) {amount : Int} (word : amount < 2 ^ 63)
    (mode : PayoutMode)
    : Rewards ctx.epoch (payReward ctx account amount mode) := by
  intro r
  have owed (r : Rows) {amount : Int} (nonneg : 0 ≤ amount) (word : amount < 2 ^ 63)
      : PendWrite ctx.epoch r (accruePending r account amount ctx.epoch) :=
    .inr ⟨account, amount, nonneg, word, rfl⟩
  simp only [payReward, Writes, wp_ite, wp_pure]
  refine ⟨fun _ => trivial, fun positive => ?_⟩
  cases mode with
  | burn => exact (burn_still amount).rewards ctx.epoch r
  | powerUp =>
      simp only [wp_bind, writes_modify, wp_pure]
      exact ⟨owed r (by omega) word, trivial⟩
  | default =>
      obtain ⟨whole, liquid, pending⟩ := routePayout_add (not_le.mp positive) word
      simp only [wp_bind, writes_credit, wp_ite, wp_pure, writes_modify]
      exact ⟨fun _ => ⟨fun _ => trivial, fun _ => ⟨owed _ pending (by omega), trivial⟩⟩,
        fun _ => trivial, fun _ => ⟨owed _ pending (by omega), trivial⟩⟩

theorem payout_rewards (ctx : Ctx) (author permlink : String)
    : Rewards ctx.epoch (payout ctx author permlink) := by
  intro r
  simp only [payout, Writes, wp_bind, writes_rows, wp_ite, wp_pure]
  refine ⟨fun _ => trivial, fun _ => ?_⟩
  cases r.getPost author permlink with
  | none => exact trivial
  | some p =>
      simp only [wp_bind, writes_rows, wp_ite, wp_pure, writes_setRows]
      refine ⟨fun _ => trivial, fun _ => ⟨fun _ => trivial, fun _ => ?_⟩⟩
      refine ((settle_still ctx).rewards ctx.epoch r).any fun _ r' => ?_
      have put (next : PostRec)
          : PendWrite ctx.epoch r' ((claimPool r' p.window p.rshares).2.putPost author permlink next) :=
        .inl ((claimPool_touches r' p.window p.rshares).pendKept rfl)
      refine ⟨fun _ => ⟨put _, trivial⟩, fun _ => ⟨put _, ?_⟩⟩
      exact (payReward_rewards ctx author (i64_mem _).2 p.mode _).any fun _ _ =>
        ⟨fun _ => trivial, fun _ => trivial⟩

theorem claimCuration_rewards (ctx : Ctx) (author permlink curator : String)
    : Rewards ctx.epoch (claimCuration ctx author permlink curator) := by
  intro r
  have quiet (x : Rows) (same : x.pend = r.pend) : PendWrite ctx.epoch r x := .inl same
  simp only [claimCuration, Writes, wp_bind, writes_rows]
  generalize (if curator = "" then ctx.sender else curator) = payee
  cases r.getPost author permlink with
  | none => exact trivial
  | some p =>
      dsimp only
      split
      · exact trivial
      simp only [wp_ite, wp_pure]
      refine ⟨fun _ => trivial, fun left => ?_⟩
      cases r.postVote (postVoteKey author permlink payee) with
      | none => exact trivial
      | some mine =>
          simp only [wp_ite, wp_bind, wp_pure, writes_setRows]
          refine ⟨fun _ => ⟨quiet _ rfl, trivial⟩, fun cast => ⟨fun _ => ⟨quiet _ rfl, trivial⟩, fun _ =>
            ⟨quiet _ rfl, ?_⟩⟩⟩
          have word : (mulDiv p.curatorPot mine p.curatorRshares).getD 0 < 2 ^ 63 :=
            (mulDiv_word (by omega) (by omega) (by omega)).2
          exact (payReward_rewards ctx payee word .default _).any fun _ _ =>
            ⟨fun _ => trivial, fun _ => trivial⟩

/-- The scan rewards claim by claim, by induction on the slots to go. -/
theorem drainScan_rewards (ctx : Ctx) (account : String) (togo n : Nat)
    : Rewards ctx.epoch (drainScan ctx account togo n) := by
  induction togo generalizing n with
  | zero => exact fun r => trivial
  | succ togo ih =>
      intro r
      have cleared (r : Rows) : PendWrite ctx.epoch r (r.setCuration account n none) := .inl rfl
      unfold drainScan
      simp only [Writes, wp_bind, writes_rows]
      cases r.curation (account, n) with
      | none => exact ih (n + 1) r
      | some claim =>
          dsimp only
          cases r.getPost claim.1 claim.2 with
          | none =>
              simp only [wp_bind, writes_modify]
              exact ⟨cleared r, ih (n + 1) _⟩
          | some p =>
              simp only [wp_ite, wp_bind, writes_modify, wp_pure]
              refine ⟨fun _ => ih (n + 1) r, fun _ => ?_⟩
              refine (claimCuration_rewards ctx claim.1 claim.2 account r).any fun _ r' => ?_
              exact ⟨cleared r', (ih (n + 1) _).any fun _ _ => trivial⟩

theorem drainCuration_rewards (ctx : Ctx) (account : String) (limit : Nat)
    : Rewards ctx.epoch (drainCuration ctx account limit) := by
  intro r
  simp only [drainCuration, Writes, wp_bind, writes_rows, writes_modify, wp_pure]
  exact (drainScan_rewards ctx account _ _ r).any fun _ r' =>
    ⟨.inl ((advanceHead_touches account _ _ r').pendKept (by rfl)), trivial⟩

theorem vote_rewards (ctx : Ctx) (author permlink : String) (weightPct : Int)
    : Rewards ctx.epoch (vote ctx author permlink weightPct) := by
  intro r
  simp only [vote, Writes, wp_bind, writes_rows, wp_ite, wp_pure]
  refine ⟨fun _ => trivial, fun _ => ⟨fun _ => trivial, fun _ => ⟨fun _ =>
    (unvote_still ctx author permlink).rewards ctx.epoch r, fun _ => ?_⟩⟩⟩
  refine ((openPost_still ctx author permlink).rewards ctx.epoch r).any fun opened r' => ?_
  cases opened with
  | error refusal => exact trivial
  | ok p =>
      simp only [wp_bind, writes_rows, wp_ite, wp_pure]
      refine ⟨fun _ => trivial, fun _ => ⟨fun _ => trivial, fun _ => ?_⟩⟩
      cases (r'.getVotePower ctx.sender p.window).spend p.window ctx.height weightPct with
      | none => exact trivial
      | some power =>
          simp only [wp_ite, wp_bind, wp_pure, writes_setRows]
          refine ⟨fun _ => trivial, fun _ => ⟨.inl ?_, ?_⟩⟩
          · exact (writeVote_touches r' ctx author permlink p _ power).pendKept (by rfl)
          exact (drainCuration_rewards ctx ctx.sender piggybackDrain _).any fun _ _ => trivial

-----------------------------------------------------------------------------------------
-- Operations
-----------------------------------------------------------------------------------------

/-- Every operation but the monthly mint only rewards, by cases on the action. -/
theorem Action.program_rewards (ctx : Ctx) (action : Action) {p : Op Result}
    (program : action.program ctx = some p) (other : ∀ account, action ≠ .settlePending account)
    : Rewards ctx.epoch p := by
  cases action <;> cases program
  case transfer recipient amt => exact (transfer_still ctx recipient amt.toInt).rewards _
  case burnLiquid amt => exact (burnLiquid_still ctx amt.toInt).rewards _
  case fundPool target amt => exact (fundPool_still ctx target amt.toInt).rewards _
  case settle => exact (settle_still ctx).rewards _
  case advance maxDays => exact (advance_still ctx maxDays.toInt).rewards _
  case createMint principal days =>
      exact (createMint_still ctx principal.toInt days.toInt).rewards _
  case claimMint id => exact (endMint_still ctx ctx.sender id.toNat false).rewards _
  case sweepMint owner id => exact (endMint_still ctx owner id.toNat true).rewards _
  case armGoodAccounting id => exact (armGoodAccounting_still ctx id.toNat).rewards _
  case setMintDuration days => exact (setMintDuration_still ctx days.toInt).rewards _
  case promote account => exact (promote_still account).rewards _
  case setPreference key value => exact (setPreference_still ctx key value.toInt).rewards _
  case createPost permlink window mode =>
      exact (createContent_still ctx permlink window mode "" "").rewards _
  case createComment permlink mode parentAuthor parentPermlink =>
      exact (createComment_still ctx permlink mode parentAuthor parentPermlink).rewards _
  case vote author permlink weightPct => exact vote_rewards ctx author permlink weightPct.toInt
  case promotePost author permlink amt =>
      exact (promotePost_still ctx author permlink amt.toInt).rewards _
  case payout author permlink => exact payout_rewards ctx author permlink
  case claimCuration author permlink curator =>
      exact claimCuration_rewards ctx author permlink curator
  case sweepCuration author permlink => exact (sweepCuration_still ctx author permlink).rewards _
  case settlePending account => exact absurd rfl (other account)
  case addLiquidity lcIn maxHbd => exact (addLiquidity_still ctx lcIn.toInt maxHbd.toInt).rewards _
  case removeLiquidity id => exact (closeTranche_still ctx ctx.sender id.toNat).rewards _
  case sweepTranche owner id => exact (sweepTranche_still ctx owner id.toNat).rewards _
  case claimPoolRewards id => exact (claimPoolRewards_still ctx id.toNat).rewards _
  case swapLCForHBD lcIn minOut => exact (swapLCForHBD_still ctx lcIn.toInt minOut.toInt).rewards _
  case swapHBDForLC hbdIn minOut =>
      exact (swapHBDForLC_still ctx hbdIn.toInt minOut.toInt).rewards _
  case creditMigration account liquid staked =>
      exact (creditMigration_still account liquid.toInt staked.toInt).rewards _
  case creditMigrationBatch entries => exact (creditMigrationBatch_still _).rewards _
  case burnMigrationBatch entries => exact (burnMigrationBatch_still _).rewards _
  case setSnapshot root q b => exact (setSnapshot_still root q.toInt b.toInt).rewards _
  case claimMigration liquid staked proofHex =>
      exact (claimMigration_still ctx liquid.toInt staked.toInt proofHex).rewards _
  case recordBurn account liquid staked proofHex =>
      exact (recordBurn_still account liquid.toInt staked.toInt proofHex).rewards _
  case sweepUnclaimed => exact (sweepUnclaimed_still ctx).rewards _

end LasseCash.State
