import LasseCash.State.MintHistory

/-! Every operation keeps the past. Those that are neither a migration nor about content are
steady: they also leave the migration's rows and all posts and votes alone.
-/

namespace LasseCash.State

open Engine MachineInt Function Program

variable {r : Rows}

-----------------------------------------------------------------------------------------
-- Accrual and funding
-----------------------------------------------------------------------------------------

theorem accrue_walked (ctx : Ctx) : (accrue ctx.height).Always rowsMay (Walked ctx.height r) r :=
  accrueWalk_walked r ctx.height _ _ (.inl ctx.height_lt)

theorem settle_steady (ctx : Ctx)
    : (settle ctx).Always rowsMay (fun _ r' => Steady r r') r := by
  simp only [settle, always_bind, always_rows, always_ite, always_pure]
  refine ⟨fun _ => .refl r, fun _ => ?_⟩
  exact always_mono (fun _ _ h => by simp [h.steady]) (accrue_walked ctx)

theorem advance_steady (ctx : Ctx) (maxDays : Int)
    : (advance ctx maxDays).Always rowsMay (fun _ r' => Steady r r') r := by
  simp only [advance, accrueSteps, always_bind, always_ite, always_pure]
  exact always_mono (fun _ _ h => by simp [h.steady])
    (accrueWalk_walked r ctx.height _ _ (.inl ctx.height_lt))

theorem fundPool_steady (ctx : Ctx) (target : String) (amt : Int)
    : (fundPool ctx target amt).Always rowsMay (fun _ r' => Steady r r') r := by
  have funded := ((Aside.refl r).fundTarget target amt).steady
  simp [fundPool, Steady.refl, funded]

-----------------------------------------------------------------------------------------
-- Transfers, burns and settings
-----------------------------------------------------------------------------------------

theorem credit_steady (account : String) (amt : Int)
    : (credit account amt).Always rowsMay (fun _ r' => Steady r r') r := by
  simp [Steady.refl, ((Aside.refl r).noteAccount account).steady]

theorem burn_steady (amt : Int) : (burn amt).Always rowsMay (fun _ r' => Steady r r') r := by
  simp only [burn, always_ite, always_pure]
  exact ⟨fun _ => .refl r, fun _ => credit_steady burnAccount amt⟩

theorem transfer_steady (ctx : Ctx) (recipient : String) (amt : Int)
    : (transfer ctx recipient amt).Always rowsMay (fun _ r' => Steady r r') r := by
  have noted (account : String) := ((Aside.refl r).noteAccount account).steady
  simp [transfer, Steady.refl, noted]

theorem burnLiquid_steady (ctx : Ctx) (amt : Int)
    : (burnLiquid ctx amt).Always rowsMay (fun _ r' => Steady r r') r := by
  simp only [burnLiquid, always_bind, always_ite, always_pure, always_debit]
  refine ⟨fun _ => .refl r, fun _ => ⟨fun _ => .refl r, fun _ b => ⟨fun _ => .refl r, fun _ => ?_⟩⟩⟩
  exact always_mono (fun _ _ h => by simp [h]) (burn_steady amt)

theorem setMintDuration_steady (ctx : Ctx) (days : Int)
    : (setMintDuration ctx days).Always rowsMay (fun _ r' => Steady r r') r := by
  simp [setMintDuration, Steady.refl, ((Aside.refl r).setDuration ctx.sender days).steady]

theorem promote_steady (account : String)
    : (promote account).Always rowsMay (fun _ r' => Steady r r') r := by
  simp [promote, Steady.refl, ((Aside.refl r).offer account).steady]

theorem setPreference_steady (ctx : Ctx) (key : String) (value : Int)
    : (setPreference ctx key value).Always rowsMay (fun _ r' => Steady r r') r := by
  simp only [setPreference, always_bind, always_rows]
  cases registryParam key with
  | none => exact .refl r
  | some k => simp [Steady.refl, ((Aside.refl r).setPreference k ctx.sender value).steady]

-----------------------------------------------------------------------------------------
-- Mints
-----------------------------------------------------------------------------------------

theorem registerMints_steady (height : Nat) (mints : List Mint)
    (word : height < 2 ^ 64 ∨ height ≤ genesisHeight r)
    : (registerMints height mints).Always rowsMay (fun _ r' => Steady r r') r := by
  simp only [registerMints, always_bind, always_ite, always_pure, always_rows, always_setRows]
  refine always_mono (fun b r₁ h => ?_) (accrueWalk_walked r height _ _ word)
  exact ⟨fun _ => h.steady, fun _ => h.steady.trans (enterMints_steady r₁ mints)⟩

theorem createMint_steady (ctx : Ctx) (principal days : Int)
    : (createMint ctx principal days).Always rowsMay (fun _ r' => Steady r r') r := by
  simp only [createMint, always_bind, always_rows, always_ite, always_pure, always_balance]
  refine ⟨fun _ => .refl r, fun _ => ⟨fun _ => .refl r, fun _ => ⟨fun _ => .refl r, fun _ n =>
    ⟨fun _ => .refl r, fun _ => ?_⟩⟩⟩⟩
  refine always_mono (fun b r₁ h => ⟨fun _ => h.steady, fun _ => ?_⟩) (accrue_walked ctx)
  cases newMint ctx.sender principal days ctx.height (mintParamsNow r₁ ctx.height) with
  | none => exact h.steady
  | some m =>
      simp only [always_bind, always_debit, always_ite, always_pure]
      refine fun b => ⟨fun _ => h.steady, fun _ => ?_⟩
      refine always_mono (fun ids r₂ h₂ => ?_)
        (registerMints_steady ctx.height [m] (.inl ctx.height_lt))
      cases ids <;> exact h.steady.trans h₂

/-- A found mint carries the owner it was looked up under. -/
theorem getMint_owner {account : String} {id : Nat} {m : Mint}
    (found : r.getMint account id = some m)
    : m.owner = account := by
  obtain ⟨m₀, _, rfl⟩ := Option.map_eq_some_iff.mp found
  rfl

theorem endMint_steady (ctx : Ctx) (owner : String) (id : Nat) (sweep : Bool)
    : (endMint ctx owner id sweep).Always rowsMay (fun _ r' => Steady r r') r := by
  simp only [endMint, always_bind, always_rows, always_ite, always_pure]
  refine ⟨fun _ => .refl r, fun _ => ?_⟩
  cases found : r.getMint owner id with
  | none => exact .refl r
  | some m =>
      simp only [always_bind, always_rows, always_ite, always_pure]
      refine ⟨fun _ => .refl r, fun _ => ?_⟩
      refine always_mono (fun b r₁ h => ?_) (accrue_walked ctx)
      have found₁ : r₁.getMint owner id = some m := by
        rw [Rows.getMint, h.mint]
        exact found
      cases accEndOf r₁ m ctx.height with
      | none => exact h.steady
      | some accEnd =>
          have closed := h.steady.trans (closeMint_steady (accruedYield r₁ m accEnd) found₁)
          have noted := closed.trans ((Aside.refl _).noteAccount owner).steady
          have recycled (amt : Int) := closed.trans ((Aside.refl _).recycle amt).steady
          have both (amt : Int) := noted.trans ((Aside.refl _).recycle amt).steady
          simp [endMint.payOwner, h.steady, closed, recycled, both]

theorem armGoodAccounting_steady (ctx : Ctx) (id : Nat)
    : (armGoodAccounting ctx id).Always rowsMay (fun _ r' => Steady r r') r := by
  simp only [armGoodAccounting, always_bind, always_rows]
  cases found : r.getMint ctx.sender id with
  | none => exact .refl r
  | some m =>
      have armed : Steady r (r.putMint id { m with goodAccounting := true }) :=
        putMint_steady found (getMint_owner found :) ⟨rfl, rfl, rfl, rfl, rfl, rfl, fun h => h⟩
      simp [Steady.refl, armed]

-----------------------------------------------------------------------------------------
-- The liquidity pool
-----------------------------------------------------------------------------------------

theorem settleTranche_steady (ctx : Ctx) (owner : String) (id : Nat)
    : (settleTranche ctx owner id).Always rowsMay (fun _ r' => Steady r r') r := by
  simp only [settleTranche, always_bind, always_rows]
  cases r.getTranche owner id with
  | none => exact .refl r
  | some t =>
      simp only [always_ite, always_pure, always_bind, always_rows, always_setRows]
      refine ⟨fun _ => .refl r, fun _ => ?_⟩
      refine always_mono (fun _ r₁ settled => ?_) (settle_steady ctx)
      have weighed (next : Tranche) := (Aside.refl r₁).syncPoolAccumulator.reweigh id t next
      have kept (next : Tranche) := settled.trans (weighed next).steady
      have taken (next : Tranche) (owed : Int) :=
        settled.trans ((weighed next).takeReward owed).steady
      have noted (next : Tranche) (owed : Int) :=
        settled.trans (((weighed next).takeReward owed).noteAccount owner).steady
      simp [kept, taken, noted]

theorem claimPoolRewards_steady (ctx : Ctx) (id : Nat)
    : (claimPoolRewards ctx id).Always rowsMay (fun _ r' => Steady r r') r := by
  simp only [claimPoolRewards, always_bind]
  refine always_mono (fun settled r₁ h => ?_) (settleTranche_steady ctx ctx.sender id)
  rcases settled with ⟨_ | t, res⟩
  · exact h
  · have touched (next : Tranche) := h.trans ((Aside.refl r₁).putTranche id next).steady
    simp [h, touched]

theorem addLiquidity_steady (ctx : Ctx) (lcIn maxHbd : Int)
    : (addLiquidity ctx lcIn maxHbd).Always rowsMay (fun _ r' => Steady r r') r := by
  simp only [addLiquidity, always_bind, always_rows, always_ite, always_pure, always_balance]
  refine ⟨fun _ => .refl r, fun _ => ⟨fun _ => .refl r, fun _ _ => ⟨fun _ => .refl r, fun _ => ?_⟩⟩⟩
  cases hbdForDeposit r lcIn maxHbd with
  | error refusal => exact .refl r
  | ok hbdIn =>
      simp only [always_bind, always_rows, always_ite, always_pure, always_draw, always_debit,
        always_modify, always_setRows]
      refine ⟨fun _ => .refl r, fun _ _ => ⟨fun _ => .refl r, fun _ _ => ⟨fun _ => .refl r,
        fun _ => ?_⟩⟩⟩
      refine always_mono (fun _ r₁ settled => ?_) (settle_steady ctx)
      have deposited := (((Aside.refl r).setAmount .poolLC (i64 (r.getAmount .poolLC + lcIn)) rfl).setAmount
        .poolHBD (i64 (r.getAmount .poolHBD + hbdIn)) rfl).setAmount .poolShares
          (i64 (r.getAmount .poolShares
            + (lpSharesFor lcIn (r.getAmount .poolLC) (r.getAmount .poolShares)).getD 0)) rfl
      have opened (shares acc : Int) :=
        ((Aside.refl r₁).syncPoolAccumulator.openTranche ctx shares acc).steady
      exact (deposited.steady.trans settled).trans (opened _ _)

theorem payHbd_steady (owner : String) (hbdOut : Int)
    : (payHbd owner hbdOut).Always rowsMay (fun _ r' => r' = r) r := by
  simp [payHbd]

theorem closeTranche_steady (ctx : Ctx) (owner : String) (id : Nat)
    : (closeTranche ctx owner id).Always rowsMay (fun _ r' => Steady r r') r := by
  simp only [closeTranche, always_bind, always_rows]
  cases r.getTranche owner id with
  | none => exact .refl r
  | some t =>
      simp only [always_bind, always_rows, always_ite, always_pure]
      refine ⟨fun _ => .refl r, fun _ => ?_⟩
      refine always_mono (fun _ r₁ settled => ?_) (settleTranche_steady ctx owner id)
      cases r₁.getTranche owner id with
      | none => exact settled
      | some t =>
          dsimp only
          cases withdrawAmounts t.shares (r₁.getAmount .poolShares) (r₁.getAmount .poolLC)
              (r₁.getAmount .poolHBD) with
          | none => exact settled
          | some out =>
              obtain ⟨lcOut, hbdOut⟩ := out
              simp only [always_bind]
              refine always_mono (fun paid r₂ same => ?_) (payHbd_steady owner hbdOut)
              subst same
              cases paid with
              | none => exact settled
              | some paid =>
                  have taken := (Aside.refl r₂).takeFromPool t lcOut paid
                  have kept := settled.trans taken.steady
                  have closed (next : Tranche) :=
                    settled.trans (taken.putTranche id next).steady
                  have both (next : Tranche) :=
                    settled.trans ((taken.noteAccount owner).putTranche id next).steady
                  simp [kept, closed, both]

theorem sweepTranche_steady (ctx : Ctx) (owner : String) (id : Nat)
    : (sweepTranche ctx owner id).Always rowsMay (fun _ r' => Steady r r') r := by
  simp only [sweepTranche, always_bind, always_rows]
  cases r.getTranche owner id with
  | none => exact .refl r
  | some t => simp [Steady.refl, closeTranche_steady]

theorem swapLCForHBD_steady (ctx : Ctx) (lcIn minOut : Int)
    : (swapLCForHBD ctx lcIn minOut).Always rowsMay (fun _ r' => Steady r r') r := by
  simp only [swapLCForHBD, always_bind, always_rows, always_ite, always_pure, always_balance]
  refine ⟨fun _ => .refl r, fun _ _ => ⟨fun _ => .refl r, fun _ => ?_⟩⟩
  cases swapOut (r.getAmount .poolLC) (r.getAmount .poolHBD) lcIn with
  | none => exact .refl r
  | some out =>
      have moved (lc hbd : Int) :=
        (((Aside.refl r).setAmount .poolLC lc rfl).setAmount .poolHBD hbd rfl).steady
      have noted := ((Aside.refl r).noteAccount ctx.sender).steady
      simp [Steady.refl, moved, noted]

theorem swapHBDForLC_steady (ctx : Ctx) (hbdIn minOut : Int)
    : (swapHBDForLC ctx hbdIn minOut).Always rowsMay (fun _ r' => Steady r r') r := by
  simp only [swapHBDForLC, always_bind, always_rows, always_ite, always_pure]
  refine ⟨fun _ => .refl r, fun _ => ?_⟩
  cases swapOut (r.getAmount .poolHBD) (r.getAmount .poolLC) hbdIn with
  | none => exact .refl r
  | some out =>
      have moved (hbd lc : Int) := ((Aside.refl r).setAmount .poolHBD hbd rfl).setAmount .poolLC lc rfl
      have kept (hbd lc : Int) := (moved hbd lc).steady
      have noted (hbd lc : Int) := ((moved hbd lc).noteAccount ctx.sender).steady
      simp [Steady.refl, kept, noted]

end LasseCash.State
