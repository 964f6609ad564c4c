import LasseCash.State.Footprints
import LasseCash.State.Steps

/-! Every operation moves the rows by steps: ledger, accrual, mints and settings. -/

namespace LasseCash.State

open Engine MachineInt Program

-----------------------------------------------------------------------------------------
-- Chains
-----------------------------------------------------------------------------------------

/-- (Moves o r r') says that whole steps of `o` lead from `r` to `r'`. -/
def Moves (o : Origin) (r r' : Rows) : Prop := ∀ whole, Steps o whole r r'

section Chains

variable {o : Origin} {r r₁ r₂ : Rows}

theorem Moves.refl (r : Rows) : Moves o r r := fun _ => .refl

theorem Moves.trans (h : Moves o r r₁) (h' : Moves o r₁ r₂) : Moves o r r₂ :=
  fun whole => (h whole).trans (h' whole)

theorem Moves.step (h : Moves o r r₁) (s : ∀ whole, Step o whole r₁ r₂) : Moves o r r₂ :=
  fun whole => (h whole).tail (s whole)

theorem Moves.note (h : Moves o r r₁) (account : String) : Moves o r (noteAccount r₁ account) :=
  h.step fun _ => .ledger <| .note account

theorem Moves.recycle (h : Moves o r r₁) (amt : Int) : Moves o r (recycle r₁ amt) :=
  h.step fun _ => .ledger <| .recycle amt

/-- A footprint without the supply keeps the supply. -/
theorem Touches.sameSupply {sides : List Side} (h : Touches sides r r₁)
    (away : sides.contains .supply = false)
    (unrolled : sides.contains .roll = false)
    : SameSupply r r₁ :=
  ⟨h.amount .migrated away, h.amount .emitted away, fun account there => by
    rwa [(h .seen unrolled : r₁.seen = r.seen)]⟩

theorem SameSupply.trans (h : SameSupply r r₁) (h' : SameSupply r₁ r₂) : SameSupply r r₂ :=
  ⟨h'.migrated.trans h.migrated, h'.emitted.trans h.emitted, fun a there => h'.seen a (h.seen a there)⟩

/-- Noting an account forgets nobody. -/
theorem noteAccount_seen (r : Rows) (account other : String) (there : r.seen other = true)
    : (noteAccount r account).seen other = true := by
  unfold noteAccount
  split_ifs
  · exact there
  · exact there
  · simp only [Rows.appendAccount_seen, Function.update_apply]
    split
    · rfl
    · exact there

/-- Storing mints forgets nobody, by induction on them. -/
theorem storeMints_seen (r : Rows) (stamped : List (Nat × Mint)) (other : String)
    (there : r.seen other = true)
    : (storeMints r stamped).seen other = true := by
  induction stamped generalizing r with
  | nil => exact there
  | cons e rest ih => exact ih _ (noteAccount_seen _ e.2.owner other there)

/-- Entering mints leaves the supply, and notes their owners. -/
theorem enterMints_sameSupply (r : Rows) (mints : List Mint) : SameSupply r (enterMints r mints).1 := by
  obtain ⟨r₁, stamped, touched, stored⟩ := enterMints_stores r mints
  rw [stored]
  have kept : Touches entrySides r _ := storeMints_touches (touched.widen (by decide)) stamped rfl rfl
  exact ⟨kept.amount .migrated rfl, kept.amount .emitted rfl, fun account there =>
    storeMints_seen r₁ stamped account ((touched.sameSupply rfl rfl).seen account there)⟩

/-- What an operation asks and what it does on any ledger hold together. -/
theorem Asks.and_always {α : Type} {p : Op α} {Q Q' : α → Rows → Prop}
    (asks : Asks o p Q r) (always : p.Always rowsMay Q' r)
    : Asks o p (fun value r' => Q value r' ∧ Q' value r') r :=
  @wp_always _ _ _ _ _ _ _ _ id (fun _ _ _ _ moved => moved.1) _ _ _ _ asks always

end Chains

variable {o : Origin} {r : Rows}

-----------------------------------------------------------------------------------------
-- Accrual
-----------------------------------------------------------------------------------------

/-- What accrual writes. -/
abbrev accrualSides : List Side :=
  [.supply, .contentPools, .liquidityPool, .lsharePool, .accumulator, .shares, .calendar,
    .schedule, .checkpoints]

theorem Accrues.touches {height : Nat} {r' : Rows} (h : Accrues height r r')
    : Touches accrualSides r r' := by
  cases h with
  | idle => exact .refl r
  | stalled maxDays budget behind due => exact (callWalk_touches r height maxDays budget).widen (by decide)
  | booked maxDays budget behind due next sum =>
      have walked : Touches accrualSides r (callWalk r height maxDays budget).rows :=
        (callWalk_touches r height maxDays budget).widen (by decide)
      exact ((walked.setAmount .emitted next rfl).trans ((creditPools_touches _ _).widen (by decide))).trans
        ((commit_touches _ _).widen (by decide))
  | flat maxDays budget behind none_due =>
      have walked : Touches accrualSides r (callWalk r height maxDays budget).rows :=
        (callWalk_touches r height maxDays budget).widen (by decide)
      exact walked.trans ((commit_touches _ _).widen (by decide))

/-- A walk accrues, by cases on whether it has a day to walk and an emission to mint. -/
theorem accrueWalk_asks (o : Origin) (height : Nat) (maxDays : Int) (budget : Nat)
    : Asks o (accrueWalk height maxDays budget)
      (fun _ r' => Accrues height r r' ∧ (o.sure → Strides height r r')) r := by
  simp only [accrueWalk, Asks, wp_bind, asks_rows, wp_ite, wp_pure, asks_setRows]
  refine ⟨fun _ => ⟨.idle, fun _ => .idle⟩, fun late => ?_⟩
  have behind := not_le.mp late
  have walk : Walk.days (schedule r)
      (min (if maxDays ≤ 0 ∨ maxDays > maxAccrualDays then maxAccrualDays else maxDays.toNat)
        (dayOf r height - accruedDays r)) (.start r budget)
      = callWalk r height maxDays budget := rfl
  simp only [walk]
  have stalled := Accrues.stalled maxDays budget behind
  have booked := Accrues.booked maxDays budget behind
  have flat := Accrues.flat maxDays budget behind
  have overflown := Strides.overflown maxDays budget behind
  have striding := Strides.booked maxDays budget behind
  have strolling := Strides.flat maxDays budget behind
  have walked := callWalk_touches r height maxDays budget
  have word := callWalk_emitted_lt r height maxDays budget
  generalize callWalk r height maxDays budget = v at *
  refine ⟨(walked.sameSupply rfl rfl), ?_⟩
  simp only [issueEmission, wp_ite, wp_bind, asks_mintSupply, wp_pure, asks_modify]
  have credited (r₁ : Rows) := (creditPools_touches v r₁).sameSupply rfl rfl
  have committed (r₁ : Rows) := (commit_touches v r₁).sameSupply rfl rfl
  refine ⟨fun due => ⟨⟨.inr trivial, word⟩, ?_, ?_, ?_⟩, fun none_due => ?_⟩
  · intro unfit
    simpa using ⟨stalled due, fun sure => overflown (unfit sure due)⟩
  · intro zero
    omega
  · intro _ next sum
    simpa [credited, committed] using ⟨booked due next sum, fun _ => striding due next sum⟩
  · simpa [committed] using ⟨flat (not_lt.mp none_due), fun _ => strolling (not_lt.mp none_due)⟩

/-- The walk of a transaction: it has caught up when it says so. -/
theorem accrue_asks (o : Origin)
    : Asks o (accrue o.ctx.height)
      (fun caughtUp r' => (Accrues o.ctx.height r r' ∧ (o.sure → Strides o.ctx.height r r'))
        ∧ (caughtUp = true → dayOf r' o.ctx.height ≤ accruedDays r')) r :=
  ((accrueWalk_asks o o.ctx.height _ _).and_always (accrue_walked o.ctx)).mono
    fun _ _ h => ⟨h.1, h.2.caught⟩

/-- A current walk does nothing. -/
theorem accrue_current (o : Origin) {height : Nat} (current : dayOf r height ≤ accruedDays r)
    : Asks o (accrue height) (fun caughtUp r' => caughtUp = true ∧ r' = r) r := by
  simp only [accrue, accrueWalk, Asks, wp_bind, asks_rows, wp_ite, wp_pure]
  exact ⟨fun _ => by simp, fun behind => absurd current behind⟩

theorem settle_asks (o : Origin)
    : Asks o (settle o.ctx)
      (fun _ r' => Accrues o.ctx.height r r' ∧ (o.sure → Strides o.ctx.height r r')) r := by
  simp only [settle, Asks, wp_bind, asks_rows, wp_ite, wp_pure]
  exact ⟨fun _ => ⟨.idle, fun _ => .idle⟩, fun _ => (accrue_asks o).mono fun _ _ h =>
    ⟨fun _ => h.1, fun _ => h.1⟩⟩

theorem settle_moves : Asks o (settle o.ctx) (fun _ r' => Moves o r r') r :=
  (settle_asks o).mono fun _ _ h => (Moves.refl r).step fun _ => .ledger <| .accrue h.1 h.2

theorem advance_moves (maxDays : Int)
    : Asks o (advance o.ctx maxDays) (fun _ r' => Moves o r r') r := by
  simp only [advance, accrueSteps, Asks, wp_bind, wp_ite, wp_pure]
  refine (accrueWalk_asks o o.ctx.height maxDays _).mono fun _ _ h => ?_
  have moved : Moves o r _ := (Moves.refl r).step fun _ => .ledger <| .accrue h.1 h.2
  exact ⟨fun _ => moved, fun _ => moved⟩

-----------------------------------------------------------------------------------------
-- Transfers, burns and donations
-----------------------------------------------------------------------------------------

theorem transfer_moves (recipient : String) (amt : Int)
    : Asks o (transfer o.ctx recipient amt) (fun _ r' => Moves o r r') r := by
  have noted (account : String) : Moves o r (noteAccount r account) := (Moves.refl r).note account
  simp [transfer, Moves.refl, noted]

theorem burn_moves (o : Origin) (amt : Int)
    : Asks o (burn amt) (fun _ r' => Moves o r r') r := by
  simp [burn, Moves.refl, (Moves.refl r).note burnAccount]

theorem burnLiquid_moves (amt : Int)
    : Asks o (burnLiquid o.ctx amt) (fun _ r' => Moves o r r') r := by
  simp only [burnLiquid, Asks, wp_bind, wp_ite, wp_pure, asks_debit, true_and]
  refine ⟨fun _ => .refl r, fun _ => ⟨fun _ => .refl r, fun _ b => ⟨fun _ => .refl r, fun _ => ?_⟩⟩⟩
  exact (burn_moves o amt).mono fun _ _ h => ⟨fun _ => h, fun _ => h⟩

theorem fundPool_moves (target : String) (amt : Int64) (asked : o.action = .fundPool target amt)
    : Asks o (fundPool o.ctx target amt.toInt)
      (fun res r' => Steps o (res.ok = true) o.start r') o.start := by
  simp only [fundPool, Asks, wp_bind, asks_rows, wp_ite, wp_pure, asks_debit, true_and, asks_modify]
  refine ⟨fun _ => .refl, fun _ => ⟨fun _ => .refl, fun positive => ⟨fun _ => .refl, fun _ =>
    ⟨fun _ => .refl, fun _ b => ⟨fun _ => .refl, fun _ => ?_⟩⟩⟩⟩⟩
  exact ⟨((fundTarget_touches o.start target amt.toInt).sameSupply rfl rfl),
    .single <| .ledger <| .fund rfl target amt asked rfl (by omega)⟩

-----------------------------------------------------------------------------------------
-- Settings
-----------------------------------------------------------------------------------------

theorem setMintDuration_moves (days : Int)
    : Asks o (setMintDuration o.ctx days) (fun _ r' => Moves o r r') r := by
  have written : Touches [.settings] r (r.setDuration o.ctx.sender days) :=
    (Touches.refl r).setDuration _ _ (by rfl)
  simp only [setMintDuration, Asks, wp_bind, wp_ite, wp_pure, asks_modify]
  exact ⟨fun _ => .refl r, fun _ => ⟨(written.sameSupply rfl rfl),
    (Moves.refl r).step fun _ => .ledger <| .span days⟩⟩

theorem promote_moves (account : String)
    : Asks o (promote account) (fun _ r' => Moves o r r') r := by
  have seated : Touches [.board] r (offer r account) := (Touches.refl r).offer account rfl
  simp only [promote, Asks, wp_bind, asks_rows, wp_ite, wp_pure, asks_setRows]
  exact ⟨fun _ => .refl r, fun _ => ⟨fun _ => .refl r, fun _ =>
    ⟨(seated.sameSupply rfl rfl), (Moves.refl r).step fun _ => .ledger <| .seat account⟩⟩⟩

theorem setPreference_moves (key : String) (value : Int)
    : Asks o (setPreference o.ctx key value) (fun _ r' => Moves o r r') r := by
  simp only [setPreference, Asks, wp_bind, asks_rows]
  cases registryParam key with
  | none => exact .refl r
  | some k =>
      have written : Touches [.settings] r (r.setPreference k o.ctx.sender value) :=
        (Touches.refl r).setPreference _ _ _ (by rfl)
      simp only [wp_bind, wp_ite, wp_pure, asks_setRows]
      exact ⟨fun _ => .refl r, fun _ => ⟨fun _ => .refl r, fun _ =>
        ⟨(written.sameSupply rfl rfl), (Moves.refl r).step fun _ => .ledger <| .prefer k value⟩⟩⟩

-----------------------------------------------------------------------------------------
-- Mints
-----------------------------------------------------------------------------------------

/-- Registering mints while the walk is current enters them. -/
theorem registerMints_asks (o : Origin) {height : Nat} (mints : List Mint)
    (current : dayOf r height ≤ accruedDays r)
    : Asks o (registerMints height mints)
      (fun ids r' => ids.isSome = true ∧ r' = (enterMints r mints).1) r := by
  simp only [registerMints, Asks, wp_bind, wp_ite, wp_pure, asks_rows, asks_setRows]
  refine (accrue_current o current).mono fun b r₁ h => ?_
  obtain ⟨rfl, rfl⟩ := h
  exact ⟨of_refused, fun _ => ⟨enterMints_sameSupply r₁ mints, rfl, rfl⟩⟩

theorem createMint_moves {principal : Int} (word : principal < 2 ^ 63) (days : Int)
    : Asks o (createMint o.ctx principal days) (fun _ r' => Moves o r r') r := by
  simp only [createMint, Asks, wp_bind, asks_rows, wp_ite, wp_pure, asks_balance]
  refine ⟨fun _ => .refl r, fun _ => ⟨fun _ => .refl r, fun _ => ⟨fun _ => .refl r, fun _ n =>
    ⟨fun _ => .refl r, fun _ => ?_⟩⟩⟩⟩
  refine (accrue_asks o).mono fun b r₁ h => ?_
  obtain ⟨⟨accrued, strides⟩, caught⟩ := h
  have moved : Moves o r r₁ := (Moves.refl r).step fun _ => .ledger <| .accrue accrued strides
  refine ⟨fun _ => moved, fun caughtUp => ?_⟩
  have current := caught (by simpa using caughtUp)
  cases made : newMint o.ctx.sender principal days o.ctx.height (mintParamsNow r₁ o.ctx.height) with
  | none => exact moved
  | some m =>
      simp only [wp_bind, asks_debit, true_and, wp_ite, wp_pure]
      refine fun b => ⟨fun _ => moved, fun _ => ?_⟩
      refine (registerMints_asks o [m] current).mono fun ids r₂ entered => ?_
      obtain ⟨_, rfl⟩ := entered
      have registered := moved.step fun _ => .mint <| .enter [m] (by
        simpa using Entry.locked o.ctx.sender principal days _ m word made current)
      cases ids <;> exact registered

theorem endMint_moves (owner : String) (id : Nat) (sweep : Bool)
    (own : sweep = false → owner = o.ctx.sender)
    : Asks o (endMint o.ctx owner id sweep) (fun _ r' => Moves o r r') r := by
  simp only [endMint, Asks, wp_bind, asks_rows, wp_ite, wp_pure]
  refine ⟨fun _ => .refl r, fun _ => ?_⟩
  cases found : r.getMint owner id with
  | none => exact .refl r
  | some m =>
      simp only [wp_bind, asks_rows, wp_ite, wp_pure]
      refine ⟨fun _ => .refl r, fun going => ?_⟩
      refine (accrue_asks o).mono fun b r₁ h => ?_
      have moved : Moves o r r₁ := (Moves.refl r).step fun _ => .ledger <| .accrue h.1.1 h.1.2
      have found₁ : r₁.getMint owner id = some m := (h.1.1.touches.getMint owner id rfl).trans found
      cases reading : accEndOf r₁ m o.ctx.height with
      | none => exact moved
      | some accEnd =>
          simp only [wp_bind, wp_ite, wp_pure, asks_setRows, asks_modify]
          refine ⟨fun _ => moved, fun earns => ?_⟩
          have kept := (closeMint_touches r₁ id m (accruedYield r₁ m accEnd)).sameSupply rfl rfl
          have closed : Moves o r (closeMint r₁ id m (accruedYield r₁ m accEnd)) :=
            moved.step fun _ => .mint <| .close owner id m accEnd found₁ (by simpa using going) reading <| by
              cases sweep with
              | false => exact .inl (own rfl)
              | true => exact .inr (by simpa using earns)
          have recycled (r₂ : Rows) (amt : Int) := (recycle_touches r₂ amt).sameSupply rfl rfl
          have noted := closed.note owner
          refine ⟨kept, ?_⟩
          simp [endMint.payOwner, recycled, closed, noted, closed.recycle, noted.recycle]

theorem armGoodAccounting_moves (id : Nat)
    : Asks o (armGoodAccounting o.ctx id) (fun _ r' => Moves o r r') r := by
  simp only [armGoodAccounting, Asks, wp_bind, asks_rows]
  cases found : r.getMint o.ctx.sender id with
  | none => exact .refl r
  | some m =>
      have written : Touches [.mints] r (r.putMint id { m with goodAccounting := true }) :=
        (Touches.refl r).putMint _ _ (by rfl)
      simp only [wp_bind, wp_ite, wp_pure, asks_modify]
      refine ⟨fun _ => ⟨fun _ => .refl r, fun _ => .refl r⟩, fun able => ?_⟩
      exact ⟨(written.sameSupply rfl rfl),
        (Moves.refl r).step fun _ => .mint <| .arm id m found (by simpa using able)⟩

end LasseCash.State
