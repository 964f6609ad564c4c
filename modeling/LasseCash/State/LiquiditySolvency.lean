import LasseCash.State.Readings

/-! The books of the liquidity providers balance in every reachable world, and every provider can
be paid, as long as the sums that deposits, registrations and donations write are words.
-/

namespace LasseCash.State

open Engine MachineInt RewardAccumulator Function FiniteSum

variable {o : Origin} {whole : Prop} {r r' : Rows}

-----------------------------------------------------------------------------------------
-- The sums that must fit
-----------------------------------------------------------------------------------------

/-- The pool's totals hold a deposit of `shares`. -/
def SharesFit (r : Rows) (shares : Int) : Prop :=
  r.getAmount .poolShares + shares < 2 ^ 63
    ∧ r.getAmount .poolWeight + trancheWeight shares 0 < 2 ^ 63

instance (r : Rows) (shares : Int) : Decidable (SharesFit r shares) :=
  inferInstanceAs (Decidable (_ ∧ _))

/-- The total weight holds the tranche at the weight of its age. -/
def WeightFits (r : Rows) (height : Nat) (t : Tranche) : Prop :=
  r.getAmount .poolWeight - t.weight + weightAt t height < 2 ^ 63

instance (r : Rows) (height : Nat) (t : Tranche) : Decidable (WeightFits r height t) :=
  inferInstanceAs (Decidable (_ < _))

/-- The liquidity rewards hold a donation and a quarter of the emission to come. -/
def DonationFits (r : Rows) (target : String) (amt : Int) : Prop :=
  4 * (r.getAmount .poolLiquidity + liquidityPart target amt)
    + (emissionCap - r.getAmount .emitted) < 2 ^ 65

instance (r : Rows) (target : String) (amt : Int) : Decidable (DonationFits r target amt) :=
  inferInstanceAs (Decidable (_ < _))

/-- The sums that an operation writes into the pool's books are words: those of a deposit and
those of a donation where it succeeds, and the weight of a tranche that it settles.
-/
structure Origin.LpFits (o : Origin) (whole : Prop) : Prop where
  reserves : o.depositFits whole
  shares : ∀ lcIn maxHbd, o.action = .addLiquidity lcIn maxHbd → whole
    → ∀ shares ∈ lpSharesFor lcIn.toInt (o.start.getAmount .poolLC) (o.start.getAmount .poolShares),
      SharesFit o.start shares
  weight : ∀ owner id, o.action.settles o.ctx = some (owner, id)
    → ∀ t ∈ o.start.getTranche owner id, t.closed = false → WeightFits o.start o.ctx.height t
  donation : ∀ target amt, o.action = .fundPool target amt → whole
    → DonationFits o.start target amt.toInt

-----------------------------------------------------------------------------------------
-- Steps
-----------------------------------------------------------------------------------------

/-- (Fed o whole r r' x) says where the inflow `x` of a step comes from: it is a quarter of what
the step emits, or the part of the donation that the operation is.
-/
def Fed (o : Origin) (whole : Prop) (r r' : Rows) (x : Int) : Prop :=
  r'.getAmount .emitted = r.getAmount .emitted + 4 * x
    ∨ r'.getAmount .emitted = r.getAmount .emitted
      ∧ ∃ target amt, o.action = .fundPool target amt ∧ 0 < amt.toInt ∧ whole ∧ r = o.start
        ∧ x = liquidityPart target amt.toInt

/-- A settlement is a move. -/
theorem LpBooks.settle_move (books : LpBooks r) {owner : String} {id height : Nat} {t : Tranche}
    (found : r.getTranche owner id = some t) (going : t.closed = false)
    (fits : WeightFits r height t)
    : ∃ weight, fundOf (settleRows r height id t)
        = (fundOf r).sync.register (owner, id) weight ((fundOf r).sync.entitled (owner, id))
      ∧ 0 ≤ weight ∧ (fundOf r).weight - ((fundOf r).positions (owner, id)).weight + weight < 2 ^ 63
      := by
  obtain ⟨rfl, there, _⟩ := getTranche_row found
  have nonneg : 0 ≤ weightAt t height := trancheWeight_nonneg _ _
  refine ⟨_, fundOf_settleRows books.fund there going nonneg fits, nonneg, ?_⟩
  rw [there]
  simp only [positionOf, going]
  exact fits

/-- The proof of life of a tranche is none. -/
theorem fundOf_touch {owner : String} {id height : Nat} {t : Tranche}
    (found : r.getTranche owner id = some t)
    : fundOf (r.putTranche id { t with lastTouch := height }) = fundOf r := by
  obtain ⟨rfl, there, _⟩ := getTranche_row found
  rw [fundOf_putTranche]
  have same : update (fundOf r).positions (t.owner, id)
      (positionOf (some { t with lastTouch := height })) = (fundOf r).positions := by
    refine (congrArg (update (fundOf r).positions (t.owner, id)) there.symm).trans ?_
    exact update_eq_self _ _
  rw [same]

/-- The rows that a deposit syncs, up to which only the stock and the emission have changed. -/
theorem LpBooks.brought (books : LpBooks r) {ctx : Ctx} {lcIn hbdIn shares : Int}
    (accrues : Accrues ctx.height (depositRows r lcIn hbdIn shares) r')
    : Calendar r' ∧ stockOf r' = stockOf (depositRows r lcIn hbdIn shares)
      ∧ r'.tranche = r.tranche ∧ (∀ account, r'.getU64 (.lpSeq account) = r.getU64 (.lpSeq account))
      ∧ ∃ x, 0 ≤ x ∧ r'.getAmount .emitted = r.getAmount .emitted + 4 * x
        ∧ fundOf r' = { fundOf r with pool := (fundOf r).pool + x } := by
  have brought := depositRows_touches r lcIn hbdIn shares
  have touched := accrues.touches
  obtain ⟨before, same⟩ := books.toFundBooks.touches brought (brought.amount .emitted rfl) rfl
  obtain ⟨after, x, nonneg, emitted, fund⟩ := before.accrued accrues ctx.height_lt
  rw [brought.amount .emitted rfl] at emitted
  rw [same] at fund
  exact ⟨after.calendar, (touched.stockOf rfl), (touched.tranche rfl).trans (brought.tranche rfl),
    fun account => (touched.count _ (by rfl)).trans (brought.count _ (by rfl)), x, nonneg, emitted, fund⟩

/-- A deposit is a move. -/
theorem LpBooks.deposit_move (books : LpBooks r) {ctx : Ctx} {lcIn hbdIn shares : Int}
    (fits : SharesFit r shares) (accrues : Accrues ctx.height (depositRows r lcIn hbdIn shares) r')
    : ∃ x, (fundOf r).Move x (fundOf (openTranche (syncPoolAccumulator r').1 ctx shares
          (syncPoolAccumulator r').2))
      ∧ (openTranche (syncPoolAccumulator r').1 ctx shares (syncPoolAccumulator r').2).getAmount
        .emitted = r.getAmount .emitted + 4 * x := by
  obtain ⟨_, _, rows, counted, x, nonneg, emitted, fund⟩ := books.brought accrues
  have synced := syncPoolAccumulator_touches r'
  have opened := openTranche_touches (syncPoolAccumulator r').1 ctx shares
    (syncPoolAccumulator r').2
  obtain ⟨same, reading⟩ := fundOf_sync r'
  obtain ⟨_, _, weight, positions⟩ := ({ fundOf r with pool := (fundOf r).pool + x } : Fund).sync_frame
  have vacant : r.tranche (ctx.sender, r.getU64 (.lpSeq ctx.sender) + 1) = none := by
    by_contra there
    have := books.owned.numbered ctx.sender _ there
    omega
  have empty : (fundOf r).positions (ctx.sender, r.getU64 (.lpSeq ctx.sender) + 1) = .vacant := by
    simp only [fundOf, vacant]
    rfl
  have number : (syncPoolAccumulator r').1.getU64 (.lpSeq ctx.sender)
      = r.getU64 (.lpSeq ctx.sender) := (synced.count _ (by rfl)).trans (counted _)
  have sound : (fundOf (syncPoolAccumulator r').1).Sound
      (emissionCap - (r.getAmount .emitted + 4 * x)) := by
    have after := books.toFundBooks.touches (depositRows_touches r lcIn hbdIn shares)
      ((depositRows_touches r lcIn hbdIn shares).amount .emitted rfl) rfl
    rw [same, ← emitted]
    exact (after.1.accrued accrues ctx.height_lt).1.fund.sync.1
  refine ⟨x, ?_, (opened.amount .emitted rfl).trans ((synced.amount .emitted rfl).trans emitted)⟩
  rw [reading, ← same, fundOf_openTranche sound ctx, number, same, fund]
  · exact .enter x nonneg _ _ (trancheWeight_nonneg _ _) empty fits.2
  · rw [same, fund, weight]
    exact fits.2
  · rw [number, (synced.tranche rfl), rows]
    exact vacant

/-- A step that stays away from the rewards is a move without an inflow. -/
theorem FundBooks.aside {sides : List Side} (books : FundBooks r) (moved : Touches sides r r')
    (emitted : r'.getAmount .emitted = r.getAmount .emitted)
    (away : [Side.setup, .calendar, .tranches, .lpAccumulator, .liquidityPool].all
      (fun side => !sides.contains side) = true)
    : Calendar r' ∧ ∃ x, (fundOf r).Move x (fundOf r') ∧ Fed o whole r r' x := by
  obtain ⟨after, same⟩ := books.touches moved emitted away
  exact ⟨after.calendar, 0, same ▸ .keep, .inl (by omega)⟩

/-- Every step is a move of the fund, by cases on the step. -/
theorem Step.fund (step : Step o whole r r') (books : LpBooks r) (fits : o.LpFits whole)
    (finished : o.action.withdraws = true → whole)
    : Calendar r' ∧ ∃ x, (fundOf r).Move x (fundOf r') ∧ Fed o whole r r' x := by
  have still {sides : List Side} (moved : Touches sides r r')
      (setup : sides.contains .setup = false)
      (away : sides.contains .calendar = false)
      (supply : sides.contains .supply = false)
      : Calendar r' ∧ Fed o whole r r' 0 :=
    have emitted := moved.amount .emitted supply
    ⟨moved.calendar books.calendar emitted setup away, .inl (by omega)⟩
  cases step with
  | mint step => exact books.toFundBooks.aside step.touches (step.touches.amount .emitted rfl) rfl
  | content step => exact books.toFundBooks.aside step.touches (step.touches.amount .emitted rfl) rfl
  | migration step => exact books.toFundBooks.aside step.touches (step.touches.amount .emitted rfl) rfl
  | ledger step =>
      rcases step.kinds with quiet | ⟨next, rfl⟩ | accrues | ⟨target, amt, done, asked, first,
        positive, rfl⟩
      · exact books.toFundBooks.aside quiet (quiet.amount .emitted rfl) rfl
      · have moved : Touches [.supply] r (r.setAmount .migrated next) :=
          (Touches.refl r).setAmount .migrated next rfl
        exact books.toFundBooks.aside moved (by simp) rfl
      · obtain ⟨after, x, nonneg, emitted, fund⟩ := books.toFundBooks.accrued accrues o.ctx.height_lt
        exact ⟨after.calendar, x, fund ▸ .inflow x nonneg, .inl emitted⟩
      · have moved := fundTarget_touches r target amt.toInt
        have emitted := moved.amount .emitted rfl
        have part := liquidityPart_nonneg target positive.le (Int64.toInt_lt amt)
        have pool_nonneg : 0 ≤ r.getAmount .poolLiquidity := books.fund.pool_nonneg
        have pool := fundTarget_liquidity r target positive.le (Int64.toInt_lt amt)
          ⟨by omega, books.fund.pool_lt⟩
        have room : DonationFits r target amt.toInt := first ▸ fits.donation target amt asked done
        have left := books.left_nonneg
        unfold DonationFits at room
        have fund := moved.fundOf_inflow pool (by omega) (by omega) rfl rfl
        exact ⟨moved.calendar books.calendar emitted rfl rfl, _, fund ▸ .inflow _ part,
          .inr ⟨emitted, target, amt, asked, positive, done, first, rfl⟩⟩
  | liquidity step =>
      cases step with
      | settle owner id t asked accrued found going own =>
          have touched := accrued.touches
          have weight_fits : WeightFits r o.ctx.height t := by
            rw [WeightFits, touched.amount .poolWeight rfl]
            exact fits.weight owner id asked t (by rw [← touched.getTranche owner id rfl, found]; rfl)
              going
          obtain ⟨weight, fund, nonneg, room⟩ := books.settle_move found going weight_fits
          obtain ⟨calendar, fed⟩ := still (settleRows_touches r o.ctx.height id t) rfl rfl rfl
          exact ⟨calendar, 0, fund ▸ .settle _ weight nonneg room, fed⟩
      | touch id t found going =>
          obtain ⟨calendar, fed⟩ := still ((Touches.refl r).putTranche id
            { t with lastTouch := o.ctx.height } rfl : Touches [.tranches] _ _) rfl rfl rfl
          exact ⟨calendar, 0, by rw [fundOf_touch found]; exact .keep, fed⟩
      | deposit done lcIn maxHbd hbdIn shares r₁ asked first positive priced earned some_earned
          accrues strides =>
          have minted : shares ∈ lpSharesFor lcIn.toInt (o.start.getAmount .poolLC)
              (o.start.getAmount .poolShares) := by
            rw [← first]
            cases minted : lpSharesFor lcIn.toInt (r.getAmount .poolLC) (r.getAmount .poolShares) with
            | none =>
                rw [minted, Option.getD_none] at earned
                omega
            | some s => rw [earned, minted, Option.getD_some]; rfl
          obtain ⟨x, move, emitted⟩ := books.deposit_move
            (first ▸ fits.shares lcIn maxHbd asked done shares minted) accrues
          have opened := (deposited_touches accrues o.ctx).1
          have calendar := (books.brought accrues).1
          exact ⟨opened.calendar calendar (opened.amount .emitted rfl) rfl rfl, x, move, .inl emitted⟩
      | withdraw asked owner id t lcOut hbdOut paid r₁ found going own amounts dust noted =>
          obtain ⟨calendar, fed⟩ := still ((takenFromPool_touches noted).putTranche id
            { t with closed := true, weight := 0 } rfl) rfl rfl rfl
          obtain ⟨same, there, _⟩ := getTranche_row found
          subst same
          exact ⟨calendar, 0, fundOf_withdrawn books.fund there going noted ▸ .leave _, fed⟩
      | strand torn asked => exact absurd (finished asked) torn
      | sellLC lcIn minOut out asked swap =>
          have moved : Touches [.reserves] r ((r.setAmount .poolLC
              (i64 (r.getAmount .poolLC + lcIn.toInt))).setAmount .poolHBD
                (i64 (r.getAmount .poolHBD - out))) :=
            ((Touches.refl r).setAmount .poolLC _ (by rfl)).setAmount .poolHBD _ (by rfl)
          exact books.toFundBooks.aside moved (moved.amount .emitted rfl) rfl
      | buyLC hbdIn minOut out asked swap =>
          have moved : Touches [.reserves] r ((r.setAmount .poolHBD
              (i64 (r.getAmount .poolHBD + hbdIn.toInt))).setAmount .poolLC
                (i64 (r.getAmount .poolLC - out))) :=
            ((Touches.refl r).setAmount .poolHBD _ (by rfl)).setAmount .poolLC _ (by rfl)
          exact books.toFundBooks.aside moved (moved.amount .emitted rfl) rfl

/-- The proof of life of a tranche keeps the shares. -/
theorem Owned.touch (h : Owned r) {owner : String} {id height : Nat} {t : Tranche}
    (found : r.getTranche owner id = some t)
    : Owned (r.putTranche id { t with lastTouch := height }) := by
  obtain ⟨rfl, _, shares, row⟩ := getTranche_row found
  have moved : Touches [.tranches] r (r.putTranche id { t with lastTouch := height }) :=
    (Touches.refl r).putTranche id _ (by rfl)
  exact h.rewrite (moved.stockOf rfl) rfl shares.symm row
    (fun going => h.open_shares found (t := t) going) fun account => rfl

/-- A trade, which a pool without shares has no LASSECASH for, keeps the shares. -/
theorem Owned.trade (h : Owned r) (moved : Touches [.reserves] r r')
    (change : (stockOf r).Change (stockOf r')) (shares : (stockOf r').shares = (stockOf r).shares)
    (stocked : 0 < (stockOf r).lc)
    : Owned r' := by
  have rows : sharesAt r' = sharesAt r := by
    unfold sharesAt
    rw [(moved.tranche rfl)]
  refine ⟨change.sound h.stock, shares ▸ h.nonneg, ?_, rows ▸ h.few, (moved.tranche rfl) ▸ h.each, ?_,
    fun account id there => ?_⟩
  · rw [shares]
    intro none_left
    have := h.emptied none_left
    omega
  · rw [shares, rows]
    exact h.sum
  · rw [moved.count (.lpSeq account) rfl]
    exact h.numbered account id ((moved.tranche rfl) ▸ there)

/-- Every step keeps the shares, by cases on the step. -/
theorem Step.owned (step : Step o whole r r') (books : LpBooks r) (fits : o.LpFits whole)
    (finished : o.action.withdraws = true → whole)
    : Owned r' := by
  have owned := books.owned
  cases step with
  | ledger step => exact owned.touches step.touches rfl rfl
  | mint step => exact owned.touches step.touches rfl rfl
  | content step => exact owned.touches step.touches rfl rfl
  | migration step => exact owned.touches step.touches rfl rfl
  | liquidity step =>
      cases step with
      | settle owner id t asked accrued found going own => exact owned.settle found
      | touch id t found going => exact owned.touch found
      | deposit done lcIn maxHbd hbdIn shares r₁ asked first positive priced earned some_earned
          accrues strides =>
          subst first
          have change := depositRows_change owned.stock positive (Int64.toInt_lt lcIn) priced
            (fits.reserves lcIn maxHbd asked done hbdIn (by rw [priced]; rfl)) earned some_earned
          obtain ⟨_, stock, rows, counted, _⟩ := books.brought accrues
          have minted : shares ∈ lpSharesFor lcIn.toInt (o.start.getAmount .poolLC)
              (o.start.getAmount .poolShares) := by
            cases minted : lpSharesFor lcIn.toInt (o.start.getAmount .poolLC)
                (o.start.getAmount .poolShares) with
            | none =>
                rw [minted, Option.getD_none] at earned
                omega
            | some s => rw [earned, minted, Option.getD_some]; rfl
          have room := (fits.shares lcIn maxHbd asked done shares minted).1
          have nonneg : 0 ≤ o.start.getAmount .poolShares := owned.nonneg
          have added : (stockOf (depositRows o.start lcIn.toInt hbdIn shares)).shares
              = (stockOf o.start).shares + shares := by
            simp [stockOf, depositRows, i64_of_nonneg (add_nonneg nonneg some_earned.le) room]
          have synced := syncPoolAccumulator_touches r₁
          rw [← stock, ← (synced.stockOf rfl)] at change added
          exact owned.deposit (change.sound owned.stock) added some_earned
            ((synced.tranche rfl).trans rows) fun account => (synced.count _ (by rfl)).trans (counted account)
      | withdraw asked owner id t lcOut hbdOut paid r₁ found going own amounts dust noted =>
          exact owned.withdraw found going amounts dust noted
      | strand torn asked => exact absurd (finished asked) torn
      | sellLC lcIn minOut out asked swap =>
          obtain ⟨lc_pos, _⟩ := swapOut_eq_some (show r.getAmount .poolLC < 2 ^ 63 from
            owned.stock.lc_word) (Int64.toInt_lt lcIn) swap
          exact owned.trade (((Touches.refl r).setAmount .poolLC _ (by rfl)).setAmount .poolHBD _ (by rfl))
            (sellLC_change owned.stock swap) (by simp [stockOf]) lc_pos
      | buyLC hbdIn minOut out asked swap =>
          obtain ⟨_, _, _, _, out_pos, left⟩ := swapOut_eq_some (show r.getAmount .poolHBD < 2 ^ 63
            from owned.stock.hbd_word) (Int64.toInt_lt hbdIn) swap
          exact owned.trade (((Touches.refl r).setAmount .poolHBD _ (by rfl)).setAmount .poolLC _ (by rfl))
            (buyLC_change owned.stock swap) (by simp [stockOf]) (out_pos.trans left)

/-- Every step keeps the books. -/
theorem Step.lpBooks (step : Step o whole r r') (books : LpBooks r) (fits : o.LpFits whole)
    (finished : o.action.withdraws = true → whole)
    : LpBooks r' := by
  obtain ⟨calendar, x, move, fed⟩ := step.fund books fits finished
  refine ⟨?_, step.owned books fits finished⟩
  rcases fed with emitted | ⟨same, target, amt, asked, positive, done, first, rfl⟩
  · exact books.toFundBooks.emits calendar move emitted
  · have room : DonationFits r target amt.toInt := first ▸ fits.donation target amt asked done
    refine ⟨calendar, move.sound books.fund ?_ ?_⟩
    · exact same ▸ books.left_nonneg
    · rw [same]
      exact room

-----------------------------------------------------------------------------------------
-- Requests
-----------------------------------------------------------------------------------------

section Requests

variable {A : Type} [Assets A]

/-- The sums that the request writes into the pool's books are words, and a withdrawal that is
refused is unwound.
-/
structure Request.LpFits (w : World A) (q : Request) : Prop where
  sums : (q.origin w).LpFits ((q.exec w).2.ok = true)
  unwound : q.action.withdraws = true → q.unwinds = true ∨ (q.exec w).2.ok = true

/-- A request that fits keeps the books. -/
theorem Request.exec_lpBooks {q : Request} {w : World A} (books : LpBooks w.rows)
    (fits : q.LpFits w)
    : LpBooks (q.exec w).1.rows := by
  by_cases finished : q.action.withdraws = true → (q.exec w).2.ok = true
  · exact (q.exec_steps w).keep (fun r r' h step => step.lpBooks h fits.sums finished) books
  · obtain ⟨withdraws, refused⟩ := Classical.not_imp.mp finished
    have unwinds := (fits.unwound withdraws).resolve_right refused
    rw [Request.exec_unwound unwinds w (by simpa using refused)]
    exact books

/-- The books of a fresh store balance once it is initialised. -/
theorem initialised_lpBooks (store : Store) (assets : A) (genesis : UInt64)
    (fresh : store.rows = .empty)
    : LpBooks (initialised store assets genesis).rows := by
  have touched := initialised_touches store assets genesis fresh
  have settled := initialised_settled store assets genesis fresh
  refine ⟨⟨settled.calendar, ?_⟩, ?_⟩
  · rw [(touched.fundOf rfl rfl rfl), touched.amount .emitted rfl]
    have vacant : (fundOf Rows.empty).positions = fun _ => .vacant := rfl
    have none_due : totalDue (fundOf Rows.empty).acc (fundOf Rows.empty).positions = 0 := by
      simp [totalDue, vacant]
    have none_weigh : totalWeight (fundOf Rows.empty).positions = 0 := by
      simp [totalWeight, vacant, Position.vacant]
    refine ⟨by decide, by decide, ?_, fun key => ⟨le_rfl, (by rintro ⟨⟩)⟩, fun key => le_rfl,
      none_weigh.symm, by decide, by decide, by decide, by decide, by decide, ?_⟩
    · simp [Few, vacant]
    · rw [Solvent, none_due]
      decide
  · refine Owned.touches (r := Rows.empty) ?_ touched rfl rfl
    have none_held : sharesAt Rows.empty = fun _ => 0 := rfl
    refine ⟨⟨le_rfl, by decide, le_rfl, by decide, ⟨by decide, by decide⟩, by decide⟩, le_rfl,
      fun _ => rfl, by simp [none_held], (by rintro _ _ ⟨⟩), by simp [none_held]; rfl, fun _ _ there => ?_⟩
    exact absurd rfl there

/-- What is promised of the pool's books at a request: in the world that it leaves the totals are
those of the open tranches, shares are backed by both reserves and the last to leave takes all the
LASSECASH, and what the tranches are entitled to and what is held is counted and there.
-/
structure LpKept (r : Rows) : Prop where
  few : {key | ∃ t, r.tranche key = some t ∧ t.closed = false}.Finite
  shares : r.getAmount .poolShares = ∑ᶠ key, sharesAt r key
  weight : r.getAmount .poolWeight = ∑ᶠ key, (positionOf (r.tranche key)).weight
  backed : 0 < r.getAmount .poolShares → 0 < r.getAmount .poolLC ∧ 0 < r.getAmount .poolHBD
  emptied : (∀ key, sharesAt r key = 0) → r.getAmount .poolLC = 0
  seen : r.getAmount .poolAccSeen ≤ r.getAmount .poolLiquidity
  covered : ∑ᶠ key, (fundOf r).entitled key + r.getAmount .poolAccHeld ≤ r.getAmount .poolAccSeen

theorem LpBooks.kept (books : LpBooks r) : LpKept r where
  few := by
    refine books.owned.few.subset fun key ⟨t, there, going⟩ => ?_
    have positive := books.owned.each key t there going
    rw [mem_support, sharesAt, there, sharesIn, going]
    exact positive.ne'
  shares := books.owned.sum
  weight := books.fund.weight
  backed := books.owned.stock.funded
  emptied none_open := by
    refine books.owned.emptied ?_
    rw [books.owned.sum]
    exact finsum_eq_zero_of_forall_eq_zero none_open
  seen := books.fund.seen_le
  covered := books.fund.covers

/-- No tranche that can be settled at a request is owed more than the pool holds then, after any
accrual: the clamp of the settlement is not taken.
-/
def Unclamped (height : Nat) (r : Rows) : Prop :=
  ∀ owner id t r', r.getTranche owner id = some t → t.closed = false → Accrues height r r'
    → entitlement t.weight t.accStart (syncPoolAccumulator r').2
      ≤ (syncPoolAccumulator r').1.getAmount .poolLiquidity

theorem LpBooks.unclamped (books : LpBooks r) (ctx : Ctx) : Unclamped ctx.height r := by
  intro owner id t r' found going accrues
  have accrued := (books.toFundBooks.accrued accrues ctx.height_lt).1
  rw [← accrues.touches.getTranche owner id rfl] at found
  exact (owedTo_eq accrued.fund (getTranche_row found).2.1 going).1

/-- In a run from `Init`, on any ledger and assets, whose sums fit, the pool's books balance before
and after every request and every tranche can be paid in full whatever was paid before.
-/
theorem lp_books_balance (store : Store) (assets : A) (genesis : UInt64)
    (requests : List Request) (fresh : store.rows = .empty)
    (run : Run (fun w q => q.LpFits w) (initialised store assets genesis) 0 requests)
    : Along (fun w q => LpKept w.rows ∧ LpKept (q.exec w).1.rows ∧ Unclamped q.ctx.height w.rows)
      (initialised store assets genesis) requests := by
  refine run.along (I := fun _ w => LpBooks w.rows) ?_ (initialised_lpBooks store assets genesis fresh)
  intro w now q books later fits
  have next := Request.exec_lpBooks books fits
  exact ⟨next, books.kept, next.kept, books.unclamped q.ctx⟩

/-- Whatever the sums do, every tranche has been given some shares. -/
def Given (r : Rows) : Prop := ∀ key t, r.tranche key = some t → 0 < t.shares

/-- So a negative total is never that of the open tranches. -/
theorem Given.not_kept {r : Rows} (given : Given r) (negative : r.getAmount .poolShares < 0)
    : ¬LpKept r := by
  intro kept
  have nonneg : 0 ≤ ∑ᶠ key, sharesAt r key := by
    refine finsum_nonneg fun key => ?_
    unfold sharesAt sharesIn
    split
    · rename_i t there
      split
      · exact le_rfl
      · exact (given key t there).le
    · exact le_rfl
  have := kept.shares
  omega

/-- Every step keeps that: a tranche has the shares that it had, or is new. -/
theorem Step.given (step : Step o whole r r') (given : Given r) : Given r' := by
  intro key t' there
  rcases step.tranches there with ⟨t, before, shares, -⟩ | ⟨positive, -⟩
  · exact shares ▸ given key t before
  · exact positive

theorem after_given (store : Store) (assets : A) (genesis : UInt64) (requests : List Request)
    (fresh : store.rows = .empty)
    : Given (after (initialised store assets genesis) requests).rows := by
  have start : Given (initialised store assets genesis).rows := by
    intro key t there
    rw [((initialised_touches store assets genesis fresh).tranche rfl)] at there
    cases there
  generalize initialised store assets genesis = w at *
  induction requests generalizing w with
  | nil => exact start
  | cons q rest ih =>
      exact ih _ ((q.exec_steps w).keep (fun _ _ h step => step.given h) start)

end Requests

/-- A deposit, a second one, a claim and an exit keep the books. -/
theorem lp_books_small_deposits
    : Along (fun w q => LpKept w.rows ∧ LpKept (q.exec w).1.rows ∧ Unclamped q.ctx.height w.rows)
      (initialised Store.newMem MemAssets.new 1)
      [⟨{ sender := "hive:owner", height := 1 }, .creditMigration "hive:a" 300000000000 0, true⟩,
        ⟨{ sender := "hive:a", height := 2 }, .addLiquidity 100000000000 50000000000, true⟩,
        ⟨{ sender := "hive:a", height := 3 }, .fundPool "liquidity" 5000, true⟩,
        ⟨{ sender := "hive:a", height := 30000 }, .removeLiquidity 1, true⟩] := by
  refine lp_books_balance Store.newMem MemAssets.new 1 _ rfl
    ⟨by decide, ⟨⟨nofun, nofun, nofun, nofun⟩, nofun⟩, by decide, ⟨⟨?_, ?_, nofun, nofun⟩, nofun⟩,
      by decide, ⟨⟨nofun, nofun, nofun, ?_⟩, nofun⟩, by decide, ⟨⟨nofun, nofun, ?_, nofun⟩, ?_⟩,
      trivial⟩
  · intro lcIn maxHbd asked _
    cases asked
    decide +kernel
  · intro lcIn maxHbd asked _
    cases asked
    decide +kernel
  · intro target amt asked _
    cases asked
    decide +kernel
  · intro owner id asked
    cases asked
    decide +kernel
  · exact fun _ => .inl rfl

/-- A trade makes LASSECASH dear to the pool, a deposit then earns most of a word of shares, and
the next one wraps their total: it is negative, while every open tranche has some.
-/
theorem lp_books_lost_by_wrap
    : let requests : List Request :=
        [⟨{ sender := "hive:owner", height := 1 }, .creditMigration "hive:a" 1050000000000000 0, true⟩,
          ⟨{ sender := "hive:a", height := 2 }, .addLiquidity 900000000000000 100000, true⟩,
          ⟨{ sender := "hive:a", height := 3 }, .swapHBDForLC 1000000000 1, true⟩,
          ⟨{ sender := "hive:a", height := 4 }, .addLiquidity 900000000000000 20000000000000, true⟩,
          ⟨{ sender := "hive:a", height := 5 }, .addLiquidity 90000000000000 20000000000000, true⟩]
      let w := initialised Store.newMem MemAssets.new 1
      (results w requests).all Result.ok = true ∧ (after w requests).rows.getAmount .poolShares < 0
        ∧ ¬LpKept (after w requests).rows := by
  intro requests w
  have ran : (results w requests).all Result.ok = true
      ∧ (after w requests).rows.getAmount .poolShares < 0 := by
    decide +kernel
  exact ⟨ran.1, ran.2, (after_given Store.newMem MemAssets.new 1 requests rfl).not_kept ran.2⟩

end LasseCash.State
