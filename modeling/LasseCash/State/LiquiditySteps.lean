import LasseCash.State.LiquidityBooks

/-! Every step keeps the books of the liquidity providers, as long as the sums that it writes are
words.
-/

namespace LasseCash.State

open Engine MachineInt RewardAccumulator Function FiniteSum

variable {o : Origin} {whole : Prop} {r r' : Rows}

-----------------------------------------------------------------------------------------
-- The shares
-----------------------------------------------------------------------------------------

/-- The pool's shares are those of the open tranches, which are numbered in order; without any
the pool holds no LASSECASH.
-/
structure Owned (r : Rows) : Prop where
  stock : (stockOf r).Sound
  nonneg : 0 ≤ (stockOf r).shares
  emptied : (stockOf r).shares = 0 → (stockOf r).lc = 0
  few : (support (sharesAt r)).Finite
  each : ∀ key t, r.tranche key = some t → t.closed = false → 0 < t.shares
  sum : (stockOf r).shares = ∑ᶠ key, sharesAt r key
  numbered : ∀ account id, r.tranche (account, id) ≠ none → id ≤ r.getU64 (.lpSeq account)

theorem Owned.touches {sides : List Side} (h : Owned r) (moved : Touches sides r r')
    (reserves : sides.contains .reserves = false)
    (tranches : sides.contains .tranches = false)
    : Owned r' := by
  have stock := moved.stockOf reserves
  have rows := moved.tranche tranches
  have shares : sharesAt r' = sharesAt r := by
    unfold sharesAt
    rw [rows]
  refine ⟨stock ▸ h.stock, stock ▸ h.nonneg, stock ▸ h.emptied, shares ▸ h.few, rows ▸ h.each, ?_,
    fun account id there => ?_⟩
  · rw [stock, shares]
    exact h.sum
  · rw [moved.count (.lpSeq account) tranches]
    exact h.numbered account id (rows ▸ there)

/-- A tranche may be written anew with the shares that it has. -/
theorem Owned.rewrite (h : Owned r) {key : TrancheKey} {t : Tranche}
    (stock : stockOf r' = stockOf r) (rows : r'.tranche = update r.tranche key (some t))
    (same : sharesIn (some t) = sharesAt r key) (there : r.tranche key ≠ none)
    (positive : t.closed = false → 0 < t.shares)
    (counted : ∀ account, r'.getU64 (.lpSeq account) = r.getU64 (.lpSeq account))
    : Owned r' := by
  have shares : sharesAt r' = sharesAt r := by
    funext other
    by_cases here : other = key
    · subst here
      rw [sharesAt, rows, update_self, same]
    · rw [sharesAt, rows, update_of_ne here, sharesAt]
  refine ⟨stock ▸ h.stock, stock ▸ h.nonneg, stock ▸ h.emptied, shares ▸ h.few, ?_, ?_, ?_⟩
  · intro other t' found going
    by_cases here : other = key
    · subst here
      rw [rows, update_self] at found
      obtain rfl := Option.some.inj found
      exact positive going
    · rw [rows, update_of_ne here] at found
      exact h.each other t' found going
  · rw [stock, shares]
    exact h.sum
  · intro account id found
    rw [counted]
    by_cases here : (account, id) = key
    · subst here
      exact h.numbered account id there
    · rw [rows, update_of_ne here] at found
      exact h.numbered account id found

/-- The shares of an open tranche are some of the pool's. -/
theorem Owned.open_shares (h : Owned r) {account : String} {id : Nat} {t : Tranche}
    (found : r.getTranche account id = some t) (going : t.closed = false)
    : 0 < t.shares := by
  obtain ⟨t₀, there, rfl⟩ := Option.map_eq_some_iff.mp found
  exact h.each _ t₀ there going

theorem settleRows_lpSeq (r : Rows) (height id : Nat) (t : Tranche) (account : String)
    : (settleRows r height id t).getU64 (.lpSeq account) = r.getU64 (.lpSeq account) := by
  have synced := (syncPoolAccumulator_touches r).count (.lpSeq account) rfl
  unfold settleRows reweigh takeReward
  dsimp only
  split <;> simpa using synced

/-- A settlement keeps the shares. -/
theorem Owned.settle (h : Owned r) {owner : String} {id height : Nat} {t : Tranche}
    (found : r.getTranche owner id = some t)
    : Owned (settleRows r height id t) := by
  obtain ⟨rfl, _, shares, there⟩ := getTranche_row found
  obtain ⟨t₀, stored, same⟩ := Option.map_eq_some_iff.mp found
  exact h.rewrite ((settleRows_touches r height id t).stockOf rfl) (settleRows_tranche r height id t)
    (by rw [shares]; rfl) there
    (fun going => h.open_shares found (t := t) going)
    (settleRows_lpSeq r height id t)

/-- The tranche that a deposit opens. -/
def newTranche (ctx : Ctx) (shares acc : Int) : Tranche :=
  { owner := ctx.sender, shares, startHeight := ctx.height, weight := trancheWeight shares 0
    accStart := acc, lastTouch := ctx.height }

theorem openTranche_rows (r : Rows) (ctx : Ctx) (shares acc : Int)
    : (openTranche r ctx shares acc).tranche
        = update r.tranche (ctx.sender, r.getU64 (.lpSeq ctx.sender) + 1)
          (some (newTranche ctx shares acc))
      ∧ ∀ account, r.getU64 (.lpSeq account)
          ≤ (openTranche r ctx shares acc).getU64 (.lpSeq account)
        ∧ (account = ctx.sender
          → (openTranche r ctx shares acc).getU64 (.lpSeq account)
            = r.getU64 (.lpSeq account) + 1) := by
  refine ⟨?_, fun account => ?_⟩
  · simp [openTranche, newTranche]
  · by_cases own : account = ctx.sender
    · subst own
      simp [openTranche]
    · simp [openTranche, own]

/-- A deposit adds its shares under a new number. -/
theorem Owned.deposit {r₀ : Rows} (h : Owned r₀) {ctx : Ctx} {shares acc : Int}
    (sound : (stockOf r).Sound)
    (stock : (stockOf r).shares = (stockOf r₀).shares + shares) (positive : 0 < shares)
    (rows : r.tranche = r₀.tranche)
    (counted : ∀ account, r.getU64 (.lpSeq account) = r₀.getU64 (.lpSeq account))
    : Owned (openTranche r ctx shares acc) := by
  have stock' : stockOf (openTranche r ctx shares acc) = stockOf r :=
    (openTranche_touches r ctx shares acc).stockOf rfl
  obtain ⟨written, numbers⟩ := openTranche_rows r ctx shares acc
  rw [rows, counted] at written
  have fresh : r₀.tranche (ctx.sender, r₀.getU64 (.lpSeq ctx.sender) + 1) = none := by
    by_contra there
    have := h.numbered ctx.sender _ there
    omega
  have held : sharesAt (openTranche r ctx shares acc)
      = update (sharesAt r₀) (ctx.sender, r₀.getU64 (.lpSeq ctx.sender) + 1) shares := by
    funext key
    by_cases here : key = (ctx.sender, r₀.getU64 (.lpSeq ctx.sender) + 1)
    · subst here
      rw [sharesAt, written, update_self, update_self]
      rfl
    · rw [sharesAt, written, update_of_ne here, update_of_ne here, sharesAt]
  have nonneg := h.nonneg
  have sum : (stockOf r₀).shares = finsum (sharesAt r₀) := h.sum
  refine ⟨stock' ▸ sound, ?_, ?_, ?_, ?_, ?_, ?_⟩
  · rw [stock', stock]
    omega
  · rw [stock', stock]
    omega
  · rw [held]
    exact finite_update h.few _ _
  · intro key t found going
    rw [written] at found
    by_cases here : key = (ctx.sender, r₀.getU64 (.lpSeq ctx.sender) + 1)
    · subst here
      rw [update_self] at found
      obtain rfl := Option.some.inj found
      exact positive
    · rw [update_of_ne here] at found
      exact h.each key t found going
  · have vacant : sharesAt r₀ (ctx.sender, r₀.getU64 (.lpSeq ctx.sender) + 1) = 0 := by
      rw [sharesAt, fresh, sharesIn]
    change (stockOf (openTranche r ctx shares acc)).shares = finsum (sharesAt (openTranche r ctx shares acc))
    rw [stock', stock, held, finsum_update h.few, vacant]
    omega
  · intro account id found
    obtain ⟨later, own⟩ := numbers account
    rw [written] at found
    by_cases here : (account, id) = (ctx.sender, r₀.getU64 (.lpSeq ctx.sender) + 1)
    · obtain ⟨rfl, rfl⟩ := Prod.mk.inj here
      rw [own rfl, counted]
    · rw [update_of_ne here] at found
      have := h.numbered account id found
      rw [← counted] at this
      omega

/-- A withdrawal takes its shares out, and with the last of them all the LASSECASH. -/
theorem Owned.withdraw (h : Owned r) {owner : String} {id : Nat} {t : Tranche}
    {lcOut hbdOut paid : Int} (found : r.getTranche owner id = some t) (going : t.closed = false)
    (amounts : withdrawAmounts t.shares (r.getAmount .poolShares) (r.getAmount .poolLC)
      (r.getAmount .poolHBD) = some (lcOut, hbdOut))
    (dust : PaidHbd hbdOut paid)
    (noted : r' = takeFromPool r t lcOut paid ∨ r' = noteAccount (takeFromPool r t lcOut paid) owner)
    : Owned (r'.putTranche id { t with closed := true, weight := 0 }) := by
  obtain ⟨taken, burnt, le, part, _⟩ := takeFromPool_stock h.stock amounts dust
  have change := takeFromPool_change h.stock amounts dust
  have stock : stockOf (r'.putTranche id { t with closed := true, weight := 0 })
      = stockOf (takeFromPool r t lcOut paid) := withdrawn_stock noted
  obtain ⟨rfl, _, shares, there⟩ := getTranche_row found
  have rows : (r'.putTranche id { t with closed := true, weight := 0 }).tranche
        = update r.tranche (t.owner, id) (some { t with closed := true, weight := 0 })
      ∧ ∀ account, (r'.putTranche id { t with closed := true, weight := 0 }).getU64 (.lpSeq account)
        = r.getU64 (.lpSeq account) := by
    rcases noted with rfl | rfl
    · exact ⟨rfl, fun account => by simp [takeFromPool]⟩
    · have kept : Touches [.roll] (takeFromPool r t lcOut paid)
          (noteAccount (takeFromPool r t lcOut paid) t.owner) := (Touches.refl _).noteAccount _ (by rfl)
      refine ⟨?_, fun account => (kept.count (.lpSeq account) rfl).trans (by simp [takeFromPool])⟩
      rw [Rows.putTranche_tranche, (kept.tranche rfl)]
      rfl
  have held : sharesAt (r'.putTranche id { t with closed := true, weight := 0 })
      = update (sharesAt r) (t.owner, id) 0 := by
    funext key
    by_cases here : key = (t.owner, id)
    · subst here
      rw [sharesAt, rows.1, update_self, update_self]
      rfl
    · rw [sharesAt, rows.1, update_of_ne here, update_of_ne here, sharesAt]
  have own : sharesAt r (t.owner, id) = t.shares := by
    rw [shares, sharesIn, going]
    rfl
  have sum : (stockOf r).shares = finsum (sharesAt r) := h.sum
  refine ⟨stock ▸ change.sound h.stock, ?_, ?_, ?_, ?_, ?_, ?_⟩
  · rw [stock, taken]
    exact sub_nonneg.mpr le
  · rw [stock, taken]
    intro last
    have whole : t.shares = (stockOf r).shares := by
      dsimp only at last
      omega
    dsimp only
    rw [part, whole, Int.mul_ediv_cancel _ (by omega), sub_self]
  · rw [held]
    exact finite_update h.few _ _
  · intro key t' there' going'
    rw [rows.1] at there'
    by_cases here : key = (t.owner, id)
    · subst here
      rw [update_self] at there'
      obtain rfl := Option.some.inj there'
      cases going'
    · rw [update_of_ne here] at there'
      exact h.each key t' there' going'
  · change (stockOf (r'.putTranche id { t with closed := true, weight := 0 })).shares
      = finsum (sharesAt (r'.putTranche id { t with closed := true, weight := 0 }))
    rw [stock, taken, held, finsum_update h.few, own]
    dsimp only
    omega
  · intro account id' there'
    rw [rows.2]
    rw [rows.1] at there'
    by_cases here : (account, id') = (t.owner, id)
    · exact h.numbered account id' (here ▸ there)
    · rw [update_of_ne here] at there'
      exact h.numbered account id' there'

-----------------------------------------------------------------------------------------
-- The books
-----------------------------------------------------------------------------------------

/-- The rewards are sound, with the emission that the calendar leaves. -/
structure FundBooks (r : Rows) : Prop where
  calendar : Calendar r
  fund : (fundOf r).Sound (emissionCap - r.getAmount .emitted)

/-- What holds of the liquidity providers' rows in every world that is reached. -/
structure LpBooks (r : Rows) : Prop extends FundBooks r where
  owned : Owned r

/-- What a donation adds to the liquidity rewards. -/
def liquidityPart (target : String) (amt : Int) : Int :=
  if target = "liquidity" then amt
  else if target = "all" then (split amt).liquidity
  else 0

theorem liquidityPart_nonneg (target : String) {amt : Int} (nonneg : 0 ≤ amt) (word : amt < 2 ^ 63)
    : 0 ≤ liquidityPart target amt := by
  unfold liquidityPart
  rw [split_of_nonneg nonneg word]
  dsimp only
  split
  · exact nonneg
  split
  · omega
  · exact le_rfl

theorem addPool_getAmount (r : Rows) (key : AmountKey) {amt : Int} (nonneg : 0 ≤ amt)
    (word : InI64 (r.getAmount key))
    : (addPool r key amt).getAmount key = i64 (r.getAmount key + amt) := by
  unfold addPool
  split
  · simp
  · obtain rfl : amt = 0 := by omega
    rw [add_zero, i64_of_mem word]

/-- A donation's part reaches the pool, by cases on the target. -/
theorem fundTarget_liquidity (r : Rows) (target : String) {amt : Int} (nonneg : 0 ≤ amt)
    (small : amt < 2 ^ 63) (word : InI64 (r.getAmount .poolLiquidity))
    : (fundTarget r target amt).getAmount .poolLiquidity
      = i64 (r.getAmount .poolLiquidity + liquidityPart target amt) := by
  have plain {r' : Rows} (same : r'.getAmount .poolLiquidity = r.getAmount .poolLiquidity)
      : r'.getAmount .poolLiquidity = i64 (r.getAmount .poolLiquidity + 0) := by
    rw [same, add_zero, i64_of_mem word]
  have shared (amt : Int)
      : (fundPoB r amt).getAmount .poolLiquidity = r.getAmount .poolLiquidity := by
    unfold fundPoB addPool
    dsimp only
    repeat' split
    all_goals simp
  unfold fundTarget liquidityPart
  dsimp only
  by_cases pob : target = "pob"
  · subst pob
    exact plain (shared amt)
  rw [if_neg pob]
  by_cases viral : target = "viral"
  · subst viral
    exact plain (((Touches.refl r).addPool .poolViral amt rfl : Touches [.contentPools] _ _).amount _ (by rfl))
  rw [if_neg viral]
  by_cases deep : target = "deep"
  · subst deep
    exact plain (((Touches.refl r).addPool .poolDeep amt rfl : Touches [.contentPools] _ _).amount _ (by rfl))
  rw [if_neg deep]
  by_cases liquidity : target = "liquidity"
  · rw [if_pos liquidity, if_pos liquidity, addPool_getAmount r _ nonneg word]
  rw [if_neg liquidity, if_neg liquidity]
  by_cases lshare : target = "lshare"
  · subst lshare
    exact plain ((recycle_touches r amt).amount _ (by rfl))
  rw [if_neg lshare]
  by_cases all : target = "all"
  · rw [if_pos all, if_pos all]
    have recycled := (recycle_touches (addPool (fundPoB r (split amt).proofOfBrain) .poolLiquidity
      (split amt).liquidity) (i64 (i64 (amt - (split amt).proofOfBrain) - (split amt).liquidity)))
    refine (recycled.amount .poolLiquidity rfl).trans ?_
    have part : 0 ≤ (split amt).liquidity := by
      rw [split_of_nonneg nonneg small]
      dsimp only
      omega
    rw [addPool_getAmount _ _ part (by rw [shared]; exact word), shared]
  · rw [if_neg all, if_neg all]
    exact plain rfl

theorem FundBooks.left_nonneg (books : FundBooks r) : 0 ≤ emissionCap - r.getAmount .emitted :=
  sub_nonneg.mpr books.calendar.emitted_le.2

/-- A move that emits what flows in keeps the rewards sound. -/
theorem FundBooks.emits (books : FundBooks r) (calendar : Calendar r') {x : Int}
    (move : (fundOf r).Move x (fundOf r'))
    (emitted : r'.getAmount .emitted = r.getAmount .emitted + 4 * x)
    : FundBooks r' := by
  have left := calendar.emitted_le
  have room := books.fund.room
  exact ⟨calendar, move.sound books.fund (by omega) (by omega)⟩

/-- Steps that stay away from the rewards are no moves of them. -/
theorem FundBooks.touches {sides : List Side} (books : FundBooks r) (moved : Touches sides r r')
    (emitted : r'.getAmount .emitted = r.getAmount .emitted)
    (away : [Side.setup, .calendar, .tranches, .lpAccumulator, .liquidityPool].all
      (fun side => !sides.contains side) = true)
    : FundBooks r' ∧ fundOf r' = fundOf r := by
  simp only [List.all_cons, List.all_nil, Bool.and_true, Bool.and_eq_true, Bool.not_eq_true']
    at away
  obtain ⟨setup, calendar, tranches, acc, pool⟩ := away
  have same := moved.fundOf pool acc tranches
  refine ⟨books.emits (moved.calendar books.calendar emitted setup calendar) (x := 0) ?_
    (by omega), same⟩
  rw [same]
  exact .keep

/-- An inflow is one into the fund, where it is a word with what the pool holds. -/
theorem Touches.fundOf_inflow {sides : List Side} (moved : Touches sides r r') {x : Int}
    (pool : r'.getAmount .poolLiquidity = i64 (r.getAmount .poolLiquidity + x))
    (nonneg : 0 ≤ r.getAmount .poolLiquidity + x) (small : r.getAmount .poolLiquidity + x < 2 ^ 63)
    (tranches : sides.contains .tranches = false)
    (acc : sides.contains .lpAccumulator = false)
    : State.fundOf r' = { State.fundOf r with pool := (State.fundOf r).pool + x } := by
  rw [i64_of_nonneg nonneg small] at pool
  have same := moved.tranche tranches
  simp only [State.fundOf, moved.amount .poolAccSeen acc, moved.amount .poolAccHeld acc,
    moved.count .poolAcc acc, moved.amount .poolWeight tranches, same, pool]

/-- An accrual adds a quarter of what it emits. -/
theorem FundBooks.accrued {height : Nat} (books : FundBooks r) (accrues : Accrues height r r')
    (word : height < 2 ^ 64)
    : FundBooks r' ∧ ∃ x, 0 ≤ x ∧ r'.getAmount .emitted = r.getAmount .emitted + 4 * x
      ∧ fundOf r' = { fundOf r with pool := (fundOf r).pool + x } := by
  obtain ⟨calendar, x, credited⟩ := accrues.credited word books.calendar
  have pool_nonneg : 0 ≤ r.getAmount .poolLiquidity := books.fund.pool_nonneg
  have pool_lt : r.getAmount .poolLiquidity < 2 ^ 63 := books.fund.pool_lt
  have room : 4 * r.getAmount .poolLiquidity + (emissionCap - r.getAmount .emitted) < 2 ^ 65 :=
    books.fund.room
  have nonneg := credited.nonneg
  have emitted := credited.emitted
  have left := calendar.emitted_le
  have sum : r'.getAmount .poolLiquidity = i64 (r.getAmount .poolLiquidity + x) := by
    rcases credited.liquidity with ⟨same, rfl⟩ | moved
    · rw [same, add_zero, i64_of_nonneg pool_nonneg pool_lt]
    · exact moved
  have fund := accrues.touches.fundOf_inflow sum (by omega) (by omega) rfl rfl
  exact ⟨books.emits calendar (fund ▸ .inflow x nonneg) emitted, x, nonneg, emitted, fund⟩

end LasseCash.State
