import LasseCash.Engine.PoolRoundTrips
import LasseCash.State.Custody
import LasseCash.State.LiquiditySteps
import LasseCash.State.PoolAnswers

/-! A deposit and the withdrawal of its tranche, with no other operation of the pool between them:
the provider gets back no more of either side than it brought.
-/

namespace LasseCash.State

open Engine MachineInt Program

variable {o : Origin} {r r' : Rows}

-----------------------------------------------------------------------------------------
-- What a deposit opens
-----------------------------------------------------------------------------------------

section Opened

variable {lcIn maxHbd hbdIn shares : Int}

/-- The shares of a deposit are issued on top of the others. -/
theorem Opened.issued (opened : Opened o lcIn maxHbd hbdIn shares r')
    : r'.getAmount .poolShares = i64 (o.start.getAmount .poolShares + shares) := by
  obtain ⟨r₁, accrues, rfl⟩ := opened.opens
  obtain ⟨opens, accrual⟩ := deposited_touches accrues o.ctx
  rw [opens.amount .poolShares rfl, accrual.amount .poolShares rfl]
  simp [depositRows]

/-- They are held by the tranche under the sender's next number. -/
theorem Opened.holds (opened : Opened o lcIn maxHbd hbdIn shares r')
    : ∃ t, r'.getTranche o.ctx.sender (o.start.getU64 (.lpSeq o.ctx.sender) + 1) = some t
      ∧ t.shares = shares := by
  obtain ⟨r₁, accrues, rfl⟩ := opened.opens
  have before : Touches (.reserves :: .lpAccumulator :: accrualSides) o.start
      (syncPoolAccumulator r₁).1 :=
    (((depositRows_touches o.start lcIn hbdIn shares).widen (by decide)).trans
      (accrues.touches.widen (by decide))).trans ((syncPoolAccumulator_touches r₁).widen (by decide))
  obtain ⟨rows, -⟩ := openTranche_rows (syncPoolAccumulator r₁).1 o.ctx shares
    (syncPoolAccumulator r₁).2
  rw [before.count (.lpSeq o.ctx.sender) rfl] at rows
  refine ⟨newTranche o.ctx shares (syncPoolAccumulator r₁).2, ?_, rfl⟩
  rw [Rows.getTranche, rows, Function.update_self]
  rfl

end Opened

-----------------------------------------------------------------------------------------
-- Operations beside the pool
-----------------------------------------------------------------------------------------

/-- (SamePool r r') says that the reserves, the shares and what every tranche holds are the same. -/
structure SamePool (r r' : Rows) : Prop where
  lc : r'.getAmount .poolLC = r.getAmount .poolLC
  hbd : r'.getAmount .poolHBD = r.getAmount .poolHBD
  shares : r'.getAmount .poolShares = r.getAmount .poolShares
  tranche : ∀ owner id t, r.getTranche owner id = some t
    → ∃ t', r'.getTranche owner id = some t' ∧ t'.shares = t.shares

theorem SamePool.refl (r : Rows) : SamePool r r :=
  ⟨rfl, rfl, rfl, fun _ _ t found => ⟨t, found, rfl⟩⟩

theorem SamePool.trans {r₁ : Rows} (first : SamePool r r₁) (next : SamePool r₁ r')
    : SamePool r r' where
  lc := next.lc.trans first.lc
  hbd := next.hbd.trans first.hbd
  shares := next.shares.trans first.shares
  tranche owner id t found := by
    obtain ⟨t₁, found₁, same₁⟩ := first.tranche owner id t found
    obtain ⟨t', found', same'⟩ := next.tranche owner id t₁ found₁
    exact ⟨t', found', same'.trans same₁⟩

/-- Writes elsewhere leave the pool. -/
theorem Touches.samePool {sides : List Side} (h : Touches sides r r')
    (reserves : sides.contains .reserves = false)
    (tranches : sides.contains .tranches = false)
    : SamePool r r' where
  lc := h.amount .poolLC reserves
  hbd := h.amount .poolHBD reserves
  shares := h.amount .poolShares reserves
  tranche owner id t found := ⟨t, (h.getTranche owner id tranches).trans found, rfl⟩

/-- A proof of life changes nothing that a tranche holds. -/
theorem touch_samePool {owner : String} {id height : Nat} {t : Tranche}
    (found : r.getTranche owner id = some t)
    : SamePool r (r.putTranche id { t with lastTouch := height }) := by
  have touched : Touches [.tranches] r (r.putTranche id { t with lastTouch := height }) :=
    (Touches.refl r).putTranche id _ (by rfl)
  have own : t.owner = owner := (getTranche_row found).1
  refine ⟨touched.amount .poolLC rfl, touched.amount .poolHBD rfl, touched.amount .poolShares rfl, ?_⟩
  intro owner' id' t' found'
  by_cases here : (owner', id') = (owner, id)
  · obtain ⟨rfl, rfl⟩ := Prod.mk.inj here
    obtain rfl : t' = t := Option.some.inj (found'.symm.trans found)
    refine ⟨{ t' with lastTouch := height, owner := owner' }, ?_, rfl⟩
    rw [Rows.getTranche, Rows.putTranche_tranche, own, Function.update_self]
    rfl
  · refine ⟨t', ?_, rfl⟩
    rw [Rows.getTranche, Rows.putTranche_tranche, own, Function.update_of_ne here]
    exact found'

/-- (Quiet ctx action) says that the action is none of the pool's. -/
def Quiet (ctx : Ctx) (action : Action) : Prop :=
  action.trades = false ∧ action.settles ctx = none

/-- A step of any other operation leaves the pool, but for a proof of life. -/
theorem Step.samePool {whole : Prop} (h : Step o whole r r') (quiet : Quiet o.ctx o.action)
    : SamePool r r' := by
  have trades {P : Prop} (asked : o.action.trades = true) : P := by
    rw [quiet.1] at asked
    cases asked
  have withdrawal {P : Prop} (asked : o.action.withdraws = true) : P :=
    trades (Action.trades_of_withdraws asked)
  cases h with
  | ledger step => exact step.touches.samePool rfl rfl
  | mint step => exact step.touches.samePool rfl rfl
  | content step => exact step.touches.samePool rfl rfl
  | migration step => exact step.touches.samePool rfl rfl
  | liquidity step =>
      cases step with
      | settle owner id t asked accrued found going own =>
          rw [quiet.2] at asked
          cases asked
      | touch id t found going =>
          exact touch_samePool found
      | deposit done lcIn maxHbd hbdIn shares r₁ asked first positive priced earned some_earned
          accrues strides => exact trades (by rw [asked]; rfl)
      | withdraw asked owner id t lcOut hbdOut paid r₁ found going own amounts dust noted =>
          exact withdrawal asked
      | strand torn asked owner id t lcOut hbdOut paid found going own amounts dust =>
          exact withdrawal asked
      | sellLC lcIn minOut out asked swap => exact trades (by rw [asked]; rfl)
      | buyLC hbdIn minOut out asked swap => exact trades (by rw [asked]; rfl)

section Worlds

variable {A : Type} [Assets A] {w : World A} {q : Request}

theorem Request.exec_samePool (quiet : Quiet q.ctx q.action) (w : World A)
    : SamePool w.rows (q.exec w).1.rows :=
  (q.exec_steps w).keep (I := SamePool w.rows)
    (fun _ _ same step => same.trans (step.samePool quiet)) (SamePool.refl _)

/-- A run beside the pool leaves it, by induction on the requests. -/
theorem after_samePool {between : List Request} (quiet : ∀ b ∈ between, Quiet b.ctx b.action)
    (w : World A)
    : SamePool w.rows (after w between).rows := by
  induction between generalizing w with
  | nil => exact SamePool.refl _
  | cons b rest ih =>
      have first := b.exec_samePool (quiet b (List.mem_cons_self ..)) w
      exact first.trans (ih (fun b there => quiet b (List.mem_cons_of_mem _ there)) (b.exec w).1)

-----------------------------------------------------------------------------------------
-- The HBD that is drawn
-----------------------------------------------------------------------------------------

/-- (DrawsPositive A) says that no HBD is drawn for an amount that is not positive. -/
def DrawsPositive (A : Type) [Assets A] : Prop :=
  ∀ (a : A) (amount : Int), amount ≤ 0 → (Assets.draw a amount).2 = false

theorem memAssets_drawsPositive : DrawsPositive MemAssets := by
  intro a amount nothing
  simp [Assets.draw, nothing]

theorem sdkAssets_drawsPositive (S : Type) [Sdk S] : DrawsPositive (SdkAssets S) := by
  intro a amount nothing
  have milli : hbdDrawMilli amount ≤ 0 := by
    unfold hbdDrawMilli
    rw [if_pos nothing]
  simp [Assets.draw, milli]

/-- A deposit that is asked for no HBD fails, as nothing is drawn for it. -/
theorem addLiquidity_undrawn (draws : DrawsPositive A) {ctx : Ctx} {lcIn maxHbd hbdIn : Int}
    (priced : hbdForDeposit w.rows lcIn maxHbd = .ok hbdIn) (nothing : hbdIn ≤ 0)
    : ((addLiquidity ctx lcIn maxHbd).run serve w).2.ok = false := by
  have refused := draws w.assets hbdIn nothing
  have priced : hbdForDeposit w.store.rows lcIn maxHbd = .ok hbdIn := priced
  cases started : w.store.rows.init with
  | false => simp [addLiquidity, rows, serve, started, fail]
  | true =>
      by_cases none_in : lcIn ≤ 0
      · simp [addLiquidity, rows, serve, started, none_in, fail]
      by_cases short : w.store.balance ctx.sender < lcIn
      · simp [addLiquidity, rows, balance, serve, started, none_in, short, fail]
      by_cases small : (lpSharesFor lcIn (w.store.rows.getAmount .poolLC)
          (w.store.rows.getAmount .poolShares)).getD 0 ≤ 0
      · simp [addLiquidity, rows, balance, serve, started, none_in, short, priced, small, fail]
      · simp [addLiquidity, rows, balance, draw, serve, started, none_in, short, priced, small,
          refused, fail]

-----------------------------------------------------------------------------------------
-- The round trip
-----------------------------------------------------------------------------------------

/-- (ReservesStocked r) says that both reserves and the shares are positive words. -/
structure ReservesStocked (r : Rows) : Prop where
  lc : 0 < r.getAmount .poolLC ∧ r.getAmount .poolLC < 2 ^ 63
  hbd : 0 < r.getAmount .poolHBD ∧ r.getAmount .poolHBD < 2 ^ 63
  shares : 0 < r.getAmount .poolShares ∧ r.getAmount .poolShares < 2 ^ 63

/-- A stocked pool prices a deposit within the limit of its caller. -/
theorem hbdForDeposit_stocked {lcIn maxHbd hbdIn : Int} (stocked : ReservesStocked r)
    (priced : hbdForDeposit r lcIn maxHbd = .ok hbdIn)
    : hbdRequiredFor lcIn (r.getAmount .poolLC) (r.getAmount .poolHBD) = some hbdIn
      ∧ hbdIn ≤ maxHbd := by
  have open_ : ¬(r.getAmount .poolShares ≤ 0 ∨ r.getAmount .poolLC ≤ 0
      ∨ r.getAmount .poolHBD ≤ 0) := by
    have := stocked.lc
    have := stocked.hbd
    have := stocked.shares
    omega
  unfold hbdForDeposit at priced
  dsimp only at priced
  rw [if_neg open_] at priced
  split at priced
  · cases priced
  · rename_i need required
    split at priced
    · cases priced
    · obtain rfl := Except.ok.inj priced
      exact ⟨required, by omega⟩

/-- What is paid of the HBD released is no more than that. -/
theorem paidOf_le {hbdOut brought : Int} (le : hbdOut ≤ brought) (nonneg : 0 ≤ brought)
    : paidOf hbdOut ≤ brought := by
  unfold paidOf
  split
  · exact nonneg
  · exact le

/-- A successful withdrawal releases what its tranche's shares are worth. -/
theorem Request.exec_withdraws {q : Request} (w : World A) {id : UInt64}
    (asked : q.action = .removeLiquidity id) (success : (q.exec w).2.ok = true)
    : ∃ lcOut paid, Withdraws w.rows (q.exec w).1.rows q.ctx.sender id.toNat lcOut paid
      ∧ (q.exec w).2.msg
        = "withdrew " ++ encI64 lcOut ++ " LASSECASH and " ++ encI64 paid ++ " HBD" :=
  q.exec_of_asks w (by rw [asked]; rfl) (removeLiquidity_answers (o := q.origin w) id.toNat
    (by rw [Request.origin, asked]; rfl)) success

/-- A successful deposit has brought some HBD. -/
theorem Request.exec_drawn (draws : DrawsPositive A) {lcIn maxHbd : Int64} {hbdIn : Int}
    (asked : q.action = .addLiquidity lcIn maxHbd) (success : (q.exec w).2.ok = true)
    (priced : hbdForDeposit w.rows lcIn.toInt maxHbd.toInt = .ok hbdIn)
    : 0 < hbdIn := by
  by_contra nothing
  have failed : ((addLiquidity q.ctx lcIn.toInt maxHbd.toInt).run serve w).2.ok = false :=
    addLiquidity_undrawn draws priced (not_lt.mp nothing)
  have same : (q.exec w).2 = (q.action.exec q.ctx w).2 := rfl
  rw [same, Action.exec_of_program (p := addLiquidity q.ctx lcIn.toInt maxHbd.toInt)
    (by rw [asked]; rfl), failed] at success
  cases success

/-- The provider gets back no more of either side than it brought to the pool. -/
theorem Request.deposit_withdraw {q' : Request} {lcIn maxHbd : Int64} {id : UInt64}
    {between : List Request} (draws : DrawsPositive A) (stocked : ReservesStocked w.rows)
    (deposit : q.action = .addLiquidity lcIn maxHbd) (deposited : (q.exec w).2.ok = true)
    (quiet : ∀ b ∈ between, Quiet b.ctx b.action) (sender : q'.ctx.sender = q.ctx.sender)
    (withdraw : q'.action = .removeLiquidity id)
    (opened : id.toNat = w.rows.getU64 (.lpSeq q.ctx.sender) + 1)
    (withdrew : (q'.exec (after (q.exec w).1 between)).2.ok = true)
    : ∃ hbdIn lcOut paid, ReserveMove w.rows (q.exec w).1.rows lcIn.toInt hbdIn
      ∧ (q.exec w).2.msg
        = "added " ++ encI64 lcIn.toInt ++ " LASSECASH and " ++ encI64 hbdIn ++ " HBD"
      ∧ ReserveMove (after (q.exec w).1 between).rows
          (q'.exec (after (q.exec w).1 between)).1.rows (-lcOut) (-paid)
      ∧ (q'.exec (after (q.exec w).1 between)).2.msg
        = "withdrew " ++ encI64 lcOut ++ " LASSECASH and " ++ encI64 paid ++ " HBD"
      ∧ lcOut ≤ lcIn.toInt ∧ paid ≤ hbdIn := by
  obtain ⟨hbdIn, shares, opens, told⟩ := q.exec_opens w deposit deposited
  obtain ⟨lcOut, paid, withdraws, answered⟩ := q'.exec_withdraws _ withdraw withdrew
  obtain ⟨⟨t, hbdOut, found, amounts, rfl⟩, released⟩ := withdraws
  have same := after_samePool quiet (q.exec w).1
  obtain ⟨held, there, worth⟩ := opens.holds
  obtain ⟨t', there', worth'⟩ := same.tranche _ _ held there
  have tranche : t = t' := by
    rw [sender, opened] at found
    exact Option.some.inj (found.symm.trans there')
  have move : ReserveMove w.rows (q.exec w).1.rows lcIn.toInt hbdIn := opens.move
  have issued : (q.exec w).1.rows.getAmount .poolShares
      = i64 (w.rows.getAmount .poolShares + shares) := opens.issued
  rw [tranche, worth', worth, same.shares, same.lc, same.hbd, issued, move.lc, move.hbd] at amounts
  obtain ⟨required, limit⟩ := hbdForDeposit_stocked stocked opens.priced
  have drawn := q.exec_drawn draws deposit deposited opens.priced
  have earned : lpSharesFor lcIn.toInt (w.rows.getAmount .poolLC) (w.rows.getAmount .poolShares)
      = some shares := by
    have some_earned := opens.some_earned
    have value : shares = (lpSharesFor lcIn.toInt (w.rows.getAmount .poolLC)
      (w.rows.getAmount .poolShares)).getD 0 := opens.earned
    cases earned : lpSharesFor lcIn.toInt (w.rows.getAmount .poolLC)
        (w.rows.getAmount .poolShares) with
    | none =>
        rw [earned, Option.getD_none] at value
        omega
    | some s =>
        rw [earned, Option.getD_some] at value
        rw [value]
  have word := Int64.toInt_lt lcIn
  have hbd_word := Int64.toInt_lt maxHbd
  obtain ⟨lc_le, hbd_le⟩ := deposit_withdraw_le stocked.lc.1 stocked.hbd.1 stocked.shares.1 word
    stocked.lc.2 stocked.hbd.2 stocked.shares.2 opens.positive required drawn (by omega) earned
    amounts
  exact ⟨hbdIn, lcOut, _, move, told, released, answered, lc_le, paidOf_le hbd_le drawn.le⟩

/-- No round trip is profitable: a withdrawal returns no more of either side than its deposit has
brought, the HBD of a deposit is its price rounded up exactly where the raise does not wrap, and
trading an output back returns no more than the input.
-/
theorem liquidity_roundTrips (draws : DrawsPositive A)
    : (∀ (w : World A) (q q' : Request) (lcIn maxHbd : Int64) (id : UInt64)
        (between : List Request), ReservesStocked w.rows
        → q.action = .addLiquidity lcIn maxHbd → (q.exec w).2.ok = true
        → (∀ b ∈ between, Quiet b.ctx b.action)
        → q'.ctx.sender = q.ctx.sender → q'.action = .removeLiquidity id
        → id.toNat = w.rows.getU64 (.lpSeq q.ctx.sender) + 1
        → (q'.exec (after (q.exec w).1 between)).2.ok = true
        → ∃ hbdIn lcOut paid, ReserveMove w.rows (q.exec w).1.rows lcIn.toInt hbdIn
          ∧ (q.exec w).2.msg
            = "added " ++ encI64 lcIn.toInt ++ " LASSECASH and " ++ encI64 hbdIn ++ " HBD"
          ∧ ReserveMove (after (q.exec w).1 between).rows
              (q'.exec (after (q.exec w).1 between)).1.rows (-lcOut) (-paid)
          ∧ (q'.exec (after (q.exec w).1 between)).2.msg
            = "withdrew " ++ encI64 lcOut ++ " LASSECASH and " ++ encI64 paid ++ " HBD"
          ∧ lcOut ≤ lcIn.toInt ∧ paid ≤ hbdIn)
      ∧ (∀ lcIn lcReserve hbdReserve : Int, lcIn < 2 ^ 63 → 0 < lcIn → 0 < lcReserve
        → 0 < hbdReserve
        → (hbdRequiredFor lcIn lcReserve hbdReserve
            = (if ⌈depositPrice lcIn lcReserve hbdReserve⌉ ≤ maxAmount then
                some ⌈depositPrice lcIn lcReserve hbdReserve⌉ else none)
          ↔ ¬((2 ^ 63 - 1) * lcReserve < hbdReserve * lcIn
            ∧ hbdReserve * lcIn < 2 ^ 63 * lcReserve)))
      ∧ ∀ reserveIn reserveOut amountIn out back : Int, reserveIn < 2 ^ 63 → reserveOut < 2 ^ 63
        → amountIn < 2 ^ 63 → swapOut reserveIn reserveOut amountIn = some out
        → swapOut (i64 (reserveOut - out)) (i64 (reserveIn + amountIn)) out = some back
        → back ≤ amountIn := by
  refine ⟨?_, ?_, ?_⟩
  · intro w q q' lcIn maxHbd id between stocked deposit deposited quiet sender withdraw opened
      withdrew
    exact Request.deposit_withdraw draws stocked deposit deposited quiet sender withdraw opened
      withdrew
  · intro lcIn lcReserve hbdReserve word deposits lc hbd
    exact hbdRequiredFor_ceil word deposits lc hbd
  · intro reserveIn reserveOut amountIn out back word out_word amount there again
    exact swap_back_le word out_word amount there again

/-- A third of a pool of a thousand, brought and taken back after a transfer. -/
theorem liquidity_thirdBack
    : let w := after (initialised ⟨.empty, fun _ => some 10000, none⟩ MemAssets.new 1)
        [⟨{ sender := "hive:ann", height := 1 }, .addLiquidity 1000 150001, true⟩]
      let q : Request := ⟨{ sender := "hive:bob", height := 1 }, .addLiquidity 333 100000, true⟩
      let q' : Request := ⟨{ sender := "hive:bob", height := 1 }, .removeLiquidity 1, true⟩
      let between : List Request :=
        [⟨{ sender := "hive:bob", height := 1 }, .transfer "hive:ann" 5, true⟩]
      ∃ hbdIn lcOut paid, ReserveMove w.rows (q.exec w).1.rows 333 hbdIn
        ∧ (q.exec w).2.msg = "added " ++ encI64 333 ++ " LASSECASH and " ++ encI64 hbdIn ++ " HBD"
        ∧ ReserveMove (after (q.exec w).1 between).rows
            (q'.exec (after (q.exec w).1 between)).1.rows (-lcOut) (-paid)
        ∧ (q'.exec (after (q.exec w).1 between)).2.msg
          = "withdrew " ++ encI64 lcOut ++ " LASSECASH and " ++ encI64 paid ++ " HBD"
        ∧ lcOut ≤ 333 ∧ paid ≤ hbdIn :=
  (liquidity_roundTrips memAssets_drawsPositive).1 _ _ _ 333 100000 1 _
    ⟨by decide +kernel, by decide +kernel, by decide +kernel⟩ rfl (by decide +kernel)
    (by
      intro b there
      rw [List.mem_singleton.mp there]
      exact ⟨rfl, rfl⟩)
    rfl rfl (by decide +kernel) (by decide +kernel)

end Worlds

end LasseCash.State
