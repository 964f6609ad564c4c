import LasseCash.State.StepSides

/-! The pools of the content windows: they stay words, and a payout takes the rshares of its post
off the total of the window exactly when its pool holds something.
-/

namespace LasseCash.State

open Engine MachineInt Function Program

variable {o : Origin} {whole : Prop} {r r' : Rows}

-----------------------------------------------------------------------------------------
-- Words
-----------------------------------------------------------------------------------------

/-- The pools of the windows are words. -/
def PoolWords (r : Rows) : Prop := ∀ w, r.getAmount (poolKey w) < 2 ^ 63

theorem poolKey_side (w : Window) : (poolKey w).side = .contentPools := by
  cases w <;> rfl

theorem PoolWords.touches {sides : List Side} (h : PoolWords r) (moved : Touches sides r r')
    (away : sides.contains .contentPools = false)
    : PoolWords r' := by
  intro w
  rw [moved.amount (poolKey w) (by rw [poolKey_side]; exact away)]
  exact h w

theorem PoolWords.addPool (h : PoolWords r) (k : AmountKey) (amt : Int)
    : PoolWords (addPool r k amt) := by
  intro w
  unfold State.addPool
  split
  · by_cases here : poolKey w = k
    · simpa [here] using (i64_mem _).upper
    · simpa [here] using h w
  · exact h w

theorem PoolWords.fundTarget (h : PoolWords r) (target : String) (amt : Int)
    : PoolWords (fundTarget r target amt) := by
  have shared (amt : Int) : PoolWords (fundPoB r amt) := by
    unfold fundPoB
    split
    · exact h
    · exact (h.addPool _ _).addPool _ _
  have recycled {r : Rows} (h : PoolWords r) (amt : Int)
      : PoolWords (recycleThroughAccumulator r amt) :=
    h.touches (recycle_touches r amt) rfl
  unfold State.fundTarget
  split
  · exact shared amt
  split
  · exact h.addPool _ _
  split
  · exact h.addPool _ _
  split
  · exact h.addPool _ _
  split
  · exact recycled h amt
  split
  · exact recycled ((shared _).addPool _ _) _
  · exact h

theorem PoolWords.accrue {height : Nat} (h : PoolWords r) (accrued : Accrues height r r')
    : PoolWords r' := by
  cases accrued with
  | idle => exact h
  | stalled maxDays budget behind due => exact h.touches (callWalk_touches r height maxDays budget) rfl
  | booked maxDays budget behind due next sum =>
      have walked : PoolWords ((callWalk r height maxDays budget).rows.setAmount .emitted next) :=
        h.touches (((callWalk_touches r height maxDays budget).widen (by decide)).setAmount .emitted next rfl :
          Touches [.shares, .schedule, .checkpoints, .supply] _ _) (by rfl)
      exact ((((walked.addPool _ _).addPool _ _).addPool _ _).addPool _ _).touches (commit_touches _ _) (by rfl)
  | flat maxDays budget behind none_due =>
      exact (h.touches (callWalk_touches r height maxDays budget) rfl).touches (commit_touches _ _) (by rfl)

-----------------------------------------------------------------------------------------
-- Claims
-----------------------------------------------------------------------------------------

theorem poolKey_inj {w w' : Window} : poolKey w = poolKey w' ↔ w = w' := by
  cases w <;> cases w' <;> simp [poolKey]

theorem rsharesKey_inj {w w' : Window} : rsharesKey w = rsharesKey w' ↔ w = w' := by
  cases w <;> cases w' <;> simp [rsharesKey]

theorem poolKey_ne_rsharesKey (w w' : Window) : poolKey w ≠ rsharesKey w' := by
  cases w <;> cases w' <;> nofun

/-- A payout takes the rshares of its post off the total of its window, and off no other. -/
theorem claimPool_rshares (words : PoolWords r) {w : Window} {rshares : Int} (nonneg : 0 ≤ rshares)
    (part : rshares ≤ r.getAmount (rsharesKey w)) (total : r.getAmount (rsharesKey w) < 2 ^ 63)
    (stocked : 0 < rshares → 0 < r.getAmount (poolKey w)) (w' : Window)
    : (claimPool r w rshares).2.getAmount (rsharesKey w')
      = if w' = w then r.getAmount (rsharesKey w) - rshares else r.getAmount (rsharesKey w') := by
  have left := Pool.claim_rshares ⟨r.getAmount (poolKey w), r.getAmount (rsharesKey w)⟩
    (words w) nonneg part total stocked
  by_cases here : w' = w
  · subst here
    simpa [claimPool] using left
  · simp [claimPool, rsharesKey_inj, here, (poolKey_ne_rsharesKey _ _).symm]

theorem PoolWords.claimPool (h : PoolWords r) (w : Window) (rshares : Int)
    : PoolWords (claimPool r w rshares).2 := by
  intro w'
  have left := Pool.claim_balance_lt ⟨r.getAmount (poolKey w), r.getAmount (rsharesKey w)⟩
    (h w) rshares
  by_cases here : w' = w
  · subst here
    simpa [State.claimPool, poolKey_ne_rsharesKey] using left
  · simpa [State.claimPool, poolKey_inj, here, poolKey_ne_rsharesKey] using h w'

/-- A payout takes its total out of the pool of its window. -/
theorem claimPool_takes (words : PoolWords r) (w : Window) (rshares : Int)
    : (claimPool r w rshares).2.getAmount (poolKey w)
      = r.getAmount (poolKey w) - (claimPool r w rshares).1 := by
  have left := Pool.claim_balance ⟨r.getAmount (poolKey w), r.getAmount (rsharesKey w)⟩
    (words w) rshares
  simpa [State.claimPool, poolKey_ne_rsharesKey] using left

/-- What a payout leaves of the pools and of the totals is what its claim leaves. -/
theorem payoutRows_amount (r : Rows) (height : Nat) (author permlink : String) (p : PostRec)
    : (payoutRows r height author permlink p).amount = (claimPool r p.window p.rshares).2.amount := by
  unfold payoutRows
  dsimp only
  split <;> rfl

-----------------------------------------------------------------------------------------
-- Every step
-----------------------------------------------------------------------------------------

theorem ContentWrite.poolWords (h : ContentWrite o r r') (words : PoolWords r) : PoolWords r' := by
  cases h with
  | pay author permlink p asked accrued found unpaid closed =>
      intro w
      rw [Rows.getAmount, payoutRows_amount]
      exact words.claimPool p.window p.rshares w
  | sweepPot author permlink p found paid pot ripe =>
      exact PoolWords.touches (r := r.putPost author permlink _) words (recycle_touches _ _) rfl
  | advanceHead account => exact words.touches (advanceHead_touches account _ _ r) (by rfl)
  | unvote author permlink weightPct p prev asked found unpaid open_ vote =>
      exact words.touches (setRshares_touches
        (((Touches.refl r).putPost author permlink _ (by rfl)).setPostVote _ none (by rfl)) _ _) (by rfl)
  | vote author permlink weightPct p power asked found unpaid open_ opened positive =>
      exact words.touches (writeVote_touches r o.ctx author permlink p _ power) (by rfl)
  | publish | boost | owe | forfeit | claim | clearSlot | roll => exact words

theorem LiquidityWrite.poolWords (h : LiquidityWrite o whole r r') (words : PoolWords r)
    : PoolWords r' := by
  cases h with
  | settle owner id t asked accrued found going own =>
      exact words.touches (settleRows_touches r _ id t) (by rfl)
  | touch id t found going => exact words
  | deposit done lcIn maxHbd hbdIn shares r₁ asked first positive priced earned some_earned
      accrues strides =>
      have deposited := words.touches (depositRows_touches r lcIn.toInt hbdIn shares) rfl
      exact (deposited.accrue accrues).touches (deposited_touches accrues o.ctx).1 rfl
  | withdraw asked owner id t lcOut hbdOut paid r₁ found going own amounts dust noted =>
      exact words.touches ((takenFromPool_touches noted).putTranche id _ (by rfl)) (by rfl)
  | strand torn asked owner id t lcOut hbdOut paid found going own amounts dust =>
      exact words.touches (takeFromPool_touches r t lcOut paid) rfl
  | sellLC lcIn minOut out asked swap =>
      exact words.touches (((Touches.refl r).setAmount .poolLC _ (by rfl)).setAmount .poolHBD _ (by rfl) :
        Touches [.reserves] _ _) (by rfl)
  | buyLC hbdIn minOut out asked swap =>
      exact words.touches (((Touches.refl r).setAmount .poolHBD _ (by rfl)).setAmount .poolLC _ (by rfl) :
        Touches [.reserves] _ _) (by rfl)

/-- The pools stay words, whatever the step. -/
theorem Step.poolWords (h : Step o whole r r') (words : PoolWords r) : PoolWords r' := by
  cases h with
  | ledger step =>
      rcases step.kinds with quiet | ⟨next, rfl⟩ | accrued | ⟨target, amt, _, _, _, _, rfl⟩
      · exact words.touches quiet rfl
      · exact words.touches ((Touches.refl r).setAmount .migrated next rfl : Touches [.supply] _ _) (by rfl)
      · exact words.accrue accrued
      · exact words.fundTarget target _
  | mint step => exact words.touches step.touches rfl
  | content step => exact step.poolWords words
  | liquidity step => exact step.poolWords words
  | migration step => exact words.touches step.touches rfl

-----------------------------------------------------------------------------------------
-- Payouts
-----------------------------------------------------------------------------------------

section Worlds

variable {A : Type} [Assets A] {w : World A}

/-- A payout that is not refused at once books the emission and closes the post. -/
theorem payout_run (ctx : Ctx) {author permlink : String} {p : PostRec}
    (started : w.rows.init = true) (found : w.rows.getPost author permlink = some p)
    (unpaid : p.paidOut = false) (closed : p.closesAt ≤ ctx.height)
    : (payout ctx author permlink).run serve w
      = (closePost ctx author permlink p).run serve ((settle ctx).run serve w).1 := by
  have start : w.store.rows.init = true := started
  have there : w.store.rows.getPost author permlink = some p := found
  simp only [payout, closePost, rows, run_bind, run_issue, serve, start, there, run_ite, unpaid,
    not_lt.mpr closed]
  simp

/-- Otherwise it refuses and changes nothing. -/
theorem payout_refused (ctx : Ctx) (author permlink : String)
    (refused : ¬∃ p, w.rows.init = true ∧ w.rows.getPost author permlink = some p
      ∧ p.paidOut = false ∧ p.closesAt ≤ ctx.height)
    : ∃ reason, (payout ctx author permlink).run serve w = (w, fail reason) := by
  cases started : w.store.rows.init with
  | false => exact ⟨"not initialised", by simp [payout, rows, serve, started]⟩
  | true =>
      cases found : w.store.rows.getPost author permlink with
      | none => exact ⟨"no such post", by simp [payout, rows, serve, started, found]⟩
      | some p =>
          cases unpaid : p.paidOut with
          | true => exact ⟨"already paid out", by simp [payout, rows, serve, started, found, unpaid]⟩
          | false =>
              have early : ctx.height < p.closesAt := by
                by_contra closed
                exact refused ⟨p, started, found, unpaid, not_lt.mp closed⟩
              exact ⟨"window still open", by simp [payout, rows, serve, started, found, unpaid, early]⟩

/-- (Closes q author permlink p w r₁) says what a payout finds: a post whose window is over, and
the rows `r₁` that booking the emission leaves.
-/
structure Closes (q : Request) (author permlink : String) (p : PostRec) (w : World A)
    (r₁ : Rows) : Prop where
  found : w.rows.getPost author permlink = some p
  unpaid : p.paidOut = false
  closed : p.closesAt ≤ q.ctx.height
  booked : r₁ = ((settle q.ctx).run serve w).1.rows
  accrued : Accrues q.ctx.height w.rows r₁
  strides : w.Reliable → Strides q.ctx.height w.rows r₁

/-- A payout changes nothing, or it closes its post in the rows that booking the emission leaves. -/
theorem Request.exec_payout {q : Request} {author permlink : String}
    (asked : q.action = .payout author permlink)
    : (q.exec w).1.rows = w.rows ∨ ∃ p r₁, Closes q author permlink p w r₁
      ∧ Touches [.pending, .roll] (payoutRows r₁ q.ctx.height author permlink p)
        (q.exec w).1.rows := by
  have ran : (q.action.exec q.ctx w).1.rows = w.rows ∨ ∃ p r₁, Closes q author permlink p w r₁
      ∧ Touches [.pending, .roll] (payoutRows r₁ q.ctx.height author permlink p)
        (q.action.exec q.ctx w).1.rows := by
    rw [Action.exec_of_program (p := payout q.ctx author permlink) (by rw [asked]; rfl)]
    by_cases ready : ∃ p, w.rows.init = true ∧ w.rows.getPost author permlink = some p
        ∧ p.paidOut = false ∧ p.closesAt ≤ q.ctx.height
    · obtain ⟨p, started, found, unpaid, closed⟩ := ready
      obtain ⟨accrued, strides⟩ := asks_serve id (settle_asks (q.origin w)) (w := w)
      rw [payout_run q.ctx started found unpaid closed]
      refine .inr ⟨p, _, ⟨found, unpaid, closed, rfl, accrued, strides⟩, ?_⟩
      have found₁ := (accrued.touches.getPost author permlink rfl).trans found
      have paid : Moves (q.origin w) _ (payoutRows _ q.ctx.height author permlink p) :=
        (Moves.refl _).step fun _ => .content <| .pay author permlink p asked accrued found₁ unpaid
          closed
      exact (asks_serve (fun sure => run_reliable _ sure)
        (closePost_asks (o := q.origin w) author permlink p paid)).2
    · obtain ⟨reason, refused⟩ := payout_refused q.ctx author permlink ready
      exact .inl (congrArg (·.1.rows) refused)
  unfold Request.exec
  dsimp only
  split
  · exact .inl rfl
  · exact ran

end Worlds

end LasseCash.State
