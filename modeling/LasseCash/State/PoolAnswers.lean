import LasseCash.State.LiquiditySyncs
import LasseCash.State.MigrationMoves

/-! What the operations of the pool answer: each success names the amounts by which it has moved the
reserves, and no other operation moves them.
-/

namespace LasseCash.State

open Engine MachineInt Program

variable {o : Origin} {r r' : Rows}

-----------------------------------------------------------------------------------------
-- Reserves
-----------------------------------------------------------------------------------------

/-- (ReserveMove r r' lc hbd) says that the reserves have moved by these amounts. -/
structure ReserveMove (r r' : Rows) (lc hbd : Int) : Prop where
  lc : r'.getAmount .poolLC = i64 (r.getAmount .poolLC + lc)
  hbd : r'.getAmount .poolHBD = i64 (r.getAmount .poolHBD + hbd)

/-- Writes that keep the reserves may come before and after. -/
theorem ReserveMove.around {sides sides' : List Side} {r₀ r₁ : Rows} {lc hbd : Int}
    (before : Touches sides r r₀) (move : ReserveMove r₀ r₁ lc hbd) (after : Touches sides' r₁ r')
    (away : sides.contains .reserves = false)
    (away' : sides'.contains .reserves = false)
    : ReserveMove r r' lc hbd where
  lc := by rw [after.amount .poolLC away', move.lc, before.amount .poolLC away]
  hbd := by rw [after.amount .poolHBD away', move.hbd, before.amount .poolHBD away]

/-- No other operation moves the reserves, by cases on its steps. -/
theorem Step.reserves {whole : Prop} (h : Step o whole r r')
    (other : o.action.trades = false)
    : r'.getAmount .poolLC = r.getAmount .poolLC ∧ r'.getAmount .poolHBD = r.getAmount .poolHBD := by
  have apart {sides : List Side} (touched : Touches sides r r')
      (away : sides.contains .reserves = false)
      : r'.getAmount .poolLC = r.getAmount .poolLC ∧ r'.getAmount .poolHBD = r.getAmount .poolHBD :=
    ⟨touched.amount .poolLC away, touched.amount .poolHBD away⟩
  have moves {P : Prop} (asked : o.action.trades = true) : P := by
    rw [other] at asked
    cases asked
  have withdrawal {P : Prop} (asked : o.action.withdraws = true) : P :=
    moves (Action.trades_of_withdraws asked)
  cases h with
  | ledger step => exact apart step.touches rfl
  | mint step => exact apart step.touches rfl
  | content step => exact apart step.touches rfl
  | migration step => exact apart step.touches rfl
  | liquidity step =>
      cases step with
      | settle owner id t asked accrued found going own => exact apart (settleRows_touches r _ id t) rfl
      | touch id t found going =>
          exact apart ((Touches.refl r).putTranche id _ (by rfl) : Touches [.tranches] r _) rfl
      | deposit done lcIn maxHbd hbdIn shares r₁ asked first positive priced earned some_earned
          accrues strides => exact moves (by rw [asked]; rfl)
      | withdraw asked owner id t lcOut hbdOut paid r₁ found going own amounts dust noted =>
          exact withdrawal asked
      | strand torn asked owner id t lcOut hbdOut paid found going own amounts dust =>
          exact withdrawal asked
      | sellLC lcIn minOut out asked swap => exact moves (by rw [asked]; rfl)
      | buyLC hbdIn minOut out asked swap => exact moves (by rw [asked]; rfl)

-----------------------------------------------------------------------------------------
-- Deposits
-----------------------------------------------------------------------------------------

theorem depositRows_move (r : Rows) (lcIn hbdIn shares : Int)
    : ReserveMove r (depositRows r lcIn hbdIn shares) lcIn hbdIn :=
  ⟨by simp [depositRows], by simp [depositRows]⟩

/-- A deposit moves the reserves by what it brings. -/
theorem Opened.move {lcIn maxHbd hbdIn shares : Int} (opened : Opened o lcIn maxHbd hbdIn shares r')
    : ReserveMove o.start r' lcIn hbdIn := by
  obtain ⟨r₁, accrues, rfl⟩ := opened.opens
  obtain ⟨opens, accrual⟩ := deposited_touches accrues o.ctx
  have after : Touches (accrualSides ++ [.tranches, .lpAccumulator]) _ _ :=
    (accrual.widen (by decide)).trans (opens.widen (by decide))
  exact (depositRows_move o.start lcIn hbdIn shares).around (Touches.refl _ : Touches [] _ _) after
    (by rfl) (by rfl)

/-- A deposit names what it brings. -/
theorem addLiquidity_answers {lcIn maxHbd : Int64} (asked : o.action = .addLiquidity lcIn maxHbd)
    : Asks o (addLiquidity o.ctx lcIn.toInt maxHbd.toInt)
      (fun res r' => res.ok = true
        → 0 < lcIn.toInt ∧ ∃ hbdIn, hbdForDeposit o.start lcIn.toInt maxHbd.toInt = .ok hbdIn
          ∧ ReserveMove o.start r' lcIn.toInt hbdIn
          ∧ res.msg = "added " ++ encI64 lcIn.toInt ++ " LASSECASH and " ++ encI64 hbdIn ++ " HBD")
      o.start := by
  have trades : o.action.trades = true := by rw [asked]; rfl
  refine (addLiquidity_opens lcIn.toInt maxHbd.toInt trades).mono fun res r' opens success => ?_
  obtain ⟨hbdIn, shares, opened, told⟩ := opens success
  exact ⟨opened.positive, hbdIn, opened.priced, opened.move, told⟩

-----------------------------------------------------------------------------------------
-- Withdrawals
-----------------------------------------------------------------------------------------

theorem takeFromPool_move (r : Rows) (t : Tranche) (lcOut paid : Int)
    : ReserveMove r (takeFromPool r t lcOut paid) (-lcOut) (-paid) :=
  ⟨by simp [takeFromPool, sub_eq_add_neg], by simp [takeFromPool, sub_eq_add_neg]⟩

/-- What is paid of the HBD that a withdrawal releases: dust stays. -/
def paidOf (hbdOut : Int) : Int := if 0 < hbdOut ∧ hbdPayMilli hbdOut ≤ 0 then 0 else hbdOut

theorem payHbd_pays (trades : o.action.trades = true) (owner : String) (hbdOut : Int)
    : Asks o (payHbd owner hbdOut)
      (fun paid r' => r' = r ∧ ∀ real, paid = some real → real = paidOf hbdOut) r := by
  simp only [payHbd, Asks, wp_ite, wp_pure, wp_bind, asks_transferHbd, trades, true_and,
    Option.some.injEq]
  have whole (pays : ¬(0 < hbdOut ∧ hbdPayMilli hbdOut ≤ 0)) : hbdOut = paidOf hbdOut :=
    (if_neg pays).symm
  refine ⟨fun nothing => ?_, fun owed => ⟨fun dust => ?_, fun paid b => ⟨fun _ => ?_, fun _ => ?_⟩⟩⟩
  · rintro real rfl
    exact whole fun dust => absurd dust.1 (not_lt.mpr nothing)
  · rintro real rfl
    exact (if_pos ⟨not_le.mp owed, dust⟩).symm
  · rintro real rfl
    exact whole fun dust => paid dust.2
  · exact (by rintro _ ⟨⟩)

/-- (Withdraws r r' owner id lcOut paid) says that dissolving the tranche releases these amounts of
the reserves.
-/
structure Withdraws (r r' : Rows) (owner : String) (id : Nat) (lcOut paid : Int) : Prop where
  part : ∃ t hbdOut, r.getTranche owner id = some t
    ∧ withdrawAmounts t.shares (r.getAmount .poolShares) (r.getAmount .poolLC)
        (r.getAmount .poolHBD) = some (lcOut, hbdOut)
    ∧ paid = paidOf hbdOut
  move : ReserveMove r r' (-lcOut) (-paid)

/-- A withdrawal names what it releases. -/
theorem closeTranche_answers (owner : String) (id : Nat) (withdraws : o.action.withdraws = true)
    : Asks o (closeTranche o.ctx owner id)
      (fun res r' => res.ok = true
        → ∃ lcOut paid, Withdraws o.start r' owner id lcOut paid
          ∧ res.msg
            = "withdrew " ++ encI64 lcOut ++ " LASSECASH and " ++ encI64 paid ++ " HBD")
      o.start := by
  simp only [closeTranche, Asks, wp_bind, asks_rows]
  cases found : o.start.getTranche owner id with
  | none => exact of_refused
  | some t =>
      simp only [wp_bind, asks_rows, wp_ite, wp_pure]
      refine ⟨fun _ => of_refused, fun going => ?_⟩
      refine (settleTranche_asks owner id).mono fun settled r₁ h => ?_
      rcases h with ⟨_, rfl, closed⟩ | ⟨t', found', going', at_, acc, res, rfl, there⟩
      · exact absurd (closed t found) (by simpa using going)
      obtain rfl : t' = t := Option.some.inj (found'.symm.trans found)
      have before : Touches (.roll :: accrualSides ++ settleSides) o.start r₁ := by
        obtain ⟨r₀, accrues, -, -, settled⟩ := at_
        have accrued : Touches (.roll :: accrualSides ++ settleSides) o.start r₀ :=
          accrues.touches.widen (by decide)
        have paid := accrued.trans ((settleRows_touches r₀ o.ctx.height id t').widen (by decide))
        rcases settled with rfl | rfl
        · exact paid
        · exact paid.noteAccount owner rfl
      rw [there]
      dsimp only
      cases amounts : withdrawAmounts (t'.registered o.ctx.height acc).shares
          (r₁.getAmount .poolShares) (r₁.getAmount .poolLC) (r₁.getAmount .poolHBD) with
      | none => exact of_refused
      | some out =>
          obtain ⟨lcOut, hbdOut⟩ := out
          simp only [wp_bind]
          refine (payHbd_pays (Action.trades_of_withdraws withdraws) owner hbdOut).mono
            fun paid r₂ h => ?_
          obtain ⟨rfl, dust⟩ := h
          cases paid with
          | none => exact of_refused
          | some paid =>
              have dust := dust paid rfl
              rw [before.amount .poolShares rfl, before.amount .poolLC rfl, before.amount .poolHBD rfl]
                at amounts
              have released {sides : List Side} {r' : Rows}
                  (after : Touches sides (takeFromPool r₂ (t'.registered o.ctx.height acc) lcOut
                    paid) r')
                  (away : sides.contains .reserves = false)
                  : Withdraws o.start r' owner id lcOut paid :=
                ⟨⟨t', hbdOut, found, amounts, dust⟩,
                  (takeFromPool_move r₂ _ lcOut paid).around before after rfl away⟩
              have kept := (takeFromPool_touches r₂ (t'.registered o.ctx.height acc) lcOut
                paid).sameSupply rfl rfl
              have closed (r₃ : Rows) (noted : r₃ = takeFromPool r₂ (t'.registered o.ctx.height acc)
                    lcOut paid ∨ r₃ = noteAccount (takeFromPool r₂
                      (t'.registered o.ctx.height acc) lcOut paid) owner) (next : Tranche)
                  : Withdraws o.start (r₃.putTranche id next) owner id lcOut paid := by
                have after : Touches [.roll, .tranches] (takeFromPool r₂
                    (t'.registered o.ctx.height acc) lcOut paid) (r₃.putTranche id next) := by
                  rcases noted with rfl | rfl
                  · exact (Touches.refl _).putTranche id next (by rfl)
                  · exact ((Touches.refl _).noteAccount owner (by rfl)).putTranche id next (by rfl)
                exact released after rfl
              simp only [wp_bind, asks_modify, asks_credit, wp_ite, wp_pure]
              refine ⟨kept, fun b => ⟨fun _ => of_refused, fun _ => ⟨putTranche_supply _ _ _,
                fun _ => ⟨_, _, closed _ (.inl rfl) _, rfl⟩⟩⟩, ?_, fun _ =>
                ⟨putTranche_supply _ _ _, fun _ => ⟨_, _, closed _ (.inr rfl) _, rfl⟩⟩⟩
              simp

theorem removeLiquidity_answers (id : Nat) (withdraws : o.action.withdraws = true)
    : Asks o (removeLiquidity o.ctx id)
      (fun res r' => res.ok = true
        → ∃ lcOut paid, Withdraws o.start r' o.ctx.sender id lcOut paid
          ∧ res.msg
            = "withdrew " ++ encI64 lcOut ++ " LASSECASH and " ++ encI64 paid ++ " HBD")
      o.start :=
  closeTranche_answers o.ctx.sender id withdraws

theorem sweepTranche_answers (owner : String) (id : Nat) (withdraws : o.action.withdraws = true)
    : Asks o (sweepTranche o.ctx owner id)
      (fun res r' => res.ok = true
        → ∃ lcOut paid, Withdraws o.start r' owner id lcOut paid
          ∧ res.msg
            = "withdrew " ++ encI64 lcOut ++ " LASSECASH and " ++ encI64 paid ++ " HBD")
      o.start := by
  simp only [sweepTranche, Asks, wp_bind, asks_rows]
  cases o.start.getTranche owner id with
  | none => exact of_refused
  | some t =>
      simp only [wp_ite, wp_pure]
      exact ⟨fun _ => of_refused, fun _ => ⟨fun _ => of_refused, fun _ =>
        closeTranche_answers owner id withdraws⟩⟩

-----------------------------------------------------------------------------------------
-- Swaps
-----------------------------------------------------------------------------------------

/-- A sale names the HBD it pays. -/
theorem swapLCForHBD_answers {lcIn minOut : Int64} (asked : o.action = .swapLCForHBD lcIn minOut)
    : Asks o (swapLCForHBD o.ctx lcIn.toInt minOut.toInt)
      (fun res r' => res.ok = true
        → ∃ out, swapOut (r.getAmount .poolLC) (r.getAmount .poolHBD) lcIn.toInt = some out
          ∧ ReserveMove r r' lcIn.toInt (-out) ∧ res.msg = "swapped for " ++ encI64 out ++ " HBD")
      r := by
  simp only [swapLCForHBD, Asks, wp_bind, asks_rows, wp_ite, wp_pure, asks_balance]
  refine ⟨fun _ => of_refused, fun _ _ => ⟨fun _ => of_refused, fun _ => ?_⟩⟩
  cases swap : swapOut (r.getAmount .poolLC) (r.getAmount .poolHBD) lcIn.toInt with
  | none => exact of_refused
  | some out =>
      have trades : o.action.trades = true := by rw [asked]; rfl
      simp only [wp_ite, wp_bind, wp_pure, asks_debit, trades, true_and, asks_transferHbd,
        asks_credit, asks_modify]
      refine ⟨fun _ => of_refused, fun _ _ => ⟨fun _ => of_refused, fun _ _ => ⟨fun _ =>
        ⟨fun _ => of_refused, of_refused⟩, fun _ => ⟨⟨rfl, rfl, fun _ => id⟩, fun _ => ?_⟩⟩⟩⟩
      exact ⟨out, rfl, ⟨by simp, by simp [sub_eq_add_neg]⟩, rfl⟩

/-- A purchase names the LASSECASH it pays. -/
theorem swapHBDForLC_answers {hbdIn minOut : Int64} (asked : o.action = .swapHBDForLC hbdIn minOut)
    : Asks o (swapHBDForLC o.ctx hbdIn.toInt minOut.toInt)
      (fun res r' => res.ok = true
        → ∃ out, swapOut (r.getAmount .poolHBD) (r.getAmount .poolLC) hbdIn.toInt = some out
          ∧ ReserveMove r r' (-out) hbdIn.toInt
          ∧ res.msg = "swapped for " ++ encI64 out ++ " LASSECASH")
      r := by
  simp only [swapHBDForLC, Asks, wp_bind, asks_rows, wp_ite, wp_pure]
  refine ⟨fun _ => of_refused, fun _ => ?_⟩
  cases swap : swapOut (r.getAmount .poolHBD) (r.getAmount .poolLC) hbdIn.toInt with
  | none => exact of_refused
  | some out =>
      have trades : o.action.trades = true := by rw [asked]; rfl
      simp only [wp_ite, wp_bind, wp_pure, asks_draw, trades, true_and, asks_setRows, asks_credit]
      refine ⟨fun _ => of_refused, fun _ _ => ⟨fun _ => of_refused, fun _ => ⟨⟨rfl, rfl, fun _ => id⟩, ?_⟩⟩⟩
      generalize bought : ((r.setAmount .poolHBD _).setAmount .poolLC _ : Rows) = r₁
      have move : ReserveMove r r₁ (-out) hbdIn.toInt :=
        ⟨by simp [← bought, sub_eq_add_neg], by simp [← bought]⟩
      have noted : ReserveMove r (noteAccount r₁ o.ctx.sender) (-out) hbdIn.toInt :=
        move.around (Touches.refl _ : Touches [] _ _)
          ((Touches.refl _).noteAccount _ (by rfl) : Touches [.roll] _ _) (by rfl) (by rfl)
      exact ⟨fun _ => ⟨fun _ => of_refused, fun _ _ => ⟨out, rfl, move, rfl⟩⟩, fun _ => of_refused,
        fun _ _ => ⟨out, rfl, noted, rfl⟩⟩

-----------------------------------------------------------------------------------------
-- Worlds
-----------------------------------------------------------------------------------------

variable {A : Type} [Assets A]

/-- What an operation asks for, whatever the ledger is like, it does on a world. -/
theorem Action.exec_asks {ctx : Ctx} {action : Action} {p : Op Result}
    (program : action.program ctx = some p) {w : World A} {Q : Result → Rows → Prop}
    (holds : Asks ⟨ctx, action, w.rows, False⟩ p Q w.rows)
    : Q (action.exec ctx w).2 (action.exec ctx w).1.rows := by
  rw [Action.exec_of_program program]
  exact asks_serve False.elim holds

/-- An operation outside the pool leaves the reserves. -/
theorem Request.exec_reserves {q : Request} (other : q.action.trades = false) (w : World A)
    : (q.exec w).1.rows.getAmount .poolLC = w.rows.getAmount .poolLC
      ∧ (q.exec w).1.rows.getAmount .poolHBD = w.rows.getAmount .poolHBD :=
  (q.exec_steps w).keep
    (I := fun r => r.getAmount .poolLC = w.rows.getAmount .poolLC
      ∧ r.getAmount .poolHBD = w.rows.getAmount .poolHBD)
    (fun _ _ kept step =>
      ⟨(step.reserves other).1.trans kept.1, (step.reserves other).2.trans kept.2⟩) ⟨rfl, rfl⟩

end LasseCash.State
