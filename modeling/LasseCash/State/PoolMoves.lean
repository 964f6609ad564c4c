import LasseCash.State.Moves

/-! Deposits, settlements, withdrawals and swaps move the rows by steps. -/

namespace LasseCash.State

open Engine MachineInt Program

variable {o : Origin} {r : Rows}

-----------------------------------------------------------------------------------------
-- Settlements
-----------------------------------------------------------------------------------------

/-- A found tranche carries the owner it was looked up under. -/
theorem getTranche_owner {account : String} {id : Nat} {t : Tranche}
    (found : r.getTranche account id = some t)
    : t.owner = account := by
  obtain ⟨t₀, _, rfl⟩ := Option.map_eq_some_iff.mp found
  rfl

theorem putTranche_supply (r : Rows) (id : Nat) (t : Tranche) : SameSupply r (r.putTranche id t) :=
  ⟨rfl, rfl, fun _ there => there⟩

/-- What settling a tranche writes. -/
abbrev settleSides : List Side := [.lpAccumulator, .liquidityPool, .tranches]

theorem settleRows_touches (r : Rows) (height id : Nat) (t : Tranche)
    : Touches settleSides r (settleRows r height id t) := by
  have weighed : Touches settleSides r (reweigh (syncPoolAccumulator r).1 id t
      (t.registered height (syncPoolAccumulator r).2)) :=
    ((syncPoolAccumulator_touches r).widen (by decide)).trans ((reweigh_touches _ _ _ _).widen (by decide))
  unfold settleRows
  dsimp only
  split
  · exact weighed
  · exact weighed.trans ((takeReward_touches _ _).widen (by decide))

/-- The tranche under a settled id, whether or not it is paid. -/
theorem settleRows_tranche (r : Rows) (height id : Nat) (t : Tranche)
    : (settleRows r height id t).tranche = Function.update r.tranche (t.owner, id)
      (some (t.registered height (syncPoolAccumulator r).2)) := by
  have synced := (syncPoolAccumulator_touches r).tranche rfl
  unfold settleRows
  dsimp only
  split
  · simp [reweigh, synced, Tranche.registered]
  · simp [takeReward, reweigh, synced, Tranche.registered]

/-- (SettledAt o r owner id t r') says that `r'` is what settling the open tranche `t` left: the
rows after one accrual with the tranche settled, and perhaps its owner noted.
-/
def SettledAt (o : Origin) (r : Rows) (owner : String) (id : Nat) (t : Tranche) (r' : Rows)
    : Prop :=
  ∃ r₁, Accrues o.ctx.height r r₁ ∧ (o.sure → Strides o.ctx.height r r₁)
    ∧ r₁.getTranche owner id = some t
    ∧ (r' = settleRows r₁ o.ctx.height id t
      ∨ r' = noteAccount (settleRows r₁ o.ctx.height id t) owner)

/-- A settlement from the rows that the operation found. -/
theorem settleTranche_asks (owner : String) (id : Nat)
    : Asks o (settleTranche o.ctx owner id)
      (fun settled r' =>
        settled = (none, fail "no open tranche") ∧ r' = o.start
          ∧ (∀ t, o.start.getTranche owner id = some t → t.closed = true)
        ∨ ∃ t, o.start.getTranche owner id = some t ∧ t.closed = false
          ∧ SettledAt o o.start owner id t r'
          ∧ ∃ acc res, settled = (some (t.registered o.ctx.height acc), res)
            ∧ r'.getTranche owner id = some (t.registered o.ctx.height acc)) o.start := by
  simp only [settleTranche, Asks, wp_bind, asks_rows]
  cases found : o.start.getTranche owner id with
  | none => exact .inl (by simp)
  | some t =>
      simp only [wp_ite, wp_pure, wp_bind, asks_rows, asks_setRows]
      refine ⟨fun closed => .inl (by simpa using closed), fun going => ?_⟩
      refine (settle_asks o).mono fun _ r₁ h => ?_
      obtain ⟨accrued, strides⟩ := h
      have found₁ := (accrued.touches.getTranche owner id rfl).trans found
      have owned := getTranche_owner found
      have there : (settleRows r₁ o.ctx.height id t).getTranche owner id
          = some (t.registered o.ctx.height (syncPoolAccumulator r₁).2) := by
        rw [Rows.getTranche, settleRows_tranche, owned, Function.update_self]
        subst owned
        rfl
      have noted : (noteAccount (settleRows r₁ o.ctx.height id t) owner).getTranche owner id
          = some (t.registered o.ctx.height (syncPoolAccumulator r₁).2) :=
        (((Touches.refl _ : Touches [.roll] _ _).noteAccount owner (by rfl)).getTranche owner id
          (by rfl)).trans there
      have kept := (settleRows_touches r₁ o.ctx.height id t).sameSupply rfl rfl
      have plain (res : Result) (r' : Rows) (same : r' = settleRows r₁ o.ctx.height id t)
          : ∃ t', o.start.getTranche owner id = some t' ∧ t'.closed = false
            ∧ SettledAt o o.start owner id t' r'
            ∧ ∃ acc res', (some (t.registered o.ctx.height (syncPoolAccumulator r₁).2), res)
                = (some (t'.registered o.ctx.height acc), res')
              ∧ r'.getTranche owner id = some (t'.registered o.ctx.height acc) :=
        ⟨t, found, by simpa using going, ⟨r₁, accrued, strides, found₁, .inl same⟩, _, res, rfl,
          same ▸ there⟩
      have rolled (res : Result)
          : ∃ t', o.start.getTranche owner id = some t' ∧ t'.closed = false
            ∧ SettledAt o o.start owner id t'
              (noteAccount (settleRows r₁ o.ctx.height id t) owner)
            ∧ ∃ acc res', (some (t.registered o.ctx.height (syncPoolAccumulator r₁).2), res)
                = (some (t'.registered o.ctx.height acc), res')
              ∧ (noteAccount (settleRows r₁ o.ctx.height id t) owner).getTranche owner id
                = some (t'.registered o.ctx.height acc) :=
        ⟨t, found, by simpa using going, ⟨r₁, accrued, strides, found₁, .inr rfl⟩, _, res, rfl, noted⟩
      rw [found] at plain rolled
      generalize settled : settleRows r₁ o.ctx.height id t = r₂ at *
      have shape : r₂ = if owedTo r₁ t ≤ 0 then reweigh (syncPoolAccumulator r₁).1 id t
          (t.registered o.ctx.height (syncPoolAccumulator r₁).2)
        else takeReward (reweigh (syncPoolAccumulator r₁).1 id t
          (t.registered o.ctx.height (syncPoolAccumulator r₁).2)) (owedTo r₁ t) := by
        rw [← settled]
        rfl
      refine ⟨fun unpaid => ?_, fun paid => ?_⟩
      · rw [if_pos (show owedTo r₁ t ≤ 0 from unpaid)] at shape
        rw [← shape]
        exact ⟨kept, .inr (plain _ _ rfl)⟩
      · rw [if_neg (show ¬owedTo r₁ t ≤ 0 from paid)] at shape
        change SameSupply r₁ (takeReward _ (owedTo r₁ t)) ∧ Asks o (credit owner _) _
          (takeReward _ (owedTo r₁ t))
        rw [← shape]
        simp only [asks_credit]
        exact ⟨kept, fun _ => ⟨fun _ => .inr (plain _ _ rfl), fun _ => .inr (plain _ _ rfl)⟩,
          fun _ => .inr (rolled _), fun _ => .inr (rolled _)⟩

/-- A settlement of one's own or of a dormant tranche is a step. -/
theorem SettledAt.moves {owner : String} {id : Nat} {t : Tranche} {r' : Rows}
    (h : SettledAt o o.start owner id t r') (asked : o.action.settles o.ctx = some (owner, id))
    (going : t.closed = false)
    (own : owner = o.ctx.sender ∨ trancheIsDormant t.lastTouch o.ctx.height = true)
    : Moves o o.start r' := by
  obtain ⟨r₁, accrued, strides, found, settled⟩ := h
  have accrual : Moves o o.start r₁ := (Moves.refl _).step fun _ => .ledger <| .accrue accrued strides
  have moved := accrual.step fun _ => .liquidity <| .settle owner id t asked
    accrued found going own
  rcases settled with rfl | rfl
  · exact moved
  · exact moved.note owner

theorem claimPoolRewards_moves (id : Nat)
    (asked : o.action.settles o.ctx = some (o.ctx.sender, id))
    : Asks o (claimPoolRewards o.ctx id) (fun _ r' => Moves o o.start r') o.start := by
  simp only [claimPoolRewards, Asks, wp_bind]
  refine (settleTranche_asks o.ctx.sender id).mono fun settled r₁ h => ?_
  rcases h with ⟨rfl, rfl, _⟩ | ⟨t, found, going, at_, acc, res, rfl, there⟩
  · exact .refl _
  · have moved := at_.moves asked going (.inl rfl)
    simp only [wp_ite, wp_pure, wp_bind, asks_modify]
    exact ⟨fun _ => moved, fun _ => ⟨putTranche_supply _ _ _, moved.step fun _ =>
      .liquidity <| .touch id _ there going⟩⟩

-----------------------------------------------------------------------------------------
-- Deposits
-----------------------------------------------------------------------------------------

theorem depositRows_touches (r : Rows) (lcIn hbdIn shares : Int)
    : Touches [.reserves] r (depositRows r lcIn hbdIn shares) :=
  (((Touches.refl r).setAmount .poolLC _ (by rfl)).setAmount .poolHBD _ (by rfl)).setAmount .poolShares _ (by rfl)

theorem addLiquidity_moves (lcIn maxHbd : Int64) (asked : o.action = .addLiquidity lcIn maxHbd)
    : Asks o (addLiquidity o.ctx lcIn.toInt maxHbd.toInt)
      (fun res r' => Steps o (res.ok = true) o.start r') o.start := by
  simp only [addLiquidity, Asks, wp_bind, asks_rows, wp_ite, wp_pure, asks_balance]
  refine ⟨fun _ => .refl, fun _ => ⟨fun _ => .refl, fun positive _ => ⟨fun _ => .refl,
    fun _ => ?_⟩⟩⟩
  cases priced : hbdForDeposit o.start lcIn.toInt maxHbd.toInt with
  | error refusal => exact .refl
  | ok hbdIn =>
      have trades : o.action.trades = true := by rw [asked]; rfl
      simp only [wp_bind, asks_rows, wp_ite, wp_pure, asks_draw, asks_debit, trades, true_and,
        asks_modify, asks_setRows]
      refine ⟨fun _ => .refl, fun earned _ => ⟨fun _ => .refl, fun _ _ => ⟨fun _ => .refl,
        fun _ => ?_⟩⟩⟩
      refine ⟨⟨rfl, rfl, fun _ => id⟩, (settle_asks o).mono fun _ r₁ accrued => ⟨?_, ?_⟩⟩
      · exact ((syncPoolAccumulator_touches r₁).sameSupply rfl rfl).trans
          ((openTranche_touches _ o.ctx _ _).sameSupply (by rfl) (by rfl))
      · exact .single <| .liquidity <| .deposit rfl lcIn maxHbd hbdIn _ r₁ asked rfl (by omega)
          priced rfl (by omega) accrued.1 accrued.2

-----------------------------------------------------------------------------------------
-- Withdrawals
-----------------------------------------------------------------------------------------

theorem Action.trades_of_withdraws {action : Action} (h : action.withdraws = true)
    : action.trades = true := by
  cases action <;> first | rfl | cases h

theorem payHbd_asks (trades : o.action.trades = true) (owner : String) (hbdOut : Int)
    : Asks o (payHbd owner hbdOut)
      (fun paid r' => r' = r ∧ ∀ real, paid = some real → PaidHbd hbdOut real) r := by
  simp only [payHbd, Asks, wp_ite, wp_pure, wp_bind, asks_transferHbd, trades, true_and]
  refine ⟨fun _ => ?_, fun some_out => ⟨fun dust => ?_, fun _ b => ⟨fun _ => ?_, fun _ => by simp⟩⟩⟩
  · simp [PaidHbd]
  · simp only [Option.some.injEq]
    rintro real rfl
    exact .inr ⟨not_le.mp some_out, dust, rfl⟩
  · simp [PaidHbd]

/-- A withdrawal that is refused after the reserves are written strands its tranche. -/
theorem closeTranche_moves (owner : String) (id : Nat)
    (asked : o.action.settles o.ctx = some (owner, id)) (closes : o.action.withdraws = true)
    (own : ∀ t, o.start.getTranche owner id = some t
      → owner = o.ctx.sender ∨ trancheIsDormant t.lastTouch o.ctx.height = true)
    : Asks o (closeTranche o.ctx owner id)
      (fun res r' => Steps o (res.ok = true) o.start r') o.start := by
  simp only [closeTranche, Asks, wp_bind, asks_rows]
  cases found : o.start.getTranche owner id with
  | none => exact .refl
  | some t =>
      simp only [wp_bind, asks_rows, wp_ite, wp_pure]
      refine ⟨fun _ => .refl, fun going => ?_⟩
      refine (settleTranche_asks owner id).mono fun settled r₁ h => ?_
      rcases h with ⟨_, rfl, closed⟩ | ⟨t', found', going', at_, acc, res, rfl, there⟩
      · exact absurd (closed t found) (by simpa using going)
      obtain rfl : t' = t := Option.some.inj (found'.symm.trans found)
      have mine := own t' found
      have moved := at_.moves asked going' mine
      rw [there]
      dsimp only
      cases amounts : withdrawAmounts (t'.registered o.ctx.height acc).shares
          (r₁.getAmount .poolShares) (r₁.getAmount .poolLC) (r₁.getAmount .poolHBD) with
      | none => exact moved _
      | some out =>
          obtain ⟨lcOut, hbdOut⟩ := out
          simp only [wp_bind]
          refine (payHbd_asks (Action.trades_of_withdraws closes) owner hbdOut).mono fun paid r₂ h => ?_
          obtain ⟨rfl, dust⟩ := h
          cases paid with
          | none => exact moved _
          | some paid =>
              have dust := dust paid rfl
              have stranded (whole : Prop) (torn : ¬whole) := (moved whole).tail
                (.liquidity <| .strand torn closes owner id _ lcOut hbdOut paid there going' mine
                  amounts dust)
              have closed := moved.step fun _ => .liquidity <| .withdraw closes owner id
                _ lcOut hbdOut paid _ there going' mine amounts dust (.inl rfl)
              have noted := moved.step fun _ => .liquidity <| .withdraw closes owner id
                _ lcOut hbdOut paid _ there going' mine amounts dust (.inr rfl)
              have kept := (takeFromPool_touches r₂ (t'.registered o.ctx.height acc) lcOut
                paid).sameSupply rfl rfl
              simp only [wp_bind, asks_modify, asks_credit, wp_ite, wp_pure]
              refine ⟨kept, fun b => ⟨fun _ => stranded _ (by simp [fail]), fun _ =>
                ⟨putTranche_supply _ _ _, closed _⟩⟩, ?_, fun _ => ⟨putTranche_supply _ _ _, noted _⟩⟩
              simp

theorem removeLiquidity_moves (id : Nat)
    (asked : o.action.settles o.ctx = some (o.ctx.sender, id)) (closes : o.action.withdraws = true)
    : Asks o (removeLiquidity o.ctx id) (fun res r' => Steps o (res.ok = true) o.start r')
      o.start :=
  closeTranche_moves o.ctx.sender id asked closes fun _ _ => .inl rfl

theorem sweepTranche_moves (owner : String) (id : Nat)
    (asked : o.action.settles o.ctx = some (owner, id)) (closes : o.action.withdraws = true)
    : Asks o (sweepTranche o.ctx owner id) (fun res r' => Steps o (res.ok = true) o.start r')
      o.start := by
  simp only [sweepTranche, Asks, wp_bind, asks_rows]
  cases found : o.start.getTranche owner id with
  | none => exact .refl
  | some t =>
      simp only [wp_ite, wp_pure]
      refine ⟨fun _ => .refl, fun _ => ⟨fun _ => .refl, fun dormant => ?_⟩⟩
      refine closeTranche_moves owner id asked closes fun t' there => .inr ?_
      obtain rfl : t' = t := Option.some.inj (there.symm.trans found)
      simpa using dormant

-----------------------------------------------------------------------------------------
-- Swaps
-----------------------------------------------------------------------------------------

theorem swapLCForHBD_moves (lcIn minOut : Int64) (asked : o.action = .swapLCForHBD lcIn minOut)
    : Asks o (swapLCForHBD o.ctx lcIn.toInt minOut.toInt) (fun _ r' => Moves o r r') r := by
  simp only [swapLCForHBD, Asks, wp_bind, asks_rows, wp_ite, wp_pure, asks_balance]
  refine ⟨fun _ => .refl r, fun _ _ => ⟨fun _ => .refl r, fun _ => ?_⟩⟩
  cases swap : swapOut (r.getAmount .poolLC) (r.getAmount .poolHBD) lcIn.toInt with
  | none => exact .refl r
  | some out =>
      have sold := (Moves.refl r : Moves o r r).step fun _ => .liquidity <| .sellLC lcIn minOut
        out asked swap
      have trades : o.action.trades = true := by rw [asked]; rfl
      simp only [wp_ite, wp_bind, wp_pure, asks_debit, trades, true_and, asks_transferHbd,
        asks_credit, asks_modify]
      refine ⟨fun _ => .refl r, fun _ _ => ⟨fun _ => .refl r, fun _ _ => ⟨fun _ =>
        ⟨fun _ => .refl r, (Moves.refl r).note _⟩, fun _ => ⟨⟨rfl, rfl, fun _ => id⟩, sold⟩⟩⟩⟩

theorem swapHBDForLC_moves (hbdIn minOut : Int64) (asked : o.action = .swapHBDForLC hbdIn minOut)
    : Asks o (swapHBDForLC o.ctx hbdIn.toInt minOut.toInt) (fun _ r' => Moves o r r') r := by
  simp only [swapHBDForLC, Asks, wp_bind, asks_rows, wp_ite, wp_pure]
  refine ⟨fun _ => .refl r, fun _ => ?_⟩
  cases swap : swapOut (r.getAmount .poolHBD) (r.getAmount .poolLC) hbdIn.toInt with
  | none => exact .refl r
  | some out =>
      have bought := (Moves.refl r : Moves o r r).step fun _ => .liquidity <| .buyLC hbdIn minOut
        out asked swap
      have trades : o.action.trades = true := by rw [asked]; rfl
      simp only [wp_ite, wp_bind, wp_pure, asks_draw, trades, true_and, asks_setRows, asks_credit]
      refine ⟨fun _ => .refl r, fun _ _ => ⟨fun _ => .refl r, fun _ => ⟨⟨rfl, rfl, fun _ => id⟩, ?_⟩⟩⟩
      exact ⟨fun _ => ⟨fun _ => bought, fun _ => bought⟩, fun _ => bought.note _,
        fun _ => bought.note _⟩

end LasseCash.State
