import LasseCash.State.StepSides

/-! What the operations that sync the liquidity rewards leave when they succeed: a deposit opens
its tranche on what a sync left, and the others settle one open tranche and then write once more.
-/

namespace LasseCash.State

open Engine MachineInt Program

variable {o : Origin} {r r' : Rows}

/-- (Deposited o r') says that `r'` is what a deposit left, after the accrual of its operation. -/
def Deposited (o : Origin) (r' : Rows) : Prop :=
  ∃ lcIn hbdIn shares r₁, Accrues o.ctx.height (depositRows o.start lcIn hbdIn shares) r₁
    ∧ r' = openTranche (syncPoolAccumulator r₁).1 o.ctx shares (syncPoolAccumulator r₁).2

/-- (Settles o owner id r') says that `r'` is what a settlement of the open tranche left, but for
one more write: the proof of life or the withdrawal.
-/
def Settles (o : Origin) (owner : String) (id : Nat) (r' : Rows) : Prop :=
  ∃ t r₁, o.start.getTranche owner id = some t ∧ t.closed = false
    ∧ SettledAt o o.start owner id t r₁
    ∧ Touches [.reserves, .tranches, .roll] r₁ r' ∧ ∀ whole, LiquidityWrite o whole r₁ r'

theorem claimPoolRewards_settles (id : Nat)
    : Asks o (claimPoolRewards o.ctx id)
      (fun res r' => res.ok = true → Settles o o.ctx.sender id r') o.start := by
  simp only [claimPoolRewards, Asks, wp_bind]
  refine (settleTranche_asks o.ctx.sender id).mono fun settled r₁ h => ?_
  rcases h with ⟨rfl, rfl, _⟩ | ⟨t, found, going, at_, acc, res, rfl, there⟩
  · exact nofun
  · simp only [wp_ite, wp_pure, wp_bind, asks_modify]
    refine ⟨fun refused accepted => absurd accepted (by simpa using refused), fun _ =>
      ⟨putTranche_supply _ _ _, fun _ => ⟨t, r₁, found, going, at_, ?_, fun _ =>
        .touch id _ there going⟩⟩⟩
    exact (Touches.refl r₁).putTranche id _ (by rfl)

theorem closeTranche_settles (owner : String) (id : Nat) (closes : o.action.withdraws = true)
    (own : ∀ t, o.start.getTranche owner id = some t
      → owner = o.ctx.sender ∨ trancheIsDormant t.lastTouch o.ctx.height = true)
    : Asks o (closeTranche o.ctx owner id) (fun res r' => res.ok = true → Settles o owner id r')
      o.start := by
  simp only [closeTranche, Asks, wp_bind, asks_rows]
  cases found : o.start.getTranche owner id with
  | none => exact of_refused
  | some t =>
      simp only [wp_bind, asks_rows, wp_ite, wp_pure]
      refine ⟨fun _ => of_refused, fun going => ?_⟩
      refine (settleTranche_asks owner id).mono fun settled r₁ h => ?_
      rcases h with ⟨_, rfl, closed⟩ | ⟨t', found', going', at_, acc, res, rfl, there⟩
      · exact absurd (closed t found) (by simpa using going)
      obtain rfl : t' = t := Option.some.inj (found'.symm.trans found)
      rw [there]
      dsimp only
      cases amounts : withdrawAmounts (t'.registered o.ctx.height acc).shares
          (r₁.getAmount .poolShares) (r₁.getAmount .poolLC) (r₁.getAmount .poolHBD) with
      | none => exact of_refused
      | some out =>
          obtain ⟨lcOut, hbdOut⟩ := out
          simp only [wp_bind]
          refine (payHbd_asks (Action.trades_of_withdraws closes) owner hbdOut).mono fun paid r₂ h => ?_
          obtain ⟨rfl, dust⟩ := h
          cases paid with
          | none => exact of_refused
          | some paid =>
              have taken := takeFromPool_touches r₂ (t'.registered o.ctx.height acc) lcOut paid
              have left (r₃ : Rows) (noted : r₃ = takeFromPool r₂ (t'.registered o.ctx.height acc)
                  lcOut paid ∨ r₃ = noteAccount (takeFromPool r₂
                    (t'.registered o.ctx.height acc) lcOut paid) owner)
                  : Settles o owner id (r₃.putTranche id
                    { t'.registered o.ctx.height acc with closed := true, weight := 0 }) := by
                refine ⟨t', r₂, found', going', at_, ?_, fun _ => .withdraw closes owner id _ lcOut
                  hbdOut paid r₃ there going' (own t' found') amounts (dust paid rfl) noted⟩
                exact (takenFromPool_touches noted).putTranche id _ (by rfl)
              simp only [wp_bind, asks_modify, asks_credit, wp_ite, wp_pure]
              exact ⟨(taken.sameSupply rfl rfl), fun b => ⟨fun _ => of_refused, fun _ =>
                ⟨putTranche_supply _ _ _, fun _ => left _ (.inl rfl)⟩⟩, fun _ => of_refused,
                fun _ => ⟨putTranche_supply _ _ _, fun _ => left _ (.inr rfl)⟩⟩

theorem sweepTranche_settles (owner : String) (id : Nat) (closes : o.action.withdraws = true)
    : Asks o (sweepTranche o.ctx owner id) (fun res r' => res.ok = true → Settles o owner id r')
      o.start := by
  simp only [sweepTranche, Asks, wp_bind, asks_rows]
  cases found : o.start.getTranche owner id with
  | none => exact of_refused
  | some t =>
      simp only [wp_ite, wp_pure]
      refine ⟨fun _ => of_refused, fun _ => ⟨fun _ => of_refused, fun dormant => ?_⟩⟩
      refine closeTranche_settles owner id closes fun t' there => .inr ?_
      obtain rfl : t' = t := Option.some.inj (there.symm.trans found)
      simpa using dormant

/-- (Opened o lcIn maxHbd hbdIn shares r') says that `r'` is what a deposit of `lcIn` and `hbdIn` left,
which has earned these shares.
-/
structure Opened (o : Origin) (lcIn maxHbd hbdIn shares : Int) (r' : Rows) : Prop where
  positive : 0 < lcIn
  priced : hbdForDeposit o.start lcIn maxHbd = .ok hbdIn
  earned : shares
    = (lpSharesFor lcIn (o.start.getAmount .poolLC) (o.start.getAmount .poolShares)).getD 0
  some_earned : 0 < shares
  opens : ∃ r₁, Accrues o.ctx.height (depositRows o.start lcIn hbdIn shares) r₁
    ∧ r' = openTranche (syncPoolAccumulator r₁).1 o.ctx shares (syncPoolAccumulator r₁).2

theorem Opened.deposited {lcIn maxHbd hbdIn shares : Int}
    (opened : Opened o lcIn maxHbd hbdIn shares r')
    : Deposited o r' :=
  let ⟨r₁, accrues, opens⟩ := opened.opens
  ⟨lcIn, hbdIn, shares, r₁, accrues, opens⟩

theorem hbdForDeposit_refuses {lcIn maxHbd : Int} {refusal : Result}
    (refused : hbdForDeposit r lcIn maxHbd = .error refusal)
    : refusal.ok = false := by
  revert refused
  unfold hbdForDeposit
  dsimp only
  split
  · split
    · rintro ⟨⟩
      rfl
    · exact nofun
  · split
    · rintro ⟨⟩
      rfl
    · split
      · rintro ⟨⟩
        rfl
      · exact nofun

/-- A deposit that succeeds opens its tranche, and names what it has brought. -/
theorem addLiquidity_opens (lcIn maxHbd : Int) (trades : o.action.trades = true)
    : Asks o (addLiquidity o.ctx lcIn maxHbd)
      (fun res r' => res.ok = true → ∃ hbdIn shares, Opened o lcIn maxHbd hbdIn shares r'
        ∧ res.msg = "added " ++ encI64 lcIn ++ " LASSECASH and " ++ encI64 hbdIn ++ " HBD")
      o.start := by
  simp only [addLiquidity, Asks, wp_bind, asks_rows, wp_ite, wp_pure, asks_balance]
  refine ⟨fun _ => of_refused, fun _ => ⟨fun _ => of_refused, fun positive _ => ⟨fun _ => of_refused,
    fun _ => ?_⟩⟩⟩
  cases priced : hbdForDeposit o.start lcIn maxHbd with
  | error refusal =>
      intro accepted
      rw [hbdForDeposit_refuses priced] at accepted
      cases accepted
  | ok hbdIn =>
      simp only [wp_bind, asks_rows, wp_ite, wp_pure, asks_draw, asks_debit, trades, true_and,
        asks_modify, asks_setRows]
      refine ⟨fun _ => of_refused, fun earned _ => ⟨fun _ => of_refused, fun _ _ => ⟨fun _ => of_refused,
        fun _ => ?_⟩⟩⟩
      refine ⟨⟨rfl, rfl, fun _ => id⟩, (settle_asks o).mono fun _ r₁ accrued => ⟨?_, fun _ => ?_⟩⟩
      · exact ((syncPoolAccumulator_touches r₁).sameSupply rfl rfl).trans
          ((openTranche_touches _ o.ctx _ _).sameSupply (by rfl) (by rfl))
      · exact ⟨hbdIn, _, ⟨not_le.mp positive, priced, rfl, not_le.mp earned, r₁, accrued.1, rfl⟩,
          rfl⟩

section Requests

variable {A : Type} [Assets A]

/-- What a successful request of a program leaves, from what the program asks for. -/
theorem Request.exec_of_asks {q : Request} (w : World A) {p : Op Result} {Q : Result → Rows → Prop}
    (program : q.action.program q.ctx = some p)
    (h : Asks (q.origin w) p (fun res r' => res.ok = true → Q res r') w.rows)
    (success : (q.exec w).2.ok = true)
    : Q (q.exec w).2 (q.exec w).1.rows := by
  have served : (q.action.exec q.ctx w).2.ok = true
      → Q (q.action.exec q.ctx w).2 (q.action.exec q.ctx w).1.rows := by
    rw [Action.exec_of_program program]
    exact asks_serve id h
  unfold Request.exec at success ⊢
  dsimp only at success ⊢
  rw [if_neg (by simp [success])]
  exact served success

theorem Request.exec_opens {q : Request} (w : World A) {lcIn maxHbd : Int64}
    (asked : q.action = .addLiquidity lcIn maxHbd) (success : (q.exec w).2.ok = true)
    : ∃ hbdIn shares, Opened (q.origin w) lcIn.toInt maxHbd.toInt hbdIn shares (q.exec w).1.rows
      ∧ (q.exec w).2.msg
        = "added " ++ encI64 lcIn.toInt ++ " LASSECASH and " ++ encI64 hbdIn ++ " HBD" := by
  have trades : (q.origin w).action.trades = true := by
    rw [Request.origin, asked]
    rfl
  exact q.exec_of_asks w (by rw [asked]; rfl)
    (addLiquidity_opens (o := q.origin w) lcIn.toInt maxHbd.toInt trades) success

/-- A deposit that succeeds has deposited. -/
theorem Request.exec_deposits {q : Request} (w : World A) {lcIn maxHbd : Int64}
    (asked : q.action = .addLiquidity lcIn maxHbd) (success : (q.exec w).2.ok = true)
    : Deposited (q.origin w) (q.exec w).1.rows :=
  let ⟨_, _, opened, _⟩ := q.exec_opens w asked success
  opened.deposited

/-- A request that succeeds has settled the tranche that its action settles. -/
theorem Request.exec_settles {q : Request} (w : World A) {owner : String} {id : Nat}
    (settles : q.action.settles q.ctx = some (owner, id)) (success : (q.exec w).2.ok = true)
    : Settles (q.origin w) owner id (q.exec w).1.rows := by
  cases asked : q.action <;> rw [asked] at settles <;> cases settles
  case claimPoolRewards id =>
    exact q.exec_of_asks w (by rw [asked]; rfl) (claimPoolRewards_settles (o := q.origin w) _)
      success
  case removeLiquidity id =>
    exact q.exec_of_asks w (by rw [asked]; rfl)
      (closeTranche_settles (o := q.origin w) _ _ (by rw [Request.origin, asked]; rfl)
        fun _ _ => .inl rfl) success
  case sweepTranche owner id =>
    exact q.exec_of_asks w (by rw [asked]; rfl) (sweepTranche_settles (o := q.origin w) _ _
      (by rw [Request.origin, asked]; rfl)) success

end Requests

end LasseCash.State
