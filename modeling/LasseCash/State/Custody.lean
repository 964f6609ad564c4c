import LasseCash.State.StepSides

/-! The HBD that the deployed contract has in custody covers the reserve that it books: draws are
rounded up to a thousandth and payouts down, and dust that is not paid stays booked.
-/

namespace LasseCash.State

open Engine MachineInt Program

-----------------------------------------------------------------------------------------
-- The production adapter
-----------------------------------------------------------------------------------------

/-- The HBD ledger behind the SDK, in thousandths: it moves exactly what it is asked to, or the
transaction aborts and there is no state to go on from.
-/
class Sdk (S : Type) where
  custody : S → Nat
  hiveDraw : S → Nat → Option S
  hiveTransfer : S → String → Nat → Option S
  drawn : ∀ s milli s', hiveDraw s milli = some s' → custody s' = custody s + milli
  transferred : ∀ s recipient milli s', hiveTransfer s recipient milli = some s'
    → custody s' + milli = custody s

/-- What moves HBD in production. -/
structure SdkAssets (S : Type) where
  sdk : S

/-- Both refuse an amount of no whole thousandth. An abort refuses as well: the operation then
fails, and the chain unwinds it.
-/
instance {S : Type} [Sdk S] : Assets (SdkAssets S) where
  draw a amount :=
    let milli := hbdDrawMilli amount
    if milli ≤ 0 then (a, false)
    else
      match Sdk.hiveDraw a.sdk milli.toNat with
      | none => (a, false)
      | some sdk => (⟨sdk⟩, true)
  transfer a recipient amount :=
    let milli := hbdPayMilli amount
    if milli ≤ 0 ∨ recipient = "" then (a, false)
    else
      match Sdk.hiveTransfer a.sdk recipient milli.toNat with
      | none => (a, false)
      | some sdk => (⟨sdk⟩, true)

/-- The thousandths of HBD that the contract has in custody. -/
def World.custody {S : Type} [Sdk S] (w : World (SdkAssets S)) : Nat := Sdk.custody w.assets.sdk

-----------------------------------------------------------------------------------------
-- Custody under a call
-----------------------------------------------------------------------------------------

/-- The rows, and the thousandths in custody. -/
structure Vault where
  rows : Rows
  custody : Nat

def World.vault {S : Type} [Sdk S] (w : World (SdkAssets S)) : Vault := ⟨w.rows, w.custody⟩

/-- What a call can do to the custody. -/
def custodyMay : (c : Call) → Nat → Reply c → Nat → Prop
  | .draw amount, k, drawn, k' =>
      drawn = false ∧ k' = k
        ∨ drawn = true ∧ 0 < hbdDrawMilli amount ∧ (k' : Int) = k + hbdDrawMilli amount
  | .transferHbd _ amount, k, sent, k' =>
      sent = false ∧ k' = k ∨ sent = true ∧ (k' : Int) = k - hbdPayMilli amount
  | _, k, _, k' => k' = k

/-- What a call can do to the rows and to the custody. -/
def vaultMay : May Call Reply Vault :=
  fun c v reply v' => rowsMay c v.rows reply v'.rows ∧ custodyMay c v.custody reply v'.custody

/-- The custody holds what a transfer sends. -/
def vaultNeeds : Call → Vault → Prop
  | .transferHbd _ amount, v => hbdPayMilli amount ≤ v.custody
  | _, _ => True

/-- Whatever the ledger and the SDK answer, every transfer of the operation is covered, and it ends
in `Q`.
-/
abbrev Vaults {α : Type} (p : Op α) (Q : α → Vault → Prop) (v : Vault) : Prop :=
  p.wp vaultNeeds vaultMay Q v

/-- Every call keeps to these bounds, by cases on the two that move HBD. -/
theorem serve_vaultMay {S : Type} [Sdk S] (c : Call) (w : World (SdkAssets S))
    : vaultMay c w.vault (serve c w).2 (serve c w).1.vault := by
  refine ⟨serve_rowsMay c w, ?_⟩
  cases c with
  | draw amount =>
      by_cases none_drawn : hbdDrawMilli amount ≤ 0
      · exact .inl (by simp [serve, Assets.draw, none_drawn, World.vault, World.custody])
      · cases moved : Sdk.hiveDraw w.assets.sdk (hbdDrawMilli amount).toNat with
        | none =>
            exact .inl (by simp [serve, Assets.draw, none_drawn, moved, World.vault, World.custody])
        | some sdk =>
            have after := Sdk.drawn _ _ _ moved
            refine .inr ?_
            simp only [serve, Assets.draw, none_drawn, moved, World.vault, World.custody, if_false,
              true_and]
            omega
  | transferHbd recipient amount =>
      by_cases refused : hbdPayMilli amount ≤ 0 ∨ recipient = ""
      · exact .inl (by simp [serve, Assets.transfer, refused, World.vault, World.custody])
      · cases moved : Sdk.hiveTransfer w.assets.sdk recipient (hbdPayMilli amount).toNat with
        | none =>
            exact .inl (by simp [serve, Assets.transfer, refused, moved, World.vault, World.custody])
        | some sdk =>
            have after := Sdk.transferred _ _ _ _ moved
            refine .inr ?_
            simp only [serve, Assets.transfer, refused, moved, World.vault, World.custody, if_false,
              true_and]
            omega
  | _ => rfl

section Rules

variable {r : Rows} {k : Nat}

@[simp]
theorem vaults_rows {Q : Rows → Vault → Prop} : Vaults rows Q ⟨r, k⟩ ↔ Q r ⟨r, k⟩ := by
  refine wp_issue.trans ⟨fun h => h.2 r ⟨r, k⟩ ⟨⟨rfl, rfl⟩, rfl⟩, fun h => ⟨trivial, ?_⟩⟩
  rintro reply ⟨r', k'⟩ ⟨⟨rfl, rfl⟩, rfl⟩
  exact h

@[simp]
theorem vaults_setRows {x : Rows} {Q : Unit → Vault → Prop}
    : Vaults (setRows x) Q ⟨r, k⟩ ↔ Q () ⟨x, k⟩ := by
  refine wp_issue.trans ⟨fun h => h.2 () ⟨x, k⟩ ⟨rfl, rfl⟩, fun h => ⟨trivial, ?_⟩⟩
  rintro ⟨⟩ ⟨r', k'⟩ ⟨rfl, rfl⟩
  exact h

@[simp]
theorem vaults_modify {f : Rows → Rows} {Q : Unit → Vault → Prop}
    : Vaults (modify f) Q ⟨r, k⟩ ↔ Q () ⟨f r, k⟩ := by
  rw [modify, Vaults, wp_bind]
  exact vaults_rows.trans vaults_setRows

@[simp]
theorem vaults_balance {account : String} {Q : Int → Vault → Prop}
    : Vaults (balance account) Q ⟨r, k⟩ ↔ ∀ n, Q n ⟨r, k⟩ := by
  refine wp_issue.trans ⟨fun h n => h.2 n ⟨r, k⟩ ⟨rfl, rfl⟩, fun h => ⟨trivial, ?_⟩⟩
  rintro n ⟨r', k'⟩ ⟨rfl, rfl⟩
  exact h n

@[simp]
theorem vaults_debit {account : String} {amt : Int} {Q : Bool → Vault → Prop}
    : Vaults (debit account amt) Q ⟨r, k⟩ ↔ ∀ b, Q b ⟨r, k⟩ := by
  refine wp_issue.trans ⟨fun h b => h.2 b ⟨r, k⟩ ⟨rfl, rfl⟩, fun h => ⟨trivial, ?_⟩⟩
  rintro b ⟨r', k'⟩ ⟨rfl, rfl⟩
  exact h b

@[simp]
theorem vaults_credit {account : String} {amt : Int} {Q : Bool → Vault → Prop}
    : Vaults (credit account amt) Q ⟨r, k⟩
      ↔ (∀ b, Q b ⟨r, k⟩) ∧ Q true ⟨noteAccount r account, k⟩ := by
  refine wp_issue.trans ⟨fun h => ⟨fun b => h.2 b ⟨r, k⟩ ⟨.inl rfl, rfl⟩,
    h.2 true ⟨_, k⟩ ⟨.inr ⟨rfl, rfl⟩, rfl⟩⟩, fun h => ⟨trivial, ?_⟩⟩
  obtain ⟨same, noted⟩ := h
  rintro b ⟨r', k'⟩ ⟨same_rows | ⟨paid, noted_rows⟩, same_custody⟩
  · obtain rfl : r' = r := same_rows
    obtain rfl : k' = k := same_custody
    exact same b
  · obtain rfl : r' = noteAccount r account := noted_rows
    obtain rfl : k' = k := same_custody
    exact paid ▸ noted

@[simp]
theorem vaults_draw {amount : Int} {Q : Bool → Vault → Prop}
    : Vaults (draw amount) Q ⟨r, k⟩
      ↔ Q false ⟨r, k⟩ ∧ (0 < hbdDrawMilli amount → ∀ k' : Nat,
        (k' : Int) = k + hbdDrawMilli amount → Q true ⟨r, k'⟩) := by
  refine wp_issue.trans ⟨fun h => ⟨h.2 false ⟨r, k⟩ ⟨rfl, .inl ⟨rfl, rfl⟩⟩, fun some_drawn k' sum =>
    h.2 true ⟨r, k'⟩ ⟨rfl, .inr ⟨rfl, some_drawn, sum⟩⟩⟩, fun h => ⟨trivial, ?_⟩⟩
  obtain ⟨refused, drawn⟩ := h
  rintro b ⟨r', k'⟩ ⟨rfl, ⟨rfl, rfl⟩ | ⟨rfl, some_drawn, sum⟩⟩
  · exact refused
  · exact drawn some_drawn k' sum

@[simp]
theorem vaults_transferHbd {recipient : String} {amount : Int} {Q : Bool → Vault → Prop}
    : Vaults (transferHbd recipient amount) Q ⟨r, k⟩
      ↔ hbdPayMilli amount ≤ k ∧ Q false ⟨r, k⟩ ∧ ∀ k' : Nat,
        (k' : Int) = k - hbdPayMilli amount → Q true ⟨r, k'⟩ := by
  refine wp_issue.trans ⟨fun h => ⟨h.1, h.2 false ⟨r, k⟩ ⟨rfl, .inl ⟨rfl, rfl⟩⟩, fun k' left =>
    h.2 true ⟨r, k'⟩ ⟨rfl, .inr ⟨rfl, left⟩⟩⟩, fun h => ⟨h.1, ?_⟩⟩
  obtain ⟨-, refused, sent⟩ := h
  rintro b ⟨r', k'⟩ ⟨rfl, ⟨rfl, rfl⟩ | ⟨rfl, left⟩⟩
  · exact refused
  · exact sent k' left

/-- What holds of an operation whatever it is answered holds of it here. -/
theorem Vaults.mono {α : Type} {p : Op α} {Q Q' : α → Vault → Prop} {v : Vault}
    (holds : Vaults p Q v) (weaker : ∀ value v, Q value v → Q' value v)
    : Vaults p Q' v :=
  wp_mono weaker holds

/-- An operation that trades nothing leaves the custody, by induction on it. -/
theorem Asks.vaults {α : Type} {o : Origin} (still : o.action.trades = false) (unsure : ¬o.sure)
    {p : Op α} {Q : α → Rows → Prop} (asks : Asks o p Q r)
    : Vaults p (fun value v => Q value v.rows ∧ v.custody = k) ⟨r, k⟩ := by
  induction p generalizing r with
  | done value => exact ⟨asks, rfl⟩
  | call c next ih =>
      obtain ⟨met, rest⟩ := asks
      have none_moved : (∀ amount, c ≠ .draw amount) ∧ ∀ to_ amount, c ≠ .transferHbd to_ amount := by
        constructor
        · rintro amount rfl
          exact Bool.false_ne_true (still.symm.trans met)
        · rintro to_ amount rfl
          exact Bool.false_ne_true (still.symm.trans met)
      refine ⟨?_, ?_⟩
      · cases c with
        | transferHbd recipient amount => exact absurd rfl (none_moved.2 _ _)
        | _ => trivial
      · rintro reply ⟨r', k'⟩ ⟨may, custody⟩
        have same : k' = k := by
          cases c with
          | draw amount => exact absurd rfl (none_moved.1 _)
          | transferHbd recipient amount => exact absurd rfl (none_moved.2 _ _)
          | _ => exact custody
        subst same
        exact ih reply (rest reply r' ⟨may, fun sure => absurd sure unsure⟩)

end Rules

-----------------------------------------------------------------------------------------
-- The reserve and its cover
-----------------------------------------------------------------------------------------

/-- (Covers hbd k) says that `k` thousandths cover the booked reserve `hbd`, and even the one that
a sum has wrapped below zero.
-/
structure Covers (hbd : Int) (k : Nat) : Prop where
  reserve : hbd ≤ k * hbdUnitsPerMilli
  wrapped : hbd < 0 → 2 ^ 63 ≤ k * hbdUnitsPerMilli

/-- The vault's custody covers the reserve that its rows book. -/
def Vault.Covered (v : Vault) : Prop := Covers (v.rows.getAmount .poolHBD) v.custody

namespace Covers

variable {hbd amount : Int} {k k' : Nat}

/-- What is covered as a sum is covered as a word. -/
theorem word {x : Int} (nonneg : 0 ≤ x) (le : x ≤ k * hbdUnitsPerMilli) : Covers (i64 x) k := by
  unfold i64
  exact ⟨by omega, by omega⟩

/-- What is past every word covers every word. -/
theorem past (x : Int) (much : 2 ^ 63 ≤ k * hbdUnitsPerMilli) : Covers (i64 x) k := by
  have := (i64_mem x).upper
  exact ⟨by omega, fun _ => much⟩

/-- More thousandths cover what fewer do. -/
theorem more (h : Covers hbd k) (le : k ≤ k') : Covers hbd k' := by
  have larger : (k : Int) * hbdUnitsPerMilli ≤ k' * hbdUnitsPerMilli :=
    mul_le_mul_of_nonneg_right (by omega) (by decide)
  exact ⟨h.reserve.trans larger, fun short => (h.wrapped short).trans larger⟩

/-- A draw covers what is booked for it. -/
theorem draw (h : Covers hbd k) (word : amount < 2 ^ 63) (some_drawn : 0 < hbdDrawMilli amount)
    (sum : (k' : Int) = k + hbdDrawMilli amount)
    : Covers (i64 (hbd + amount)) k' := by
  obtain ⟨positive, enough⟩ := hbdDrawMilli_covers word some_drawn
  have brought : (k' : Int) * hbdUnitsPerMilli
      = k * hbdUnitsPerMilli + hbdDrawMilli amount * hbdUnitsPerMilli := by
    rw [sum, add_mul]
  rcases le_or_gt 0 hbd with stocked | short
  · exact .word (by omega) (by have := h.reserve; omega)
  · exact .past _ (by have := h.wrapped short; omega)

/-- What is paid of the reserve is in custody, and the rest stays covered. -/
theorem pay (h : Covers hbd k) (nonneg : 0 ≤ amount) (part : amount ≤ hbd)
    : hbdPayMilli amount ≤ k
      ∧ ∀ k' : Nat, (k' : Int) = k - hbdPayMilli amount → Covers (i64 (hbd - amount)) k' := by
  obtain ⟨milli_nonneg, le⟩ := hbdPayMilli_le nonneg
  have covered := h.reserve
  unfold hbdUnitsPerMilli at le covered
  refine ⟨by omega, fun k' left => .word (by omega) ?_⟩
  unfold hbdUnitsPerMilli
  omega

/-- What is released without a payment stays in custody. -/
theorem release (h : Covers hbd k)
    (part : 0 ≤ hbd ∧ 0 ≤ amount ∧ amount ≤ hbd ∨ hbd < 0 ∧ amount ≤ 0)
    : Covers (i64 (hbd - amount)) k := by
  have covered := h.reserve
  rcases part with ⟨_, _, _⟩ | ⟨short, _⟩
  · exact .word (by omega) (by omega)
  · exact .past _ (h.wrapped short)

end Covers

section Operations

variable {o : Origin} {whole : Prop} {r r' : Rows} {k : Nat}

/-- Only what trades writes the reserve, by cases on the step. -/
theorem Step.reserve (h : Step o whole r r') (still : o.action.trades = false)
    : r'.getAmount .poolHBD = r.getAmount .poolHBD := by
  cases h with
  | ledger step => exact step.touches.amount .poolHBD rfl
  | mint step => exact step.touches.amount .poolHBD rfl
  | content step => exact step.touches.amount .poolHBD rfl
  | migration step => exact step.touches.amount .poolHBD rfl
  | liquidity step =>
      cases step with
      | settle owner id t asked accrued found going own =>
          exact (settleRows_touches r _ id t).amount .poolHBD (by rfl)
      | touch id t found going => rfl
      | deposit done lcIn maxHbd hbdIn shares r' asked =>
          rw [asked] at still
          cases still
      | withdraw closes =>
          rw [Action.trades_of_withdraws closes] at still
          cases still
      | strand torn closes =>
          rw [Action.trades_of_withdraws closes] at still
          cases still
      | sellLC lcIn minOut out asked swap =>
          rw [asked] at still
          cases still
      | buyLC hbdIn minOut out asked swap =>
          rw [asked] at still
          cases still

/-- An operation that trades nothing keeps the reserve and the custody. -/
theorem Action.still_vaults {ctx : Ctx} {action : Action} (still : action.trades = false)
    {p : Op Result} (program : action.program ctx = some p) (covered : Covers (r.getAmount .poolHBD) k)
    : Vaults p (fun _ v => v.Covered) ⟨r, k⟩ := by
  have asks := Action.program_moves ⟨ctx, action, r, False⟩ program
  refine (asks.vaults still not_false).mono fun res v h => ?_
  obtain ⟨chain, custody⟩ := h
  have kept : v.rows.getAmount .poolHBD = r.getAmount .poolHBD :=
    chain.keep (I := fun x => x.getAmount .poolHBD = r.getAmount .poolHBD)
      (fun _ _ same step => (step.reserve still).trans same) rfl
  rw [Vault.Covered, kept, custody]
  exact covered

/-- Booking the emission keeps the reserve and the custody. -/
theorem settle_vaults (ctx : Ctx)
    : Vaults (settle ctx) (fun _ v => v.rows.getAmount .poolHBD = r.getAmount .poolHBD
        ∧ v.custody = k) ⟨r, k⟩ :=
  (Asks.vaults (o := ⟨ctx, .settle, r, False⟩) rfl not_false (settle_asks _)).mono
    fun _ _ h => ⟨h.1.1.touches.amount .poolHBD rfl, h.2⟩

/-- Noting an account keeps the reserve. -/
theorem noteAccount_reserve (r : Rows) (account : String)
    : (noteAccount r account).getAmount .poolHBD = r.getAmount .poolHBD :=
  ((Touches.refl r).noteAccount account (by rfl) : Touches [.roll] _ _).amount .poolHBD (by rfl)

/-- Settling a tranche keeps the reserve and the custody. -/
theorem settleTranche_vaults (ctx : Ctx) (owner : String) (id : Nat)
    : Vaults (settleTranche ctx owner id)
      (fun _ v => v.rows.getAmount .poolHBD = r.getAmount .poolHBD ∧ v.custody = k) ⟨r, k⟩ := by
  have asks := settleTranche_asks (o := ⟨ctx, .settle, r, False⟩) owner id
  refine (asks.vaults rfl not_false).mono fun _ v h => ⟨?_, h.2⟩
  rcases h.1 with ⟨_, same, _⟩ | ⟨t, _, _, ⟨r₁, accrued, _, _, settled⟩, _⟩
  · rw [same]
  · have kept : (settleRows r₁ ctx.height id t).getAmount .poolHBD = r.getAmount .poolHBD :=
      ((settleRows_touches r₁ _ id t).amount .poolHBD (by rfl)).trans
        (accrued.touches.amount .poolHBD rfl)
    rcases settled with same | noted
    · rw [same]
      exact kept
    · rw [noted]
      exact (noteAccount_reserve _ owner).trans kept

/-- The HBD that a deposit supplies is within the caller's limit. -/
theorem hbdForDeposit_le {lcIn maxHbd hbdIn : Int} (h : hbdForDeposit r lcIn maxHbd = .ok hbdIn)
    : hbdIn ≤ maxHbd := by
  unfold hbdForDeposit at h
  dsimp only at h
  repeat' split at h
  all_goals cases h
  · exact le_rfl
  · omega

theorem addLiquidity_vaults (ctx : Ctx) {lcIn maxHbd : Int} (word : maxHbd < 2 ^ 63)
    (covered : Covers (r.getAmount .poolHBD) k)
    : Vaults (addLiquidity ctx lcIn maxHbd) (fun _ v => v.Covered) ⟨r, k⟩ := by
  simp only [addLiquidity, Vaults, wp_bind, vaults_rows, wp_ite, wp_pure, vaults_balance]
  refine ⟨fun _ => covered, fun _ => ⟨fun _ => covered, fun _ _ => ⟨fun _ => covered, fun _ => ?_⟩⟩⟩
  cases priced : hbdForDeposit r lcIn maxHbd with
  | error refusal => exact covered
  | ok hbdIn =>
      simp only [wp_bind, wp_ite, wp_pure, vaults_draw, vaults_debit, vaults_modify]
      refine ⟨fun _ => covered, fun _ => ⟨⟨fun _ => covered, by simp⟩, fun some_drawn k' sum => ?_⟩⟩
      have drawn := covered.draw (lt_of_le_of_lt (hbdForDeposit_le priced) word) some_drawn sum
      have kept : Covers _ k' := covered.more (by omega)
      refine ⟨of_refused, fun _ b => ⟨fun _ => kept, fun _ => ?_⟩⟩
      refine (settle_vaults ctx).mono fun _ v h => ?_
      obtain ⟨r₁, k₁⟩ := v
      obtain ⟨reserve, rfl⟩ := h
      simp only [vaults_rows, vaults_setRows, Vault.Covered]
      have opened := openTranche_touches (syncPoolAccumulator r₁).1 ctx
        ((lpSharesFor lcIn (r.getAmount .poolLC) (r.getAmount .poolShares)).getD 0)
        (syncPoolAccumulator r₁).2
      rw [opened.amount .poolHBD rfl, (syncPoolAccumulator_touches r₁).amount .poolHBD rfl, reserve]
      simpa using drawn

/-- A withdrawal's HBD is in custody, and what is left of the reserve stays covered. -/
theorem payHbd_vaults (owner : String) {hbdOut : Int} (covered : Covers (r.getAmount .poolHBD) k)
    (part : 0 ≤ r.getAmount .poolHBD ∧ 0 ≤ hbdOut ∧ hbdOut ≤ r.getAmount .poolHBD
      ∨ r.getAmount .poolHBD < 0 ∧ hbdOut ≤ 0)
    : Vaults (payHbd owner hbdOut)
      (fun paid v => v.rows = r ∧ (paid = none → v.Covered)
        ∧ ∀ real, paid = some real → Covers (i64 (r.getAmount .poolHBD - real)) v.custody)
      ⟨r, k⟩ := by
  simp only [payHbd, Vaults, wp_ite, wp_pure, wp_bind, vaults_transferHbd, true_and]
  refine ⟨fun _ => ⟨by rintro ⟨⟩, ?_⟩,
    fun some_out => ⟨fun dust => ⟨by rintro ⟨⟩, ?_⟩, fun _ => ?_⟩⟩
  · rintro _ ⟨⟩
    exact covered.release part
  · rintro _ ⟨⟩
    exact covered.release (by omega)
  · obtain ⟨held, paid⟩ := covered.pay (show 0 ≤ hbdOut by omega) (by omega)
    refine ⟨held, ⟨of_refused, fun _ => ⟨fun _ => covered, by rintro _ ⟨⟩⟩⟩,
      fun k' left => ⟨fun _ => ⟨by rintro ⟨⟩, ?_⟩, by simp⟩⟩
    rintro _ ⟨⟩
    exact paid k' left

theorem closeTranche_vaults (ctx : Ctx) (owner : String) (id : Nat)
    (covered : Covers (r.getAmount .poolHBD) k)
    : Vaults (closeTranche ctx owner id) (fun _ v => v.Covered) ⟨r, k⟩ := by
  simp only [closeTranche, Vaults, wp_bind, vaults_rows]
  cases r.getTranche owner id with
  | none => exact covered
  | some t =>
      simp only [wp_bind, wp_ite, wp_pure]
      refine ⟨fun _ => covered, fun _ => ?_⟩
      refine (settleTranche_vaults ctx owner id).mono fun _ v h => ?_
      obtain ⟨r₁, k₁⟩ := v
      obtain ⟨reserve, rfl⟩ := h
      have covered₁ : Covers (r₁.getAmount .poolHBD) k₁ := reserve ▸ covered
      simp only [vaults_rows]
      cases r₁.getTranche owner id with
      | none => exact covered₁
      | some t =>
          dsimp only
          cases amounts : withdrawAmounts t.shares (r₁.getAmount .poolShares)
              (r₁.getAmount .poolLC) (r₁.getAmount .poolHBD) with
          | none => exact covered₁
          | some out =>
              obtain ⟨lcOut, hbdOut⟩ := out
              simp only [wp_bind]
              refine (payHbd_vaults owner covered₁ (withdrawAmounts_part amounts)).mono
                fun paid v h => ?_
              obtain ⟨r₂, k₂⟩ := v
              obtain ⟨rfl, refused, sent⟩ := h
              cases paid with
              | none => exact refused rfl
              | some real =>
                  have left := sent real rfl
                  have taken : (takeFromPool r₂ t lcOut real).getAmount .poolHBD
                      = i64 (r₂.getAmount .poolHBD - real) := by simp [takeFromPool]
                  have kept : Vault.Covered ⟨takeFromPool r₂ t lcOut real, k₂⟩ := by
                    rw [Vault.Covered, taken]
                    exact left
                  have noted : Vault.Covered ⟨noteAccount (takeFromPool r₂ t lcOut real) owner, k₂⟩ := by
                    rw [Vault.Covered, noteAccount_reserve]
                    exact kept
                  simp only [wp_bind, vaults_modify, vaults_credit, wp_ite, wp_pure]
                  exact ⟨fun _ => ⟨fun _ => kept, fun _ => kept⟩, fun _ => noted, fun _ => noted⟩

theorem sweepTranche_vaults (ctx : Ctx) (owner : String) (id : Nat)
    (covered : Covers (r.getAmount .poolHBD) k)
    : Vaults (sweepTranche ctx owner id) (fun _ v => v.Covered) ⟨r, k⟩ := by
  simp only [sweepTranche, Vaults, wp_bind, vaults_rows]
  cases r.getTranche owner id with
  | none => exact covered
  | some t =>
      simp only [wp_ite, wp_pure]
      exact ⟨fun _ => covered, fun _ => ⟨fun _ => covered, fun _ =>
        closeTranche_vaults ctx owner id covered⟩⟩

theorem swapLCForHBD_vaults (ctx : Ctx) (lcIn minOut : Int)
    (covered : Covers (r.getAmount .poolHBD) k)
    : Vaults (swapLCForHBD ctx lcIn minOut) (fun _ v => v.Covered) ⟨r, k⟩ := by
  simp only [swapLCForHBD, Vaults, wp_bind, vaults_rows, wp_ite, wp_pure, vaults_balance]
  refine ⟨fun _ => covered, fun _ _ => ⟨fun _ => covered, fun _ => ?_⟩⟩
  cases swap : swapOut (r.getAmount .poolLC) (r.getAmount .poolHBD) lcIn with
  | none => exact covered
  | some out =>
      obtain ⟨positive, part⟩ := swapOut_part swap
      obtain ⟨held, paid⟩ := covered.pay positive.le part.le
      have noted : Vault.Covered ⟨noteAccount r ctx.sender, k⟩ := by
        rw [Vault.Covered, noteAccount_reserve]
        exact covered
      simp only [wp_ite, wp_bind, wp_pure, vaults_debit, vaults_transferHbd, vaults_credit,
        vaults_modify]
      refine ⟨fun _ => covered, fun _ _ => ⟨fun _ => covered, fun _ => ⟨held,
        ⟨fun _ => ⟨fun _ => covered, noted⟩, by simp⟩,
        fun k' left => ⟨of_refused, fun _ => ?_⟩⟩⟩⟩
      simpa [Vault.Covered] using paid k' left

theorem swapHBDForLC_vaults (ctx : Ctx) {hbdIn : Int} (word : hbdIn < 2 ^ 63) (minOut : Int)
    (covered : Covers (r.getAmount .poolHBD) k)
    : Vaults (swapHBDForLC ctx hbdIn minOut) (fun _ v => v.Covered) ⟨r, k⟩ := by
  simp only [swapHBDForLC, Vaults, wp_bind, vaults_rows, wp_ite, wp_pure]
  refine ⟨fun _ => covered, fun _ => ?_⟩
  cases swap : swapOut (r.getAmount .poolHBD) (r.getAmount .poolLC) hbdIn with
  | none => exact covered
  | some out =>
      simp only [wp_ite, wp_bind, wp_pure, vaults_draw, vaults_setRows, vaults_credit]
      refine ⟨fun _ => covered, fun _ => ⟨⟨fun _ => covered, by simp⟩, fun some_drawn k' sum =>
        ⟨of_refused, fun _ => ?_⟩⟩⟩
      have drawn := covered.draw word some_drawn sum
      have kept : Vault.Covered ⟨(r.setAmount .poolHBD (i64 (r.getAmount .poolHBD + hbdIn))).setAmount
          .poolLC (i64 (r.getAmount .poolLC - out)), k'⟩ := by
        simpa [Vault.Covered] using drawn
      have noted : Vault.Covered ⟨noteAccount ((r.setAmount .poolHBD
          (i64 (r.getAmount .poolHBD + hbdIn))).setAmount .poolLC
          (i64 (r.getAmount .poolLC - out))) ctx.sender, k'⟩ := by
        rw [Vault.Covered, noteAccount_reserve]
        exact kept
      exact ⟨fun _ => ⟨fun _ => kept, fun _ => kept⟩, fun _ => noted, fun _ => noted⟩

/-- Every operation keeps the reserve covered and sends only what is in custody, by cases on the
five that trade.
-/
theorem Action.program_vaults {ctx : Ctx} {action : Action} {p : Op Result}
    (program : action.program ctx = some p) (covered : Covers (r.getAmount .poolHBD) k)
    : Vaults p (fun _ v => v.Covered) ⟨r, k⟩ := by
  by_cases still : action.trades = false
  · exact Action.still_vaults still program covered
  cases action <;> first | exact absurd rfl still | cases program
  case addLiquidity.refl lcIn maxHbd =>
    exact addLiquidity_vaults ctx (Int64.toInt_lt maxHbd) covered
  case removeLiquidity.refl id => exact closeTranche_vaults ctx ctx.sender id.toNat covered
  case sweepTranche.refl owner id => exact sweepTranche_vaults ctx owner id.toNat covered
  case swapLCForHBD.refl lcIn minOut => exact swapLCForHBD_vaults ctx _ _ covered
  case swapHBDForLC.refl hbdIn minOut =>
    exact swapHBDForLC_vaults ctx (Int64.toInt_lt hbdIn) _ covered

end Operations

-----------------------------------------------------------------------------------------
-- Runs
-----------------------------------------------------------------------------------------

section Runs

variable {S : Type} [Sdk S] {w : World (SdkAssets S)}

/-- The two operations without a program leave the vault alone. -/
theorem Action.exec_vault {ctx : Ctx} {action : Action} (program : action.program ctx = none)
    (w : World (SdkAssets S))
    : (action.exec ctx w).1.vault = w.vault := by
  have custody : (action.exec ctx w).1.custody = w.custody := by
    cases action <;> cases program <;> rfl
  rw [World.vault, Action.exec_rows program, custody, World.vault]

/-- Every request keeps the reserve covered. -/
theorem Request.exec_covered (q : Request) (covered : w.vault.Covered)
    : (q.exec w).1.vault.Covered := by
  have executed : (q.action.exec q.ctx w).1.vault.Covered := by
    cases program : q.action.program q.ctx with
    | some p =>
        rw [Action.exec_of_program program]
        have within (c : Call) (w : World (SdkAssets S)) (_ : True) (_ : vaultNeeds c w.vault)
            : True ∧ vaultMay c w.vault (serve c w).2 (serve c w).1.vault :=
          ⟨trivial, serve_vaultMay c w⟩
        exact (wp_run within (Action.program_vaults program covered) trivial).2
    | none =>
        rw [Action.exec_vault program]
        exact covered
  unfold Request.exec
  dsimp only
  split
  · exact covered
  · exact executed

/-- A contract that has just been initialised books no reserve. -/
theorem initialised_covered (bal : String → Option Int) (token : Option MemToken) (sdk : S)
    (genesis : UInt64)
    : (initialised ⟨.empty, bal, token⟩ (SdkAssets.mk sdk) genesis).vault.Covered := by
  have none_booked : (initialised ⟨.empty, bal, token⟩ (SdkAssets.mk sdk) genesis).rows.getAmount
      .poolHBD = 0 :=
    (initialised_touches ⟨.empty, bal, token⟩ (SdkAssets.mk sdk) genesis rfl).amount .poolHBD rfl
  rw [World.vault, Vault.Covered, none_booked]
  exact ⟨mul_nonneg (Int.natCast_nonneg _) (by decide), fun short => absurd short (lt_irrefl 0)⟩

/-- Whatever is requested, the HBD in custody covers the reserve that the contract books, and every
transfer that an operation then makes, a withdrawal's like a swap's, is of HBD in custody.
-/
theorem custody_covers_reserve (bal : String → Option Int) (token : Option MemToken) (sdk : S)
    (genesis : UInt64) (requests : List Request)
    : let w := after (initialised ⟨.empty, bal, token⟩ (SdkAssets.mk sdk) genesis) requests
      w.rows.getAmount .poolHBD ≤ w.custody * hbdUnitsPerMilli
        ∧ ∀ (ctx : Ctx) (action : Action) (p : Op Result), action.program ctx = some p
          → ∀ recipient amount v, (Call.transferHbd recipient amount, v) ∈ p.issued serve w
            → hbdPayMilli amount ≤ v.custody := by
  have covered := after_keep (I := fun w : World (SdkAssets S) => w.vault.Covered)
    (fun w q => q.exec_covered) (initialised_covered bal token sdk genesis) requests
  refine ⟨covered.reserve, fun ctx action p program recipient amount v made => ?_⟩
  exact wp_met serve_vaultMay (Action.program_vaults program covered) _ made

/-- A ledger that holds nothing but what the contract has in custody. -/
structure Pot where
  milli : Nat

instance : Sdk Pot where
  custody := Pot.milli
  hiveDraw s milli := some ⟨s.milli + milli⟩
  hiveTransfer s _ milli := if milli ≤ s.milli then some ⟨s.milli - milli⟩ else none
  drawn := by rintro s milli _ ⟨⟩; rfl
  transferred s recipient milli s' sent := by
    split at sent
    · obtain rfl := Option.some.inj sent
      exact Nat.sub_add_cancel ‹_›
    · cases sent

/-- Two deposits with parts of a thousandth, a swap in each direction, and a withdrawal. -/
def trades : List Request :=
  [⟨{ sender := "hive:ann", height := 1 }, .addLiquidity 1000000000 150000001, true⟩,
    ⟨{ sender := "hive:bob", height := 1 }, .addLiquidity 500000001 90000000, true⟩,
    ⟨{ sender := "hive:cid", height := 1 }, .swapLCForHBD 100000007 0, true⟩,
    ⟨{ sender := "hive:cid", height := 1 }, .swapHBDForLC 12345678 0, true⟩,
    ⟨{ sender := "hive:ann", height := 1 }, .removeLiquidity 1, true⟩]

def tradesStart : World (SdkAssets Pot) :=
  initialised ⟨.empty, fun _ => some 10000000000, none⟩ (SdkAssets.mk (Pot.mk 0)) 1

/-- After them the other position is covered by little more than it needs, and so is its withdrawal. -/
theorem custody_covers_trades
    : (results tradesStart trades).all Result.ok = true
      ∧ (after tradesStart trades).custody = 748
      ∧ (after tradesStart trades).rows.getAmount .poolHBD = 74427727
      ∧ (after tradesStart trades).rows.getAmount .poolHBD
        ≤ (after tradesStart trades).custody * hbdUnitsPerMilli
      ∧ ∀ recipient amount v, (Call.transferHbd recipient amount, v)
          ∈ (removeLiquidity { sender := "hive:bob", height := 1 } 1).issued serve
            (after tradesStart trades)
        → hbdPayMilli amount ≤ v.custody := by
  obtain ⟨reserve, transfers⟩ :=
    custody_covers_reserve (fun _ => some 10000000000) none (Pot.mk 0) 1 trades
  exact ⟨by decide +kernel, by decide +kernel, by decide +kernel, reserve,
    transfers _ (.removeLiquidity 1) _ rfl⟩

end Runs

end LasseCash.State
