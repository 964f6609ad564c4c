import LasseCash.Lib.FiniteSum
import LasseCash.State.RowEffects

/-! The contract's treasury: of the LASSECASH in circulation, what no account holds. An operation
that pays out of its treasury only, and names no forbidden account, cannot tell the legacy rows
from a token: both serve it in lockstep, and no payment of it is refused.
-/

namespace LasseCash.State

open Engine MachineInt Function Program FiniteSum

-----------------------------------------------------------------------------------------
-- The treasury
-----------------------------------------------------------------------------------------

/-- The rows, and the float that backs what they owe. -/
structure Treasury where
  rows : Rows
  float : Int

/-- Everything that was ever issued. -/
def supplyOf (r : Rows) : Int := r.getAmount .migrated + r.getAmount .emitted

/-- A bound on the supply, far enough below a word for every sum of it and of shares. -/
def supplyCeiling : Int := 20000000000000000

/-- What a call needs of the treasury: `named` accounts only, payments within the float and
issuance within the ceiling. Rewriting the rows may not touch the supply.
-/
def treasuryNeeds (named : String → Prop) : Call → Treasury → Prop
  | .setRows r, t =>
      r.getAmount .migrated = t.rows.getAmount .migrated
        ∧ r.getAmount .emitted = t.rows.getAmount .emitted
  | .balance account, _ => named account
  | .credit account amt, t => 0 ≤ amt ∧ amt ≤ t.float ∧ (0 < amt → named account)
  | .debit account amt, _ => 0 < amt ∧ named account
  | .mintSupply key delta, t =>
      (key = .migrated ∨ key = .emitted) ∧ 0 ≤ delta ∧ supplyOf t.rows + delta ≤ supplyCeiling
  | _, _ => True

/-- The rows after a payment: an account is noted when it first holds value. -/
def afterCredit (r : Rows) (account : String) (amt : Int) : Rows :=
  if amt = 0 then r else noteAccount r account

/-- The rows after an issuance. -/
def afterMint (r : Rows) (key : AmountKey) (delta : Int) : Rows :=
  if delta = 0 then r else r.setAmount key (r.getAmount key + delta)

/-- What a call may do to the treasury when its needs are met. -/
def treasuryMay : May Call Reply Treasury
  | .rows, t, reply, t' => reply = t.rows ∧ t' = t
  | .setRows r, t, _, t' => t' = { t with rows := r }
  | .credit account amt, t, paid, t' =>
      paid = true ∧ t' = ⟨afterCredit t.rows account amt, t.float - amt⟩
  | .debit _ amt, t, taken, t' =>
      taken = true ∧ t.float + amt ≤ supplyOf t.rows ∧ t' = { t with float := t.float + amt }
        ∨ taken = false ∧ t' = t
  | .mintSupply key delta, t, minted, t' =>
      minted = true ∧ t' = ⟨afterMint t.rows key delta, t.float + delta⟩
  | _, t, _, t' => t' = t

-----------------------------------------------------------------------------------------
-- Rules for the calls
-----------------------------------------------------------------------------------------

section Rules

variable {named : String → Prop} {t : Treasury}

@[simp]
theorem wp_rows {Q : Rows → Treasury → Prop}
    : rows.wp (treasuryNeeds named) treasuryMay Q t ↔ Q t.rows t := by
  refine wp_issue.trans ⟨fun h => h.2 t.rows t ⟨rfl, rfl⟩, fun h => ⟨trivial, ?_⟩⟩
  rintro reply t' ⟨rfl, rfl⟩
  exact h

@[simp]
theorem wp_setRows {r : Rows} {Q : Unit → Treasury → Prop}
    : (setRows r).wp (treasuryNeeds named) treasuryMay Q t
      ↔ (r.getAmount .migrated = t.rows.getAmount .migrated
          ∧ r.getAmount .emitted = t.rows.getAmount .emitted)
        ∧ Q () { t with rows := r } := by
  refine wp_issue.trans (and_congr_right fun _ => ⟨fun h => h () _ rfl, ?_⟩)
  rintro h ⟨⟩ t' rfl
  exact h

@[simp]
theorem wp_modify {f : Rows → Rows} {Q : Unit → Treasury → Prop}
    : (modify f).wp (treasuryNeeds named) treasuryMay Q t
      ↔ ((f t.rows).getAmount .migrated = t.rows.getAmount .migrated
          ∧ (f t.rows).getAmount .emitted = t.rows.getAmount .emitted)
        ∧ Q () { t with rows := f t.rows } := by
  simp only [modify, wp_bind, wp_rows, wp_setRows]

@[simp]
theorem wp_balance {account : String} {Q : Int → Treasury → Prop}
    : (balance account).wp (treasuryNeeds named) treasuryMay Q t
      ↔ named account ∧ ∀ n, Q n t := by
  refine wp_issue.trans (and_congr_right fun _ => ⟨fun h n => h n t rfl, ?_⟩)
  rintro h n t' rfl
  exact h n

@[simp]
theorem wp_credit {account : String} {amt : Int} {Q : Bool → Treasury → Prop}
    : (credit account amt).wp (treasuryNeeds named) treasuryMay Q t
      ↔ (0 ≤ amt ∧ amt ≤ t.float ∧ (0 < amt → named account))
        ∧ Q true ⟨afterCredit t.rows account amt, t.float - amt⟩ := by
  refine wp_issue.trans (and_congr_right fun _ => ⟨fun h => h true _ ⟨rfl, rfl⟩, ?_⟩)
  rintro h paid t' ⟨rfl, rfl⟩
  exact h

@[simp]
theorem wp_debit {account : String} {amt : Int} {Q : Bool → Treasury → Prop}
    : (debit account amt).wp (treasuryNeeds named) treasuryMay Q t
      ↔ (0 < amt ∧ named account)
        ∧ (t.float + amt ≤ supplyOf t.rows → Q true { t with float := t.float + amt })
        ∧ Q false t := by
  refine wp_issue.trans (and_congr_right fun _ => ⟨fun h =>
    ⟨fun within => h true _ (.inl ⟨rfl, within, rfl⟩), h false _ (.inr ⟨rfl, rfl⟩)⟩, ?_⟩)
  rintro ⟨taken, refused⟩ b t' (⟨rfl, within, rfl⟩ | ⟨rfl, rfl⟩)
  · exact taken within
  · exact refused

@[simp]
theorem wp_mintSupply {key : AmountKey} {delta : Int} {Q : Bool → Treasury → Prop}
    : (mintSupply key delta).wp (treasuryNeeds named) treasuryMay Q t
      ↔ ((key = .migrated ∨ key = .emitted) ∧ 0 ≤ delta
          ∧ supplyOf t.rows + delta ≤ supplyCeiling)
        ∧ Q true ⟨afterMint t.rows key delta, t.float + delta⟩ := by
  refine wp_issue.trans (and_congr_right fun _ => ⟨fun h => h true _ ⟨rfl, rfl⟩, ?_⟩)
  rintro h minted t' ⟨rfl, rfl⟩
  exact h

@[simp]
theorem wp_draw {amount : Int} {Q : Bool → Treasury → Prop}
    : (draw amount).wp (treasuryNeeds named) treasuryMay Q t ↔ ∀ b, Q b t := by
  refine wp_issue.trans ⟨fun h b => h.2 b t rfl, fun h => ⟨trivial, ?_⟩⟩
  rintro b t' rfl
  exact h b

@[simp]
theorem wp_transferHbd {recipient : String} {amount : Int} {Q : Bool → Treasury → Prop}
    : (transferHbd recipient amount).wp (treasuryNeeds named) treasuryMay Q t
      ↔ ∀ b, Q b t := by
  refine wp_issue.trans ⟨fun h b => h.2 b t rfl, fun h => ⟨trivial, ?_⟩⟩
  rintro b t' rfl
  exact h b

end Rules

-----------------------------------------------------------------------------------------
-- On the legacy rows
-----------------------------------------------------------------------------------------

/-- What no account of the legacy rows holds. -/
noncomputable def Store.float (s : Store) : Int := supplyOf s.rows - finsum s.legacyBalance

/-- (s.Legacy) says that the balances are in the legacy rows, and that nobody overdraws. -/
structure Store.Legacy (s : Store) : Prop where
  token : s.token = none
  finite : (support s.legacyBalance).Finite
  nonneg : ∀ account, 0 ≤ s.legacyBalance account
  migrated : 0 ≤ s.rows.getAmount .migrated
  emitted : 0 ≤ s.rows.getAmount .emitted
  float : 0 ≤ s.float
  supply : supplyOf s.rows ≤ supplyCeiling

/-- The treasury of a world on the legacy rows. -/
noncomputable def World.treasury {A : Type} (w : World A) : Treasury := ⟨w.rows, w.store.float⟩

section Legacy

variable {s : Store}

/-- No account holds more than what is not in the treasury. -/
theorem Store.Legacy.balance_le (h : s.Legacy) (account : String)
    : s.legacyBalance account + s.float ≤ supplyOf s.rows := by
  have most : s.legacyBalance account ≤ finsum s.legacyBalance :=
    single_le_finsum account h.finite h.nonneg
  unfold Store.float
  omega

/-- A balance write moves the float the other way. -/
theorem Store.Legacy.write (h : s.Legacy) (account : String) {v : Int} (nonneg : 0 ≤ v)
    (within : v ≤ s.legacyBalance account + s.float) (rows : Rows)
    (migrated : rows.getAmount .migrated = s.rows.getAmount .migrated)
    (emitted : rows.getAmount .emitted = s.rows.getAmount .emitted)
    : let s' : Store := { s with rows, bal := update s.bal account (some v) }
      s'.Legacy ∧ s'.float = s.float + (s.legacyBalance account - v) := by
  intro s'
  have balances : s'.legacyBalance = update s.legacyBalance account v := by
    funext a
    by_cases same : a = account
    · subst same
      simp [s', Store.legacyBalance]
    · simp [s', Store.legacyBalance, same]
  have supply : supplyOf s'.rows = supplyOf s.rows := by
    unfold supplyOf
    rw [show s'.rows = rows from rfl, migrated, emitted]
  have float : s'.float = s.float + (s.legacyBalance account - v) := by
    unfold Store.float
    rw [supply, balances, finsum_update h.finite]
    omega
  refine ⟨⟨h.token, ?_, fun a => ?_, migrated ▸ h.migrated, emitted ▸ h.emitted, by omega,
    supply ▸ h.supply⟩, float⟩
  · rw [balances]
    exact finite_update h.finite account v
  · rw [balances]
    by_cases same : a = account
    · subst same
      simpa using nonneg
    · simpa [same] using h.nonneg a

/-- Rewriting the rows is free while the supply stays. -/
theorem Store.Legacy.setRows (h : s.Legacy) {rows : Rows}
    (migrated : rows.getAmount .migrated = s.rows.getAmount .migrated)
    (emitted : rows.getAmount .emitted = s.rows.getAmount .emitted)
    : ({ s with rows } : Store).Legacy ∧ ({ s with rows } : Store).float = s.float := by
  have supply : supplyOf rows = supplyOf s.rows := by
    unfold supplyOf
    rw [migrated, emitted]
  have float : ({ s with rows } : Store).float = s.float := by
    unfold Store.float
    rw [supply]
    rfl
  exact ⟨⟨h.token, h.finite, h.nonneg, migrated ▸ h.migrated, emitted ▸ h.emitted,
    float ▸ h.float, supply ▸ h.supply⟩, float⟩

theorem noteAccount_supply (r : Rows) (account : String)
    : (noteAccount r account).getAmount .migrated = r.getAmount .migrated
      ∧ (noteAccount r account).getAmount .emitted = r.getAmount .emitted := by
  unfold noteAccount
  split
  · exact ⟨rfl, rfl⟩
  split <;> exact ⟨rfl, rfl⟩

/-- A payment within the float is made. -/
theorem Store.Legacy.credit (h : s.Legacy) (account : String) {amt : Int} (nonneg : 0 ≤ amt)
    (within : amt ≤ s.float)
    : (s.credit account amt).2 = true ∧ (s.credit account amt).1.Legacy
      ∧ (s.credit account amt).1.rows = afterCredit s.rows account amt
      ∧ (s.credit account amt).1.float = s.float - amt := by
  unfold Store.credit afterCredit
  rw [if_neg (by omega)]
  by_cases none_due : amt = 0
  · rw [if_pos none_due, if_pos none_due]
    exact ⟨rfl, h, rfl, by dsimp only; omega⟩
  rw [if_neg none_due, if_neg none_due]
  have room := h.balance_le account
  have held := h.nonneg account
  have cap := h.supply
  unfold supplyCeiling at cap
  split
  · rename_i t token
    rw [h.token] at token
    cases token
  have balance : s.balance account = s.legacyBalance account := by
    unfold Store.balance
    rw [h.token]
  rw [balance, addAmount_of_fits held nonneg (by omega)]
  obtain ⟨kept, float⟩ := h.write account (v := s.legacyBalance account + amt) (by omega) (by omega)
    (noteAccount s.rows account) (noteAccount_supply _ _).1 (noteAccount_supply _ _).2
  exact ⟨rfl, kept, rfl, float.trans (by omega)⟩

/-- A debit takes what is there, or nothing. -/
theorem Store.Legacy.debit (h : s.Legacy) (account : String) {amt : Int} (positive : 0 < amt)
    : (s.debit account amt).1.Legacy ∧ (s.debit account amt).1.rows = s.rows
      ∧ ((s.debit account amt).2 = true ∧ s.float + amt ≤ supplyOf s.rows
          ∧ (s.debit account amt).1.float = s.float + amt
        ∨ (s.debit account amt).2 = false ∧ (s.debit account amt).1.float = s.float) := by
  have room := h.balance_le account
  have floating := h.float
  have cap := h.supply
  unfold supplyCeiling at cap
  have balance : s.balance account = s.legacyBalance account := by
    unfold Store.balance
    rw [h.token]
  unfold Store.debit
  rw [if_neg (by omega)]
  split
  · rename_i t token
    rw [h.token] at token
    cases token
  dsimp only
  rw [balance]
  split
  · exact ⟨h, rfl, .inr ⟨rfl, rfl⟩⟩
  · rename_i enough
    have left : i64 (s.legacyBalance account - amt) = s.legacyBalance account - amt :=
      i64_of_nonneg (by omega) (by omega)
    rw [left]
    obtain ⟨kept, float⟩ := h.write account (v := s.legacyBalance account - amt) (by omega)
      (by omega) s.rows rfl rfl
    exact ⟨kept, rfl, .inl ⟨rfl, by omega, float.trans (by omega)⟩⟩

/-- An issuance within the ceiling is booked. -/
theorem Store.Legacy.mintSupply (h : s.Legacy) {key : AmountKey} {delta : Int}
    (counter : key = .migrated ∨ key = .emitted) (nonneg : 0 ≤ delta)
    (within : supplyOf s.rows + delta ≤ supplyCeiling)
    : (s.mintSupply key delta).2 = true ∧ (s.mintSupply key delta).1.Legacy
      ∧ (s.mintSupply key delta).1.rows = afterMint s.rows key delta
      ∧ (s.mintSupply key delta).1.float = s.float + delta := by
  unfold Store.mintSupply afterMint
  rw [if_neg (by omega)]
  by_cases none_due : delta = 0
  · rw [if_pos none_due, if_pos none_due]
    exact ⟨rfl, h, rfl, by dsimp only; omega⟩
  rw [if_neg none_due, if_neg none_due]
  have migrated := h.migrated
  have emitted := h.emitted
  have floating := h.float
  have held : 0 ≤ s.rows.getAmount key ∧ s.rows.getAmount key ≤ supplyOf s.rows := by
    unfold supplyOf
    rcases counter with rfl | rfl <;> omega
  unfold supplyCeiling at within
  rw [addAmount_of_fits held.1 nonneg (by omega)]
  dsimp only
  split
  · rename_i t token
    rw [h.token] at token
    cases token
  have raised : supplyOf (s.rows.setAmount key (s.rows.getAmount key + delta))
      = supplyOf s.rows + delta := by
    unfold supplyOf
    rcases counter with rfl | rfl <;> simp <;> omega
  have float : (s.modify (·.setAmount key (s.rows.getAmount key + delta))).float = s.float + delta := by
    unfold Store.float
    rw [Store.modify_rows, raised]
    change _ - finsum s.legacyBalance = _
    omega
  refine ⟨rfl, ⟨h.token, h.finite, h.nonneg, ?_, ?_, ?_, ?_⟩, rfl, float⟩
  · rcases counter with rfl | rfl <;> simp <;> simp only [Rows.getAmount] at * <;> omega
  · rcases counter with rfl | rfl <;> simp <;> simp only [Rows.getAmount] at * <;> omega
  · exact float.symm ▸ add_nonneg floating nonneg
  · rw [Store.modify_rows, raised]
    unfold supplyCeiling
    omega

end Legacy

/-- A world on the legacy rows serves every call whose needs are met within the treasury's
bounds, by cases on the call.
-/
theorem legacy_serves {A : Type} [Assets A] {named : String → Prop} (c : Call) (w : World A)
    (legacy : w.store.Legacy) (met : treasuryNeeds named c w.treasury)
    : (serve c w).1.store.Legacy
      ∧ treasuryMay c w.treasury (serve c w).2 (serve c w).1.treasury := by
  cases c with
  | rows => exact ⟨legacy, rfl, rfl⟩
  | setRows r =>
      obtain ⟨kept, float⟩ := legacy.setRows met.1 met.2
      exact ⟨kept, congrArg (Treasury.mk r) float⟩
  | balance account => exact ⟨legacy, rfl⟩
  | credit account amt =>
      obtain ⟨paid, kept, rows, float⟩ := legacy.credit account met.1 met.2.1
      exact ⟨kept, paid, congrArg₂ Treasury.mk rows float⟩
  | debit account amt =>
      obtain ⟨kept, rows, taken | refused⟩ := legacy.debit account met.1
      · exact ⟨kept, .inl ⟨taken.1, taken.2.1, congrArg₂ Treasury.mk rows taken.2.2⟩⟩
      · exact ⟨kept, .inr ⟨refused.1, congrArg₂ Treasury.mk rows refused.2⟩⟩
  | mintSupply key delta =>
      obtain ⟨minted, kept, rows, float⟩ := legacy.mintSupply met.1 met.2.1 met.2.2
      exact ⟨kept, minted, congrArg₂ Treasury.mk rows float⟩
  | draw amount => exact ⟨legacy, rfl⟩
  | transferHbd recipient amount => exact ⟨legacy, rfl⟩

end LasseCash.State
