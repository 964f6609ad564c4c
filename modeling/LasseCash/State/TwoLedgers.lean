import LasseCash.State.Footprints
import LasseCash.State.Treasury

/-! Two ledgers in step: a token that never fails holds the float in the core's own balance, so an
operation that keeps to its treasury has the same result on it as on the legacy rows. Transfers,
burns and donations do, in any order.
-/

namespace LasseCash.State

open Engine MachineInt Function Program

variable {A : Type}

/-- (Paired core w u) says that the world `u` keeps on a token, whose core is at `core`, what the
world `w` keeps on the legacy rows.
-/
structure Paired (core : String) (w u : World A) : Prop where
  legacy : w.store.Legacy
  rows : u.store.rows = w.store.rows
  assets : u.assets = w.assets
  moved : u.store.bal = fun _ => none
  token : ∃ t, u.store.token = some t ∧ t.self = core ∧ t.fail = false
    ∧ (∀ account ≠ core, t.bal account = w.store.legacyBalance account)
    ∧ t.bal core = w.store.float ∧ t.supply = supplyOf w.store.rows

variable {core : String} {named : String → Prop} {w u : World A}

/-- With no legacy row left nothing is moved into the token. -/
theorem Store.ensureMigrated_moved {s : Store} (moved : s.bal = fun _ => none) (t : MemToken)
    (account : String)
    : s.ensureMigrated t account = (s, t, true) := by
  unfold Store.ensureMigrated Store.legacyBalance
  rw [moved]
  rfl

/-- A legacy balance write, read back. -/
theorem legacyBalance_write (s : Store) (rows : Rows) (account : String) (v : Int) (a : String)
    : ({ s with rows, bal := update s.bal account (some v) } : Store).legacyBalance a
      = if a = account then v else s.legacyBalance a := by
  unfold Store.legacyBalance
  by_cases same : a = account <;> simp [same]

/-- A payment of the core is booked on the token. -/
theorem Paired.credit (h : Paired core w u) {account : String} {amt : Int} (nonneg : 0 ≤ amt)
    (within : amt ≤ w.store.float) (payable : 0 < amt → account ≠ "" ∧ account ≠ core)
    : (w.store.credit account amt).2 = (u.store.credit account amt).2
      ∧ Paired core { w with store := (w.store.credit account amt).1 }
        { u with store := (u.store.credit account amt).1 } := by
  obtain ⟨paid, kept, rows, float⟩ := h.legacy.credit account nonneg within
  obtain ⟨t, token, isCore, works, balances, inCore, supply⟩ := h.token
  rcases nonneg.eq_or_lt with rfl | positive
  · have idle (s : Store) : s.credit account 0 = (s, true) := rfl
    rw [idle, idle]
    exact ⟨rfl, h⟩
  obtain ⟨nonempty, other⟩ := payable positive
  have room := h.legacy.balance_le account
  have held := h.legacy.nonneg account
  have cap := h.legacy.supply
  unfold supplyCeiling at cap
  have written : w.store.credit account amt = ({ w.store with
      rows := noteAccount w.store.rows account
      bal := update w.store.bal account (some (w.store.legacyBalance account + amt)) }, true) := by
    have balance : w.store.balance account = w.store.legacyBalance account := by
      unfold Store.balance
      rw [h.legacy.token]
    unfold Store.credit
    rw [if_neg (by omega), if_neg (by omega)]
    split
    · rename_i t' token'
      rw [h.legacy.token] at token'
      cases token'
    · rw [balance, addAmount_of_fits held nonneg (by omega)]
  have sent : t.transfer account amt = some { t with
      bal := update (update t.bal core (w.store.float - amt)) account
        (w.store.legacyBalance account + amt) } := by
    have enough : ¬(t.fail = true ∨ amt ≤ 0 ∨ account = "" ∨ t.bal t.self < amt) := by
      rw [works, isCore, inCore]
      simp only [nonempty, Bool.false_eq_true, false_or]
      omega
    unfold MemToken.transfer
    rw [if_neg enough]
    dsimp only
    rw [isCore, inCore, update_of_ne other, balances account other,
      i64_of_nonneg (by omega) (by omega), i64_of_nonneg (by omega) (by omega)]
  have served : u.store.credit account amt = ({ u.store with
      rows := noteAccount u.store.rows account
      token := some { t with
        bal := update (update t.bal core (w.store.float - amt)) account
          (w.store.legacyBalance account + amt) } }, true) := by
    unfold Store.credit
    rw [if_neg (by omega), if_neg (by omega), token]
    simp only [Store.ensureMigrated_moved h.moved, sent]
  rw [written] at kept float ⊢
  rw [served]
  refine ⟨rfl, kept, congrArg (noteAccount · account) h.rows, h.assets, h.moved, _, rfl, isCore,
    works, fun a away => ?_, ?_, ?_⟩
  · rw [legacyBalance_write]
    dsimp only
    by_cases same : a = account
    · rw [same, if_pos rfl, update_self]
    · rw [if_neg same, update_of_ne same, update_of_ne away, balances a away]
  · dsimp only
    rw [update_of_ne other.symm, update_self, float]
  · dsimp only
    rw [supply]
    unfold supplyOf
    rw [(noteAccount_supply _ _).1, (noteAccount_supply _ _).2]

/-- The core pulls what an account holds, or nothing. -/
theorem Paired.debit (h : Paired core w u) {account : String} {amt : Int} (positive : 0 < amt)
    (payable : account ≠ "" ∧ account ≠ core)
    : (w.store.debit account amt).2 = (u.store.debit account amt).2
      ∧ Paired core { w with store := (w.store.debit account amt).1 }
        { u with store := (u.store.debit account amt).1 } := by
  obtain ⟨kept, rows, outcome⟩ := h.legacy.debit account positive
  obtain ⟨t, token, isCore, works, balances, inCore, supply⟩ := h.token
  obtain ⟨nonempty, other⟩ := payable
  have room := h.legacy.balance_le account
  have floating := h.legacy.float
  have cap := h.legacy.supply
  unfold supplyCeiling at cap
  have held := balances account other
  have balance : w.store.balance account = w.store.legacyBalance account := by
    unfold Store.balance
    rw [h.legacy.token]
  by_cases short : w.store.legacyBalance account < amt
  · have refused : w.store.debit account amt = (w.store, false) := by
      unfold Store.debit
      rw [if_neg (by omega)]
      split
      · rename_i t' token'
        rw [h.legacy.token] at token'
        cases token'
      · dsimp only
        rw [balance, if_pos short]
    have refused' : u.store.debit account amt = (u.store, false) := by
      unfold Store.debit
      rw [if_neg (by omega), token]
      simp only [Store.ensureMigrated_moved h.moved, held, if_pos short]
    rw [refused, refused']
    exact ⟨rfl, h⟩
  have left : i64 (w.store.legacyBalance account - amt) = w.store.legacyBalance account - amt :=
    i64_of_nonneg (by omega) (by omega)
  have written : w.store.debit account amt = ({ w.store with
      bal := update w.store.bal account (some (w.store.legacyBalance account - amt)) }, true) := by
    unfold Store.debit
    rw [if_neg (by omega)]
    split
    · rename_i t' token'
      rw [h.legacy.token] at token'
      cases token'
    · dsimp only
      rw [balance, if_neg short, left]
  rw [written] at kept outcome ⊢
  have float : ({ w.store with
      bal := update w.store.bal account (some (w.store.legacyBalance account - amt)) } : Store).float
      = w.store.float + amt :=
    outcome.elim (fun taken => taken.2.2) fun refused => by cases refused.1
  have pulled : t.transferFrom account amt = some { t with
      bal := update (update t.bal account (w.store.legacyBalance account - amt)) core
        (w.store.float + amt) } := by
    have enough : ¬(t.fail = true ∨ amt ≤ 0 ∨ account = "" ∨ t.bal account < amt) := by
      rw [works, held]
      simp only [nonempty, Bool.false_eq_true, false_or]
      omega
    unfold MemToken.transferFrom
    rw [if_neg enough]
    dsimp only
    rw [isCore, held, left, update_of_ne other.symm, inCore, i64_of_nonneg (by omega) (by omega)]
  have served : u.store.debit account amt = ({ u.store with
      token := some { t with
        bal := update (update t.bal account (w.store.legacyBalance account - amt)) core
          (w.store.float + amt) } }, true) := by
    unfold Store.debit
    rw [if_neg (by omega), token]
    simp only [Store.ensureMigrated_moved h.moved, held, if_neg short, pulled]
  rw [served]
  refine ⟨rfl, kept, h.rows, h.assets, h.moved, _, rfl, isCore, works, fun a away => ?_, ?_, supply⟩
  · have write := legacyBalance_write w.store w.store.rows account
      (w.store.legacyBalance account - amt) a
    dsimp only at write ⊢
    rw [write, update_of_ne away]
    by_cases same : a = account
    · rw [same, if_pos rfl, update_self]
    · rw [if_neg same, update_of_ne same, balances a away]
  · dsimp only
    rw [update_self, float]

/-- Issuance is minted into the core. -/
theorem Paired.mintSupply (h : Paired core w u) {key : AmountKey} {delta : Int}
    (counter : key = .migrated ∨ key = .emitted) (nonneg : 0 ≤ delta)
    (within : supplyOf w.store.rows + delta ≤ supplyCeiling)
    : (w.store.mintSupply key delta).2 = (u.store.mintSupply key delta).2
      ∧ Paired core { w with store := (w.store.mintSupply key delta).1 }
        { u with store := (u.store.mintSupply key delta).1 } := by
  obtain ⟨minted, kept, rows, float⟩ := h.legacy.mintSupply counter nonneg within
  obtain ⟨t, token, isCore, works, balances, inCore, supply⟩ := h.token
  have floating := h.legacy.float
  have migrated := h.legacy.migrated
  have emitted := h.legacy.emitted
  have held : 0 ≤ w.store.rows.getAmount key
      ∧ w.store.rows.getAmount key ≤ supplyOf w.store.rows := by
    unfold supplyOf
    rcases counter with rfl | rfl <;> omega
  have covered : w.store.float ≤ supplyOf w.store.rows := by
    have := h.legacy.balance_le ""
    have := h.legacy.nonneg ""
    omega
  rcases nonneg.eq_or_lt with rfl | positive
  · have idle (s : Store) : s.mintSupply key 0 = (s, true) := rfl
    rw [idle, idle]
    exact ⟨rfl, h⟩
  unfold supplyCeiling at within
  have sum : addAmount (w.store.rows.getAmount key) delta
      = some (w.store.rows.getAmount key + delta) :=
    addAmount_of_fits held.1 nonneg (by omega)
  have written : w.store.mintSupply key delta
      = (w.store.modify (·.setAmount key (w.store.rows.getAmount key + delta)), true) := by
    unfold Store.mintSupply
    rw [if_neg (by omega), if_neg (by omega), sum]
    dsimp only
    split
    · rename_i t' token'
      rw [h.legacy.token] at token'
      cases token'
    · rfl
  have issued : t.mint delta = some { t with
      bal := update t.bal core (w.store.float + delta)
      supply := supplyOf w.store.rows + delta } := by
    have allowed : ¬(t.fail = true ∨ delta ≤ 0) := by
      rw [works]
      simp only [Bool.false_eq_true, false_or]
      omega
    unfold MemToken.mint
    rw [if_neg allowed, isCore, inCore, supply, i64_of_nonneg (by omega) (by omega),
      i64_of_nonneg (by omega) (by omega)]
  have served : u.store.mintSupply key delta = ({ u.store with
      rows := u.store.rows.setAmount key (u.store.rows.getAmount key + delta)
      token := some { t with
        bal := update t.bal core (w.store.float + delta)
        supply := supplyOf w.store.rows + delta } }, true) := by
    unfold Store.mintSupply
    rw [if_neg (by omega), if_neg (by omega), h.rows, sum, token]
    simp only [issued]
  have raised : supplyOf (w.store.rows.setAmount key (w.store.rows.getAmount key + delta))
      = supplyOf w.store.rows + delta := by
    unfold supplyOf
    rcases counter with rfl | rfl <;> simp <;> omega
  rw [written] at kept float ⊢
  rw [served]
  refine ⟨rfl, kept, ?_, h.assets, h.moved, _, rfl, isCore, works, fun a away => ?_, ?_, ?_⟩
  · rw [h.rows]
    rfl
  · dsimp only
    rw [update_of_ne away]
    exact balances a away
  · dsimp only
    rw [update_self]
    exact float.symm
  · exact raised.symm

section Calls

variable [Assets A]

/-- Every call whose needs are met is answered alike on both ledgers, by cases on the call. -/
theorem paired_serve (payable : ∀ account, named account → account ≠ "" ∧ account ≠ core)
    (c : Call) (w u : World A) (h : Paired core w u) (met : treasuryNeeds named c w.treasury)
    : (serve c w).2 = (serve c u).2 ∧ Paired core (serve c w).1 (serve c u).1
      ∧ treasuryMay c w.treasury (serve c w).2 (serve c w).1.treasury := by
  have may := (legacy_serves c w h.legacy met).2
  suffices alike : (serve c w).2 = (serve c u).2 ∧ Paired core (serve c w).1 (serve c u).1 from
    ⟨alike.1, alike.2, may⟩
  cases c with
  | rows => exact ⟨h.rows.symm, h⟩
  | setRows r =>
      obtain ⟨kept, float⟩ := h.legacy.setRows met.1 met.2
      obtain ⟨t, token, isCore, works, balances, inCore, supply⟩ := h.token
      refine ⟨rfl, kept, rfl, h.assets, h.moved, t, token, isCore, works, balances,
        inCore.trans float.symm, supply.trans ?_⟩
      unfold supplyOf
      exact congrArg₂ (· + ·) met.1.symm met.2.symm
  | balance account =>
      obtain ⟨t, token, _, _, balances, _, _⟩ := h.token
      have room := h.legacy.balance_le account
      have held := h.legacy.nonneg account
      have floating := h.legacy.float
      have cap := h.legacy.supply
      unfold supplyCeiling at cap
      refine ⟨?_, h⟩
      have none_left : u.store.legacyBalance account = 0 := by
        unfold Store.legacyBalance
        rw [h.moved]
        rfl
      change w.store.balance account = u.store.balance account
      unfold Store.balance
      rw [h.legacy.token, token]
      dsimp only
      rw [none_left, balances account (payable account met).2, add_zero,
        i64_of_nonneg held (by omega)]
  | credit account amt => exact h.credit met.1 met.2.1 fun positive => payable _ (met.2.2 positive)
  | debit account amt => exact h.debit met.1 (payable _ met.2)
  | mintSupply key delta => exact h.mintSupply met.1 met.2.1 met.2.2
  | draw amount =>
      have same : (serve (.draw amount) w).2 = (serve (.draw amount) u).2 := by
        simp only [serve, h.assets]
      exact ⟨same, h.legacy, h.rows, by simp only [serve, h.assets], h.moved, h.token⟩
  | transferHbd recipient amount =>
      have same : (serve (.transferHbd recipient amount) w).2
          = (serve (.transferHbd recipient amount) u).2 := by
        simp only [serve, h.assets]
      exact ⟨same, h.legacy, h.rows, by simp only [serve, h.assets], h.moved, h.token⟩

/-- An operation that needs no more of the treasury than there is returns the same on both
ledgers, and leaves them in step.
-/
theorem paired_run {α : Type} {p : Op α} {Q : α → Treasury → Prop}
    (payable : ∀ account, named account → account ≠ "" ∧ account ≠ core) (h : Paired core w u)
    (holds : p.wp (treasuryNeeds named) treasuryMay Q w.treasury)
    : (p.run serve w).2 = (p.run serve u).2
      ∧ Paired core (p.run serve w).1 (p.run serve u).1
      ∧ Q (p.run serve w).2 (p.run serve w).1.treasury :=
  wp_lockstep (paired_serve payable) holds h

end Calls

-----------------------------------------------------------------------------------------
-- Payments
-----------------------------------------------------------------------------------------

/-- (Outside core account) says that a token knows the account, and that it is not its core. -/
def Outside (core account : String) : Prop := account ≠ "" ∧ account ≠ core

/-- The operations that pay from account to account, to nobody, and into the pools. -/
inductive Pays (core : String) : Action → Prop
  | transfer {recipient amt} (other : recipient ≠ core) : Pays core (.transfer recipient amt)
  | burnLiquid {amt} (other : burnAccount ≠ core) : Pays core (.burnLiquid amt)
  | fundPool {target amt} : Pays core (.fundPool target amt)

section Treasuries

variable {ctx : Ctx} {amt : Int} {t : Treasury}

theorem transfer_treasury {recipient : String} (sender : Outside core ctx.sender)
    (other : recipient ≠ core) (float : 0 ≤ t.float)
    : (transfer ctx recipient amt).wp (treasuryNeeds (Outside core)) treasuryMay
      (fun _ _ => True) t := by
  simp only [transfer, wp_bind, wp_ite, wp_pure, wp_debit, wp_credit, implies_true, true_and,
    and_true]
  intro positive named _
  have paid : Outside core recipient := ⟨fun empty => named (.inl empty), other⟩
  refine ⟨⟨by omega, sender⟩, fun _ _ => ⟨⟨by omega, by omega, fun _ => paid⟩, ?_⟩, ?_⟩
  · exact fun refused => absurd refused Bool.false_ne_true
  · exact fun refused => absurd rfl refused

theorem burnLiquid_treasury (sender : Outside core ctx.sender) (other : burnAccount ≠ core)
    (float : 0 ≤ t.float)
    : (burnLiquid ctx amt).wp (treasuryNeeds (Outside core)) treasuryMay (fun _ _ => True) t := by
  simp only [burnLiquid, burn, wp_bind, wp_ite, wp_pure, wp_debit, wp_credit, implies_true,
    true_and, and_true]
  intro positive _
  have burnt : Outside core burnAccount := ⟨by decide, other⟩
  refine ⟨⟨by omega, sender⟩, fun _ _ _ => ⟨by omega, by omega, fun _ => burnt⟩, ?_⟩
  exact fun refused => absurd rfl refused

theorem fundPool_treasury {target : String} (sender : Outside core ctx.sender)
    : (fundPool ctx target amt).wp (treasuryNeeds (Outside core)) treasuryMay
      (fun _ _ => True) t := by
  have touched := fundTarget_touches t.rows target amt
  simp only [fundPool, wp_bind, wp_ite, wp_pure, wp_debit, wp_rows, wp_modify, implies_true,
    true_and, and_true]
  intro _ positive _ _
  exact ⟨⟨by omega, sender⟩, fun _ _ => ⟨touched.amount .migrated rfl, touched.amount .emitted rfl⟩,
    fun refused => absurd rfl refused⟩

end Treasuries

section Runs

variable [Assets A]

/-- A payment returns the same on both ledgers, by cases on it, whether or not the chain unwinds what
fails.
-/
theorem Request.exec_paired {q : Request} (sender : Outside core q.ctx.sender)
    (pays : Pays core q.action) (h : Paired core w u)
    : (q.exec w).2 = (q.exec u).2 ∧ Paired core (q.exec w).1 (q.exec u).1 := by
  have float : 0 ≤ w.treasury.float := h.legacy.float
  have ran : ∃ p, q.action.program q.ctx = some p
      ∧ p.wp (treasuryNeeds (Outside core)) treasuryMay (fun _ _ => True) w.treasury := by
    generalize q.action = action at pays
    cases pays with
    | transfer other => exact ⟨_, rfl, transfer_treasury sender other float⟩
    | burnLiquid other => exact ⟨_, rfl, burnLiquid_treasury sender other float⟩
    | fundPool => exact ⟨_, rfl, fundPool_treasury sender⟩
  obtain ⟨p, program, holds⟩ := ran
  obtain ⟨same, kept, -⟩ := paired_run (fun _ outside => outside) h holds
  unfold Request.exec
  rw [Action.exec_of_program program, Action.exec_of_program program]
  dsimp only
  rw [← same]
  split
  · exact ⟨rfl, h⟩
  · exact ⟨rfl, kept⟩

/-- What an account holds is the same on both ledgers. -/
theorem Paired.balance (h : Paired core w u) {account : String} (outside : Outside core account)
    : w.store.balance account = u.store.balance account := by
  have payable (a : String) (known : Outside core a) : a ≠ "" ∧ a ≠ core := known
  exact (paired_serve payable (.balance account) w u h outside).1

/-- Payments in any order, of any amounts and whether they succeed or not, cannot tell the legacy
rows from a token that never fails: each returns the same on both, and both keep the same rows and
the same balances. By induction on the requests.
-/
theorem payments_alike {requests : List Request}
    (pays : ∀ q ∈ requests, Outside core q.ctx.sender ∧ Pays core q.action) (h : Paired core w u)
    : results w requests = results u requests
      ∧ (after w requests).rows = (after u requests).rows
      ∧ ∀ account, Outside core account
        → (after w requests).store.balance account = (after u requests).store.balance account := by
  induction requests generalizing w u with
  | nil => exact ⟨rfl, h.rows.symm, fun _ outside => h.balance outside⟩
  | cons q rest ih =>
      obtain ⟨sender, paid⟩ := pays q (.head _)
      obtain ⟨same, kept⟩ := q.exec_paired sender paid h
      obtain ⟨answers, rows, balances⟩ := ih (fun q there => pays q (.tail _ there)) kept
      exact ⟨congrArg₂ List.cons same answers, rows, balances⟩

/-- One account of a thousand base units, on the legacy rows and on a token. -/
def thousandOnRows : World MemAssets :=
  ⟨⟨Rows.empty.setAmount .migrated 1000, update (fun _ => none) "hive:a" (some 1000), none⟩, .new⟩

def thousandOnToken : World MemAssets :=
  ⟨⟨Rows.empty.setAmount .migrated 1000, fun _ => none,
    some ⟨update (fun _ => 0) "hive:a" 1000, 1000, "contract:core", false⟩⟩, .new⟩

theorem thousand_paired : Paired "contract:core" thousandOnRows thousandOnToken := by
  have held (account : String) : thousandOnRows.store.legacyBalance account
      = if account = "hive:a" then 1000 else 0 := by
    unfold Store.legacyBalance thousandOnRows
    dsimp only
    rw [update_apply]
    split <;> rfl
  have none_else (account : String) (other : account ≠ "hive:a")
      : thousandOnRows.store.legacyBalance account = 0 := by
    rw [held, if_neg other]
  have total : finsum thousandOnRows.store.legacyBalance = 1000 := by
    rw [finsum_eq_single _ "hive:a" none_else, held, if_pos rfl]
  have supply : supplyOf thousandOnRows.store.rows = 1000 := by decide
  have float : thousandOnRows.store.float = 0 := by
    rw [Store.float, total, supply]
    rfl
  refine ⟨⟨rfl, ?_, fun account => ?_, by decide, by decide, float.ge, by decide⟩, rfl, rfl, rfl,
    _, rfl, rfl, rfl, fun account other => ?_, ?_, supply.symm⟩
  · refine (Set.finite_singleton "hive:a").subset fun account there => ?_
    by_contra other
    exact there (none_else account other)
  · rw [held]
    split <;> decide
  · rw [held]
    change update (fun _ => (0 : Int)) "hive:a" 1000 account = _
    rw [update_apply]
  · rw [float]
    rfl

/-- A transfer, a burn and a donation that is refused, for nothing is initialised. -/
theorem payments_alike_thousand
    : let requests : List Request :=
        [⟨.of "hive:a" 1, .transfer "hive:b" 400, false⟩, ⟨.of "hive:b" 2, .burnLiquid 100, false⟩,
          ⟨.of "hive:a" 3, .fundPool "all" 50, false⟩]
      results thousandOnRows requests = results thousandOnToken requests
        ∧ (after thousandOnRows requests).rows = (after thousandOnToken requests).rows
        ∧ ∀ account, Outside "contract:core" account
          → (after thousandOnRows requests).store.balance account
            = (after thousandOnToken requests).store.balance account := by
  intro requests
  refine payments_alike (fun q there => ?_) thousand_paired
  simp only [requests, List.mem_cons, List.not_mem_nil, or_false] at there
  rcases there with rfl | rfl | rfl
  · exact ⟨⟨by decide, by decide⟩, .transfer (by decide)⟩
  · exact ⟨⟨by decide, by decide⟩, .burnLiquid (by decide)⟩
  · exact ⟨⟨by decide, by decide⟩, .fundPool⟩

end Runs

end LasseCash.State
