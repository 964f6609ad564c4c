import LasseCash.State.MigrationMoves
import LasseCash.State.Treasury

/-! Adopting the token: what is left on the legacy rows moves over account by account, and the
token's supply with what is still to be moved stays within the books.
-/

namespace LasseCash.State

open Engine MachineInt Function Program FiniteSum

-----------------------------------------------------------------------------------------
-- The token's own books
-----------------------------------------------------------------------------------------

/-- No balance of the token is negative, and they sum up to its supply. -/
structure MemToken.Sound (t : MemToken) : Prop where
  few : (support t.bal).Finite
  nonneg : ∀ account, 0 ≤ t.bal account
  supply : t.supply = finsum t.bal

namespace MemToken

variable {t t' : MemToken} {account recipient : String} {amount : Int}

theorem Sound.bal_le (h : t.Sound) (account : String) : t.bal account ≤ t.supply :=
  h.supply ▸ single_le_finsum account h.few h.nonneg

/-- A payment between two accounts of the token keeps it sound. -/
theorem Sound.pay (h : t.Sound) (word : t.supply < 2 ^ 63) (payer payee : String)
    (nonneg : 0 ≤ amount) (enough : amount ≤ t.bal payer)
    : let bal := update t.bal payer (i64 (t.bal payer - amount))
      ({ t with bal := update bal payee (i64 (bal payee + amount)) } : MemToken).Sound := by
  intro bal
  have held := h.nonneg payer
  have most := h.bal_le payer
  have left : bal = update t.bal payer (t.bal payer - amount) := by
    simp only [bal, i64_of_nonneg (x := t.bal payer - amount) (by omega) (by omega)]
  have few : (support bal).Finite := left ▸ finite_update h.few payer _
  have sum : finsum bal = t.supply - amount := by
    rw [left, finsum_update h.few, h.supply]
    omega
  have nonneg_left (a : String) : 0 ≤ bal a := by
    rw [left]
    by_cases same : a = payer
    · subst same
      simpa using enough
    · simpa [same] using h.nonneg a
  have room : bal payee ≤ finsum bal := single_le_finsum payee few nonneg_left
  have some_left := nonneg_left payee
  rw [i64_of_nonneg (x := bal payee + amount) (by omega) (by omega)]
  refine ⟨finite_update few payee _, fun a => ?_, ?_⟩
  · by_cases same : a = payee
    · subst same
      simp only [update_self]
      omega
    · simpa [same] using nonneg_left a
  · dsimp only
    rw [finsum_update few, sum]
    omega

/-- Tokens are minted where the token works, into its core. -/
theorem mint_eq_some (minted : t.mint amount = some t')
    : t.fail = false ∧ 0 < amount
      ∧ t' = { t with
          bal := update t.bal t.self (i64 (t.bal t.self + amount))
          supply := i64 (t.supply + amount) } := by
  unfold mint at minted
  split at minted
  · cases minted
  · rename_i allowed
    obtain ⟨works, positive⟩ := not_or.mp allowed
    exact ⟨by simpa using works, by omega, (Option.some.inj minted).symm⟩

theorem Sound.mint (h : t.Sound) (minted : t.mint amount = some t')
    (word : t.supply + amount < 2 ^ 63)
    : t'.Sound ∧ t'.supply = t.supply + amount ∧ t'.bal t.self = t.bal t.self + amount := by
  obtain ⟨_, positive, rfl⟩ := mint_eq_some minted
  have held := h.nonneg t.self
  have most := h.bal_le t.self
  rw [i64_of_nonneg (x := t.bal t.self + amount) (by omega) (by omega),
    i64_of_nonneg (x := t.supply + amount) (by omega) (by omega)]
  refine ⟨⟨finite_update h.few t.self _, fun a => ?_, ?_⟩, rfl, update_self ..⟩
  · by_cases same : a = t.self
    · subst same
      simp only [update_self]
      omega
    · simpa [same] using h.nonneg a
  · dsimp only
    rw [finsum_update h.few, h.supply]
    omega

/-- A transfer pays out of the core. -/
theorem transfer_eq_some (sent : t.transfer recipient amount = some t')
    : 0 < amount ∧ amount ≤ t.bal t.self
      ∧ t' = { t with
          bal := update (update t.bal t.self (i64 (t.bal t.self - amount))) recipient
            (i64 (update t.bal t.self (i64 (t.bal t.self - amount)) recipient + amount)) } := by
  unfold transfer at sent
  split at sent
  · cases sent
  · rename_i allowed
    simp only [not_or] at allowed
    exact ⟨by omega, by omega, (Option.some.inj sent).symm⟩

/-- A pull pays into the core. -/
theorem transferFrom_eq_some (pulled : t.transferFrom account amount = some t')
    : 0 < amount ∧ amount ≤ t.bal account
      ∧ t' = { t with
          bal := update (update t.bal account (i64 (t.bal account - amount))) t.self
            (i64 (update t.bal account (i64 (t.bal account - amount)) t.self + amount)) } := by
  unfold transferFrom at pulled
  split at pulled
  · cases pulled
  · rename_i allowed
    simp only [not_or] at allowed
    exact ⟨by omega, by omega, (Option.some.inj pulled).symm⟩

end MemToken

-----------------------------------------------------------------------------------------
-- The two ledgers beside each other
-----------------------------------------------------------------------------------------

/-- (s.Adopting t) says that the books cover the token and what is left on the legacy rows, of
which nothing is nobody's.
-/
structure Store.Adopting (s : Store) (t : MemToken) : Prop where
  sound : t.Sound
  few : (support s.legacyBalance).Finite
  nonneg : ∀ account, 0 ≤ s.legacyBalance account
  nobody : s.legacyBalance "" = 0
  covered : t.supply + finsum s.legacyBalance ≤ supplyOf s.rows

namespace Store

variable {s : Store} {t : MemToken}

theorem Adopting.supply_le (h : s.Adopting t) : t.supply ≤ supplyOf s.rows := by
  have := h.covered
  have : 0 ≤ finsum s.legacyBalance := finsum_nonneg h.nonneg
  omega

/-- What moves an account's row is a mint and a payment of the core, which succeed together; by
cases on whether there is a row to move and the token works.
-/
theorem Adopting.ensureMigrated (h : s.Adopting t) (word : supplyOf s.rows < 2 ^ 63)
    (account : String)
    : (s.ensureMigrated t account).1.Adopting (s.ensureMigrated t account).2.1 := by
  have covered := h.covered
  have part : s.legacyBalance account ≤ finsum s.legacyBalance :=
    single_le_finsum account h.few h.nonneg
  unfold Store.ensureMigrated
  dsimp only
  by_cases empty : s.legacyBalance account ≤ 0
  · rw [if_pos empty]
    exact h
  rw [if_neg empty]
  cases minted : t.mint (s.legacyBalance account) with
  | none => exact h
  | some t₁ =>
      obtain ⟨works, _, shape⟩ := MemToken.mint_eq_some minted
      obtain ⟨sound, supply, inCore⟩ := h.sound.mint minted (by omega)
      have enough : s.legacyBalance account ≤ t₁.bal t₁.self := by
        have held := h.sound.nonneg t.self
        rw [show t₁.self = t.self by rw [shape], inCore]
        omega
      have named : account ≠ "" := fun none => empty (none ▸ h.nobody.le)
      have fails : t₁.fail = false := by rw [shape]; exact works
      dsimp only
      cases sent : t₁.transfer account (s.legacyBalance account) with
      | none =>
          unfold MemToken.transfer at sent
          rw [if_neg (by simp only [fails, named]; simp; omega)] at sent
          cases sent
      | some t₂ =>
          obtain ⟨positive, _, rfl⟩ := MemToken.transfer_eq_some sent
          have gone : ({ s with bal := update s.bal account none } : Store).legacyBalance
              = update s.legacyBalance account 0 := by
            funext a
            by_cases same : a = account
            · subst same
              simp [legacyBalance]
            · simp [legacyBalance, same]
          refine ⟨sound.pay (by omega) t₁.self account positive.le enough, ?_, fun a => ?_, ?_, ?_⟩
          · exact gone ▸ finite_update h.few account 0
          · refine (congrFun gone a).symm ▸ ?_
            by_cases same : a = account
            · simp [same]
            · simpa [same] using h.nonneg a
          · refine (congrFun gone "").trans ?_
            rw [update_of_ne named.symm]
            exact h.nobody
          · have sum : finsum ({ s with bal := update s.bal account none } : Store).legacyBalance
                = finsum s.legacyBalance - s.legacyBalance account := by
              rw [gone, finsum_update h.few]
              omega
            change t₁.supply + finsum ({ s with bal := update s.bal account none } : Store).legacyBalance
              ≤ supplyOf s.rows
            omega

/-- (s.Backed core t) says that the store's token is `t`, with its core at `core`, and that the
books cover it and the legacy rows wherever they sum to a word.
-/
structure Backed (core : String) (s : Store) (t : MemToken) : Prop where
  token : s.token = some t
  isCore : t.self = core
  word : t.supply < 2 ^ 63
  migrated : 0 ≤ s.rows.getAmount .migrated ∧ s.rows.getAmount .migrated < 2 ^ 63
  emitted : 0 ≤ s.rows.getAmount .emitted ∧ s.rows.getAmount .emitted < 2 ^ 63
  adopting : supplyOf s.rows < 2 ^ 63 → s.Adopting t

variable {core : String}

/-- The token's supply, a word, is within the books, whether or not they are one. -/
theorem Backed.supply_le (h : s.Backed core t) : t.supply ≤ supplyOf s.rows := by
  have word := h.word
  by_cases words : supplyOf s.rows < 2 ^ 63
  · exact (h.adopting words).supply_le
  · omega

/-- Rewriting the rows is free while the supply stays. -/
theorem Backed.setRows (h : s.Backed core t) {r : Rows} (same : SameSupply s.rows r)
    : ({ s with rows := r } : Store).Backed core t := by
  have supply : supplyOf r = supplyOf s.rows := by
    unfold supplyOf
    rw [same.migrated, same.emitted]
  refine { h with
    migrated := same.migrated ▸ h.migrated
    emitted := same.emitted ▸ h.emitted
    adopting := fun words => ?_ }
  have adopting := h.adopting (supply ▸ words)
  exact { adopting with covered := supply ▸ adopting.covered }

/-- A token that only pays inside itself stays backed. -/
theorem Backed.pay (h : s.Backed core t) {t' : MemToken} (isCore : t'.self = t.self)
    (supply : t'.supply = t.supply) (sound : t.supply < 2 ^ 63 → t.Sound → t'.Sound)
    : ({ s with token := some t' } : Store).Backed core t' where
  token := rfl
  isCore := isCore.trans h.isCore
  word := supply ▸ h.word
  migrated := h.migrated
  emitted := h.emitted
  adopting words :=
    have adopting := h.adopting words
    { adopting with
      sound := sound h.word adopting.sound
      covered := supply ▸ adopting.covered }

theorem Backed.transfer (h : s.Backed core t) {recipient : String} {amount : Int} {t' : MemToken}
    (sent : t.transfer recipient amount = some t')
    : ({ s with token := some t' } : Store).Backed core t' := by
  obtain ⟨positive, enough, rfl⟩ := MemToken.transfer_eq_some sent
  exact h.pay rfl rfl fun word sound => sound.pay word t.self recipient positive.le enough

theorem Backed.transferFrom (h : s.Backed core t) {account : String} {amount : Int}
    {t' : MemToken} (pulled : t.transferFrom account amount = some t')
    : ({ s with token := some t' } : Store).Backed core t' := by
  obtain ⟨positive, enough, rfl⟩ := MemToken.transferFrom_eq_some pulled
  exact h.pay rfl rfl fun word sound => sound.pay word account t.self positive.le enough

/-- Moving a row keeps the store backed; what the token becomes is a word in any case. -/
theorem Backed.ensureMigrated (h : s.Backed core t) (account : String)
    : (s.ensureMigrated t account).1.Backed core (s.ensureMigrated t account).2.1 := by
  have rows := s.ensureMigrated_rows t account
  have kept : (s.ensureMigrated t account).1.token = some (s.ensureMigrated t account).2.1
      ∧ (s.ensureMigrated t account).2.1.self = t.self
      ∧ (s.ensureMigrated t account).2.1.supply < 2 ^ 63 := by
    unfold Store.ensureMigrated
    dsimp only
    split
    · exact ⟨h.token, rfl, h.word⟩
    split
    · exact ⟨h.token, rfl, h.word⟩
    · rename_i t₁ minted
      obtain ⟨_, _, rfl⟩ := MemToken.mint_eq_some minted
      split
      · exact ⟨rfl, rfl, (i64_mem _).upper⟩
      · rename_i t₂ sent
        obtain ⟨_, _, rfl⟩ := MemToken.transfer_eq_some sent
        exact ⟨rfl, rfl, (i64_mem _).upper⟩
  obtain ⟨token, isCore, word⟩ := kept
  refine ⟨token, isCore.trans h.isCore, word, rows ▸ h.migrated, rows ▸ h.emitted, fun words => ?_⟩
  rw [rows] at words
  exact (h.adopting words).ensureMigrated words account

theorem Backed.credit (h : s.Backed core t) (account : String) (amt : Int)
    : ∃ t', (s.credit account amt).1.Backed core t' := by
  unfold Store.credit
  split
  · exact ⟨t, h⟩
  split
  · exact ⟨t, h⟩
  rw [h.token]
  dsimp only
  have moved := h.ensureMigrated account
  split
  · rename_i s₁ t₁ refused
    rw [refused] at moved
    exact ⟨t₁, moved⟩
  · rename_i s₁ t₁ ready
    rw [ready] at moved
    split
    · exact ⟨t₁, moved⟩
    · rename_i t₂ sent
      have noted := noteAccount_supply s₁.rows account
      exact ⟨t₂, (moved.transfer sent).setRows ⟨noted.1, noted.2,
        noteAccount_seen s₁.rows account⟩⟩

theorem Backed.debit (h : s.Backed core t) (account : String) (amt : Int)
    : ∃ t', (s.debit account amt).1.Backed core t' := by
  unfold Store.debit
  split
  · exact ⟨t, h⟩
  rw [h.token]
  dsimp only
  have moved := h.ensureMigrated account
  split
  · rename_i s₁ t₁ refused
    rw [refused] at moved
    exact ⟨t₁, moved⟩
  · rename_i s₁ t₁ ready
    rw [ready] at moved
    split
    · exact ⟨t₁, moved⟩
    split
    · exact ⟨t₁, moved⟩
    · rename_i t₂ pulled
      exact ⟨t₂, moved.transferFrom pulled⟩

/-- A balance outside the core is the token's and the row's together, which a move adds up. -/
theorem ensureMigrated_balance (token : s.token = some t) (account : String) {other : String}
    (away : other ≠ t.self)
    : (s.ensureMigrated t account).1.balance other = s.balance other := by
  unfold Store.ensureMigrated
  dsimp only
  split
  · rfl
  split
  · rfl
  · rename_i t₁ minted
    obtain ⟨_, _, rfl⟩ := MemToken.mint_eq_some minted
    split
    · simp [balance, legacyBalance, token, away]
    · rename_i t₂ sent
      obtain ⟨_, _, rfl⟩ := MemToken.transfer_eq_some sent
      by_cases same : other = account
      · subst same
        simp [balance, legacyBalance, token, away]
      · simp [balance, legacyBalance, token, away, same]

/-- A batch moves its rows one by one, by induction on the accounts. -/
theorem Backed.migrateLedger (h : s.Backed core t) (accounts : List String)
    : (∃ t', (s.migrateLedger accounts).1.Backed core t')
      ∧ ∀ a ≠ core, (s.migrateLedger accounts).1.balance a = s.balance a := by
  have loop (moved : Nat)
      : (∃ t', (migrateLedger.go s moved accounts).1.Backed core t')
        ∧ ∀ a ≠ core, (migrateLedger.go s moved accounts).1.balance a = s.balance a := by
    induction accounts generalizing s t moved with
    | nil => exact ⟨⟨t, h⟩, fun _ _ => rfl⟩
    | cons account rest ih =>
        unfold migrateLedger.go
        split
        · exact ih h moved
        split
        · exact ih h moved
        rw [h.token]
        dsimp only
        have kept := h.ensureMigrated account
        have balances (a : String) (away : a ≠ core) :=
          ensureMigrated_balance h.token account (h.isCore ▸ away)
        split
        · rename_i s₁ t₁ refused
          rw [refused] at kept balances
          exact ⟨⟨t₁, kept⟩, balances⟩
        · rename_i s₁ t₁ ready
          rw [ready] at kept balances
          obtain ⟨backed, same⟩ := ih kept (moved + 1)
          exact ⟨backed, fun a away => (same a away).trans (balances a away)⟩
  unfold Store.migrateLedger
  rw [h.token]
  exact loop 0

/-- The missing backing may be minted once no row is left to move. -/
theorem Backed.reconcileFloat (h : s.Backed core t)
    (last : (∀ account, s.legacyBalance account ≤ 0) ∨ supplyOf s.rows ≤ t.supply)
    : (∃ t', s.reconcileFloat.1.Backed core t')
      ∧ ∀ a ≠ core, s.reconcileFloat.1.balance a = s.balance a := by
  have idle : (∃ t', s.Backed core t') ∧ ∀ a ≠ core, s.balance a = s.balance a :=
    ⟨⟨t, h⟩, fun _ _ => rfl⟩
  unfold Store.reconcileFloat
  rw [h.token]
  dsimp only
  cases sum : addAmount (s.rows.getAmount .migrated) (s.rows.getAmount .emitted) with
  | none => exact idle
  | some books =>
      obtain ⟨rfl, fits⟩ := addAmount_eq_some h.migrated.1 h.emitted.1 h.migrated.2 h.emitted.2 sum
      dsimp only
      split
      · exact idle
      · rename_i short
        cases minted : t.mint (i64 (s.rows.getAmount .migrated + s.rows.getAmount .emitted
            - t.supply)) with
        | none => exact idle
        | some t' =>
            have adopting := h.adopting fits
            have supply_nonneg : 0 ≤ t.supply := by
              rw [adopting.sound.supply]
              exact finsum_nonneg adopting.sound.nonneg
            rw [i64_of_nonneg (by omega) (by omega)] at minted
            obtain ⟨sound, supply, _⟩ := adopting.sound.mint minted (by omega)
            obtain ⟨_, _, shape⟩ := MemToken.mint_eq_some minted
            have moved : finsum s.legacyBalance = 0 := by
              refine finsum_eq_zero_of_forall_eq_zero fun account => ?_
              rcases last with rows | level
              · exact le_antisymm (rows account) (adopting.nonneg account)
              · unfold supplyOf at level
                omega
            refine ⟨⟨t', rfl, by rw [shape]; exact h.isCore, by rw [shape]; exact (i64_mem _).upper,
              h.migrated, h.emitted, fun _ => { adopting with sound, covered := ?_ }⟩,
              fun a away => ?_⟩
            · change t'.supply + finsum s.legacyBalance
                ≤ s.rows.getAmount .migrated + s.rows.getAmount .emitted
              omega
            · have other : a ≠ t.self := fun same => away (same.trans h.isCore)
              simp [balance, legacyBalance, h.token, shape, other]

/-- Issuance raises the books and the token alike, or the books beyond a word. -/
theorem Backed.mintSupply (h : s.Backed core t) {key : AmountKey} {delta : Int}
    (counter : key = .migrated ∨ key = .emitted) (word : delta < 2 ^ 63)
    : ∃ t', (s.mintSupply key delta).1.Backed core t' := by
  have held : 0 ≤ s.rows.getAmount key ∧ s.rows.getAmount key < 2 ^ 63 := by
    rcases counter with rfl | rfl
    · exact h.migrated
    · exact h.emitted
  unfold Store.mintSupply
  split
  · exact ⟨t, h⟩
  split
  · exact ⟨t, h⟩
  cases sum : addAmount (s.rows.getAmount key) delta with
  | none => exact ⟨t, h⟩
  | some next =>
      obtain ⟨rfl, fits⟩ := addAmount_eq_some held.1 (by omega) held.2 word sum
      rw [h.token]
      dsimp only
      cases minted : t.mint delta with
      | none => exact ⟨t, h⟩
      | some t' =>
          have raised : supplyOf (s.rows.setAmount key (s.rows.getAmount key + delta))
              = supplyOf s.rows + delta := by
            unfold supplyOf
            rcases counter with rfl | rfl <;> simp <;> omega
          have counters (k : AmountKey) (known : 0 ≤ s.rows.getAmount k ∧ s.rows.getAmount k < 2 ^ 63)
              : 0 ≤ (s.rows.setAmount key (s.rows.getAmount key + delta)).getAmount k
                ∧ (s.rows.setAmount key (s.rows.getAmount key + delta)).getAmount k < 2 ^ 63 := by
            have self (v : Int) : (s.rows.setAmount k v).getAmount k = v := by simp
            by_cases same : k = key
            · subst same
              rw [self]
              omega
            · simpa [same] using known
          obtain ⟨_, positive, shape⟩ := MemToken.mint_eq_some minted
          refine ⟨t', rfl, by rw [shape]; exact h.isCore, by rw [shape]; exact (i64_mem _).upper,
            counters _ h.migrated, counters _ h.emitted, fun words => ?_⟩
          dsimp only at words
          rw [raised] at words
          have adopting := h.adopting (by omega)
          obtain ⟨sound, supply, _⟩ := adopting.sound.mint minted (by
            have := adopting.supply_le
            omega)
          refine { adopting with sound, covered := ?_ }
          have covered := adopting.covered
          change t'.supply + finsum s.legacyBalance ≤ supplyOf (s.rows.setAmount key _)
          omega

end Store

section Worlds

variable {A : Type} [Assets A] {core : String} {o : Origin}

/-- Every call that an operation may make keeps the token backed, by cases on the call. -/
theorem serve_backed (c : Call) (w : World A) (backed : ∃ t, w.store.Backed core t)
    (met : callerNeeds o c w.rows)
    : ∃ t, (serve c w).1.store.Backed core t := by
  obtain ⟨t, h⟩ := backed
  cases c with
  | setRows r => exact ⟨t, h.setRows met⟩
  | credit account amt => exact h.credit account amt
  | debit account amt => exact h.debit account amt
  | mintSupply key delta => exact h.mintSupply met.1 met.2
  | rows => exact ⟨t, h⟩
  | balance account => exact ⟨t, h⟩
  | draw amount => exact ⟨t, h⟩
  | transferHbd recipient amount => exact ⟨t, h⟩

/-- Reconciling the float comes last: no row is left to move, or the supply is at the books. -/
def ReconcilesLast (w : World A) (q : Request) : Prop :=
  q.action = .reconcileFloat → (∀ account, w.store.legacyBalance account ≤ 0)
    ∨ ∀ t, w.store.token = some t → supplyOf w.rows ≤ t.supply

/-- The operations that adopt the token. -/
def Action.adopts : Action → Bool
  | .migrateLedger _ | .reconcileFloat => true
  | _ => false

/-- What is promised of the token at a request: its supply is within the books before and after,
and adopting it changes no balance outside the core.
-/
structure AdoptionKept (core : String) (w : World A) (q : Request) : Prop where
  before : ∀ t, w.store.token = some t → t.supply ≤ supplyOf w.rows
  after : ∀ t, (q.exec w).1.store.token = some t → t.supply ≤ supplyOf (q.exec w).1.rows
  balances : q.action.adopts = true
    → ∀ a ≠ core, (q.exec w).1.store.balance a = w.store.balance a

/-- Every request keeps the token backed, by cases on whether it has a program. -/
theorem Request.exec_backed {q : Request} {w : World A} (backed : ∃ t, w.store.Backed core t)
    (last : ReconcilesLast w q)
    : (∃ t, (q.exec w).1.store.Backed core t) ∧ (q.action.adopts = true
      → ∀ a ≠ core, (q.exec w).1.store.balance a = w.store.balance a) := by
  have executed : (∃ t, (q.action.exec q.ctx w).1.store.Backed core t)
      ∧ (q.action.adopts = true
        → ∀ a ≠ core, (q.action.exec q.ctx w).1.store.balance a = w.store.balance a) := by
    cases program : q.action.program q.ctx with
    | some p =>
        rw [Action.exec_of_program program]
        refine ⟨(wp_run (fun c w kept met => ⟨serve_backed c w kept met, serve_rowsMay c w,
          nofun⟩) (Action.program_moves (q.unsure w) program) backed).1, fun adopts => ?_⟩
        cases asked : q.action <;> rw [asked] at adopts program <;> cases adopts <;> cases program
    | none =>
        obtain ⟨t, h⟩ := backed
        cases asked : q.action <;> rw [asked] at program <;> cases program
        case none.migrateLedger.refl accounts =>
          obtain ⟨kept, balances⟩ := h.migrateLedger accounts
          exact ⟨kept, fun _ => balances⟩
        case none.reconcileFloat.refl =>
          obtain ⟨kept, balances⟩ := h.reconcileFloat ((last asked).imp id fun level =>
            level t h.token)
          exact ⟨kept, fun _ => balances⟩
  unfold Request.exec
  dsimp only
  split
  · exact ⟨backed, fun _ _ _ => rfl⟩
  · exact executed

/-- (s.Conserves) says that the legacy rows are within the books, which are words. -/
structure Store.Conserves (s : Store) : Prop where
  few : (support s.legacyBalance).Finite
  nonneg : ∀ account, 0 ≤ s.legacyBalance account
  covered : finsum s.legacyBalance ≤ supplyOf s.rows
  migrated : 0 ≤ s.rows.getAmount .migrated ∧ s.rows.getAmount .migrated < 2 ^ 63
  emitted : 0 ≤ s.rows.getAmount .emitted ∧ s.rows.getAmount .emitted < 2 ^ 63

/-- From any legacy state that conserves the supply, with a token of which nothing is issued:
however operations, batches and reconciliations follow each other, the token's supply stays within
the books and adopting it changes no balance outside the core, if no row is nobody's and reconciling
comes last.
-/
theorem token_adoption_covered {w : World A} {t : MemToken} (token : w.store.token = some t)
    (sound : t.Sound) (unissued : t.supply = 0) (conserves : w.store.Conserves)
    (nobody : w.store.legacyBalance "" = 0) {now : Nat} {requests : List Request}
    (run : Run ReconcilesLast w now requests)
    : Along (AdoptionKept t.self) w requests := by
  have start : w.store.Backed t.self t :=
    ⟨token, rfl, by omega, conserves.migrated, conserves.emitted, fun _ => ⟨sound, conserves.few,
      conserves.nonneg, nobody, by
        have := conserves.covered
        omega⟩⟩
  refine run.along (I := fun _ w => ∃ t', w.store.Backed t.self t') ?_ ⟨t, start⟩
  rintro w now q ⟨t₁, backed⟩ later last
  obtain ⟨⟨t₂, kept⟩, balances⟩ := Request.exec_backed ⟨t₁, backed⟩ last
  refine ⟨⟨t₂, kept⟩, fun t' there => ?_, fun t' there => ?_, balances⟩
  · obtain rfl := Option.some.inj (backed.token.symm.trans there)
    exact backed.supply_le
  · obtain rfl := Option.some.inj (kept.token.symm.trans there)
    exact kept.supply_le

end Worlds

-----------------------------------------------------------------------------------------
-- One row to move
-----------------------------------------------------------------------------------------

/-- A legacy state of one account that holds all that was ever credited, beside a fresh token. -/
def oneRow : Store where
  rows := Rows.empty.setAmount .migrated 1000
  bal := update (fun _ => none) "hive:a" (some 1000)
  token := some (.new "contract:core")

theorem oneRow_conserves : oneRow.Conserves := by
  have balances : oneRow.legacyBalance = update (fun _ => 0) "hive:a" 1000 := by
    funext a
    by_cases same : a = "hive:a"
    · subst same
      rfl
    · simp [oneRow, Store.legacyBalance, same]
  have none_held : (support fun _ : String => (0 : Int)).Finite := by simp
  have sum : finsum oneRow.legacyBalance = 1000 := by
    rw [balances, finsum_update none_held]
    simp
  refine ⟨balances ▸ finite_update none_held _ _, fun a => ?_, sum ▸ by decide, by decide,
    by decide⟩
  rw [balances]
  by_cases same : a = "hive:a" <;> simp [same]

/-- Its row is moved, and then nothing is left to mint. -/
theorem token_adoption_covered_one_row
    : Along (AdoptionKept "contract:core") (⟨oneRow, MemAssets.new⟩ : World MemAssets)
      [⟨{ sender := "hive:owner", height := 1 }, .migrateLedger ["hive:a"], true⟩,
        ⟨{ sender := "hive:owner", height := 2 }, .reconcileFloat, true⟩,
        ⟨{ sender := "hive:a", height := 3 }, .transfer "hive:b" 10, true⟩] := by
  have unheld : (MemToken.new "contract:core").Sound :=
    ⟨by simp [MemToken.new], fun _ => le_rfl, by simp [MemToken.new]⟩
  have run : Run ReconcilesLast (⟨oneRow, MemAssets.new⟩ : World MemAssets) 0
      [⟨{ sender := "hive:owner", height := 1 }, .migrateLedger ["hive:a"], true⟩,
        ⟨{ sender := "hive:owner", height := 2 }, .reconcileFloat, true⟩,
        ⟨{ sender := "hive:a", height := 3 }, .transfer "hive:b" 10, true⟩] := by
    refine ⟨by decide, nofun, by decide, fun _ => .inr ?_, by decide, nofun, trivial⟩
    intro t token
    cases token
    decide
  exact token_adoption_covered rfl unheld rfl oneRow_conserves rfl run

/-- Reconciled before it is moved, the row is minted a second time: the token's supply is twice the
books.
-/
theorem token_adoption_doubled
    : let w : World MemAssets := ⟨oneRow, MemAssets.new⟩
      let requests : List Request :=
        [⟨{ sender := "hive:owner", height := 1 }, .reconcileFloat, true⟩,
          ⟨{ sender := "hive:owner", height := 2 }, .migrateLedger ["hive:a"], true⟩]
      w.store.Conserves ∧ (results w requests).all Result.ok = true
        ∧ supplyOf (after w requests).rows = 1000
        ∧ (after w requests).store.token.map MemToken.supply = some 2000 :=
  ⟨oneRow_conserves, by decide +kernel⟩

end LasseCash.State
