import Mathlib.Algebra.Order.BigOperators.Group.List
import LasseCash.State.MigrationBooks
import LasseCash.State.ContentHistory

/-! The migration's operations implement its events: a success moves the books by an event
whose guard was met, and no call of them touches the past or the content.
-/

namespace LasseCash.State

open Engine MachineInt Function Program

/-- The books as the rows hold them. -/
@[simps]
def booksOf (r : Rows) : Books where
  supply := r.getAmount .migrated
  total := r.getAmount .migTotal
  claimed := r.getAmount .migClaimed
  burned := r.getAmount .migBurn
  done := r.migDone
  root := r.migRoot
  swept := r.migSwept

/-- The figures are non-negative words, and nothing is claimed before a snapshot. -/
structure Books.Words (m : Books) : Prop where
  supply_nonneg : 0 ≤ m.supply
  supply_lt : m.supply < 2 ^ 63
  claimed_nonneg : 0 ≤ m.claimed
  claimed_le : m.claimed ≤ m.total
  total_lt : m.total < 2 ^ 63
  uncommitted : m.root = none → m.claimed = 0

/-- (Besides r r') says that `r'` has the past and the content of `r`, and that its figures
are words if those of `r` are.
-/
structure Besides (r r' : Rows) : Prop where
  evolves : Evolves r r'
  content : SameContent r r'
  words : (booksOf r).Words → (booksOf r').Words

/-- (MigrationStep now e r res r') says that an operation at `now`, going from `r` to `r'`,
keeps the past and the content, and that its success is the event `e`.
-/
structure MigrationStep (now : Nat) (e : Event) (r : Rows) (res : Result) (r' : Rows) : Prop where
  besides : Besides r r'
  admitted : res.ok = true → (booksOf r).Admits (claimDeadlineHeight r) now e
  applied : res.ok = true → booksOf r' = (booksOf r).apply e

section Composition

variable {r r₁ r' : Rows} {now : Nat} {e : Event}

theorem SameMigration.books (h : SameMigration r r') : booksOf r' = booksOf r := by
  simp only [booksOf, h.migrated, h.total, h.claimed, h.burned, h.done, h.root, h.swept]

/-- Writes to the migration's rows keep the past: it does not speak of them. -/
theorem Evolves.besides (count : r'.count = r.count) (init : r'.init = r.init)
    (mint : r'.mint = r.mint) (expiry : r'.expiry = r.expiry)
    (emitted : r'.getAmount .emitted = r.getAmount .emitted)
    : Evolves r r' where
  genesis := congrArg (countAt · .genesis) count
  init := init
  calendar c := by
    refine ⟨?_, ?_, ?_⟩
    · rw [Rows.getU64, genesisHeight, accruedDays, Rows.getU64, Rows.getU64, count]
      exact c.settled
    · rw [Rows.getU64, count]
      exact c.word
    · rw [emitted, accruedDays, Rows.getU64, count]
      exact c.emitted
  chunks small key entries there := small key entries (expiry ▸ there)
  days := (congrArg (countAt · .accDay) count).ge
  checkpoint day _ := congrArg (countAt · (.accAt day)) count
  mintSeq account := (congrArg (countAt · (.mintSeq account)) count).ge
  mint account id m _ found := ⟨m, mint ▸ found, .refl m⟩

theorem Besides.trans (h : Besides r r₁) (h' : Besides r₁ r') : Besides r r' :=
  ⟨h.evolves.trans h'.evolves, h.content.trans h'.content, h'.words ∘ h.words⟩

theorem Steady.besides (h : Steady r r') : Besides r r' :=
  ⟨h.evolves, h.content, fun words => h.migration.books.symm ▸ words⟩

/-- A refusal, whatever happened besides. -/
theorem Besides.refused (h : Besides r r') (reason : String)
    : MigrationStep now e r (fail reason) r' :=
  ⟨h, nofun, nofun⟩

/-- The deadline is derived from genesis alone. -/
theorem claimDeadline_eq (same : genesisHeight r' = genesisHeight r)
    : claimDeadlineHeight r' = claimDeadlineHeight r := by
  rw [claimDeadlineHeight, same, claimDeadlineHeight]

/-- What the position check accepts is exact and positive. -/
theorem position_exact {liquid staked : Int} (hl : liquid < 2 ^ 63) (hs : staked < 2 ^ 63)
    (good : ¬badPosition liquid staked = true)
    : 0 ≤ liquid ∧ 0 ≤ staked ∧ 0 < liquid + staked ∧ liquid + staked < 2 ^ 63
      ∧ i64 (liquid + staked) = liquid + staked := by
  unfold badPosition i64 at good
  simp only [Bool.or_eq_true, decide_eq_true_eq, not_or, not_lt, not_le] at good
  unfold i64
  omega

end Composition

variable {r : Rows}

/-- Raising the supply shows in that figure alone. -/
theorem booksOf_setMigrated (supply : Int)
    : booksOf (r.setAmount .migrated supply) = { booksOf r with supply } := by
  simp [booksOf]

/-- Minting migrated supply adds an amount exactly or is refused. -/
theorem mintSupply_migrated {delta : Int} {Q : Bool → Rows → Prop} (words : (booksOf r).Words)
    (nonneg : 0 ≤ delta) (small : delta < 2 ^ 63) (refused : Q false r)
    (minted : ∀ r', Besides r r'
      → booksOf r' = { booksOf r with supply := (booksOf r).supply + delta }
      → Q true r')
    : (mintSupply .migrated delta).Always rowsMay Q r := by
  rw [always_mintSupply]
  refine ⟨refused, fun zero => minted r (Steady.refl r).besides (by rw [zero, add_zero]), ?_⟩
  intro _ next sum
  obtain ⟨rfl, fits⟩ := addAmount_eq_some words.supply_nonneg nonneg words.supply_lt small sum
  refine minted _ ⟨.besides rfl rfl rfl rfl (by simp), ⟨rfl, rfl, rfl⟩, fun _ => ?_⟩
    (booksOf_setMigrated _)
  rw [booksOf_setMigrated]
  exact { words with
    supply_nonneg := add_nonneg words.supply_nonneg nonneg
    supply_lt := fits }

/-- Filing a receipt touches neither the past nor the content. -/
theorem setMigDone_besides (account : String) (record : MigrationRecord)
    : Besides r (r.setMigDone account record) :=
  ⟨.besides rfl rfl rfl rfl rfl, ⟨rfl, rfl, rfl⟩, fun words => { words with }⟩

/-- Filing a receipt shows in the receipts alone. -/
theorem booksOf_setMigDone (account : String) (record : MigrationRecord)
    : booksOf (r.setMigDone account record)
      = { booksOf r with done := update (booksOf r).done account (some record) } :=
  rfl

-----------------------------------------------------------------------------------------
-- The snapshot
-----------------------------------------------------------------------------------------

/-- Committing a snapshot, with its burned part minted. -/
theorem setSnapshot_step (now : Nat) (root : String) (q b : Int) (hq : q < 2 ^ 63)
    (hb : b < 2 ^ 63) (words : (booksOf r).Words)
    : (setSnapshot root q b).Always rowsMay (MigrationStep now (.commit root q b) r) r := by
  have untouched (reason : String) : MigrationStep now (.commit root q b) r (fail reason) r :=
    (Steady.refl r).besides.refused reason
  simp only [setSnapshot, always_bind, always_rows, always_ite, always_pure, always_setRows]
  refine ⟨fun _ => untouched _, fun _ => ⟨fun _ => untouched _, fun _ => ⟨fun _ => untouched _,
    fun absent => ⟨fun _ => untouched _, fun _ => ⟨fun _ => untouched _, fun totals =>
      ⟨fun _ => untouched _, fun cap => ?_⟩⟩⟩⟩⟩⟩
  simp only [not_or, not_lt, not_le] at totals
  obtain ⟨qNonneg, bNonneg, positive⟩ := totals
  have whole : i64 (q + b) = q + b ∧ 0 < q + b := by
    unfold i64 at positive ⊢
    omega
  have admitted : (booksOf r).Admits (claimDeadlineHeight r) now (.commit root q b) := by
    refine ⟨by simpa using absent, qNonneg, bNonneg, whole.2, ?_⟩
    simpa [whole.1] using cap
  have books : booksOf (commitSnapshot r root q b)
      = { booksOf r with root := some root, total := q, burned := b } := by
    simp [booksOf, commitSnapshot]
  have unclaimed : r.getAmount .migClaimed = 0 := words.uncommitted (by simpa using absent)
  have committed : Besides r (commitSnapshot r root q b) := by
    refine ⟨.besides rfl rfl rfl rfl (by simp [commitSnapshot]), ⟨rfl, rfl, rfl⟩, fun _ => ?_⟩
    rw [books]
    exact ⟨words.supply_nonneg, words.supply_lt, words.claimed_nonneg,
      (show (booksOf r).claimed = 0 from unclaimed) ▸ qNonneg, hq, (by rintro ⟨⟩)⟩
  refine ⟨fun some_burn => ?_, fun no_burn => ?_⟩
  · refine mintSupply_migrated (committed.words words) bNonneg hb
      ⟨fun _ => committed.refused _, by simp⟩ fun r₁ minted supply => ?_
    refine ⟨by simp, fun _ => ?_⟩
    refine always_mono (fun paid r' burned => ?_) (burn_steady b)
    have kept := (committed.trans minted).trans burned.besides
    refine ⟨fun _ => kept.refused _, fun _ => ⟨kept, fun _ => admitted, fun _ => ?_⟩⟩
    rw [burned.migration.books, supply, books]
    rfl
  · have none_burned : b = 0 := by omega
    refine ⟨committed, fun _ => admitted, fun _ => ?_⟩
    rw [books]
    simp [Books.apply, none_burned]

-----------------------------------------------------------------------------------------
-- Claims
-----------------------------------------------------------------------------------------

theorem creditIfAny_steady (account : String) (amt : Int)
    : (creditIfAny account amt).Always rowsMay (fun _ r' => Steady r r') r := by
  simp only [creditIfAny, always_ite, always_pure]
  exact ⟨fun _ => credit_steady account amt, fun _ => .refl r⟩

/-- A claim leaves its figure and its receipt. -/
theorem recordClaim_books (account : String) (liquid staked claimed recycled : Int)
    : booksOf (recordClaim r account liquid staked claimed recycled)
      = { booksOf r with
          claimed
          done := update (booksOf r).done account (some (.migrated liquid staked)) } := by
  have recycled := ((Aside.refl r).recycle recycled).sameMigration.books
  have fields := Books.mk.inj recycled
  simp_all [booksOf, recordClaim]

/-- Stake enters a claim steadily, as a mint or as a settlement. -/
theorem claimStake_steady (ctx : Ctx) (staked : Int)
    : (claimStake ctx staked).Always rowsMay (fun _ r' => Steady r r') r := by
  simp only [claimStake, always_bind, always_rows]
  cases newMigrationMint ctx.sender staked (genesisHeight r) with
  | none => exact .refl r
  | some m =>
      simp only [always_ite, always_bind, always_pure]
      refine ⟨fun _ => ?_, fun _ => .refl r⟩
      refine always_mono (fun b r₁ walked => ⟨fun _ => walked.steady, fun _ => ?_⟩)
        (accrue_walked ctx)
      refine always_mono (fun ids r₂ registered => ?_)
        (registerMints_steady ctx.height [m] (.inl ctx.height_lt))
      cases ids <;> exact walked.steady.trans registered

/-- A claim within the snapshot keeps everything besides. -/
theorem recordClaim_besides (account : String) (liquid staked claimed recycled : Int)
    (committed : r.migRoot ≠ none) (nonneg : 0 ≤ claimed) (within : claimed ≤ r.getAmount .migTotal)
    : Besides r (recordClaim r account liquid staked claimed recycled) := by
  refine ⟨((Aside.refl r).recycle recycled).evolves.trans
      (.besides rfl rfl rfl rfl (by simp [recordClaim])),
    ((Aside.refl r).recycle recycled).sameContent.trans ⟨rfl, rfl, rfl⟩, fun words => ?_⟩
  rw [recordClaim_books]
  exact { words with
    claimed_nonneg := nonneg
    claimed_le := within
    uncommitted := fun none => absurd none committed }

theorem claimMigration_step (ctx : Ctx) (liquid staked : Int) (proofHex : List String)
    (hl : liquid < 2 ^ 63) (hs : staked < 2 ^ 63) (words : (booksOf r).Words)
    : (claimMigration ctx liquid staked proofHex).Always rowsMay
      (MigrationStep ctx.height (.claim ctx.sender liquid staked) r) r := by
  have untouched (reason : String)
      : MigrationStep ctx.height (.claim ctx.sender liquid staked) r (fail reason) r :=
    (Steady.refl r).besides.refused reason
  simp only [claimMigration, always_bind, always_rows, always_ite, always_pure]
  refine ⟨fun _ => untouched _, fun _ => ?_⟩
  cases committed : r.migRoot with
  | none => exact untouched _
  | some rootHex =>
      simp only [always_ite, always_pure]
      refine ⟨fun _ => untouched _, fun early => ⟨fun _ => untouched _, fun _ => ⟨fun _ =>
        untouched _, fun good => ⟨fun _ => untouched _, fun fresh => ⟨fun _ => untouched _,
          fun _ => ?_⟩⟩⟩⟩⟩
      obtain ⟨lNonneg, sNonneg, positive, fits, whole⟩ := position_exact hl hs good
      rw [whole]
      cases sum : addAmount (r.getAmount .migClaimed) (liquid + staked) with
      | none => exact untouched _
      | some next =>
          simp only [always_bind, always_ite, always_pure]
          refine ⟨fun _ => untouched _, fun room => ?_⟩
          have claimed : next = r.getAmount .migClaimed + (liquid + staked) :=
            (addAmount_eq_some words.claimed_nonneg positive.le
              (words.claimed_le.trans_lt words.total_lt) fits sum).1
          refine always_mono (fun stake r₁ entered => ?_) (claimStake_steady ctx staked)
          rcases stake with _ | ⟨toOwner, recycled⟩
          · exact entered.besides.refused _
          have admitted : (booksOf r).Admits (claimDeadlineHeight r) ctx.height
              (.claim ctx.sender liquid staked) := by
            refine ⟨by simp [committed], not_le.mp early, by simpa using fresh, lNonneg, sNonneg,
              positive, ?_⟩
            rw [booksOf_claimed, ← claimed]
            exact not_lt.mp room
          simp only [always_bind, always_ite, always_pure]
          refine mintSupply_migrated (entered.besides.words words) positive.le fits
            ⟨fun _ => entered.besides.refused _, by simp⟩ fun r₂ minted supply => ?_
          refine ⟨by simp, fun _ => ?_⟩
          refine always_mono (fun paid r₃ credited => ?_) (creditIfAny_steady ctx.sender _)
          have kept := (entered.besides.trans minted).trans credited.besides
          have books : booksOf r₃
              = { booksOf r with supply := (booksOf r).supply + (liquid + staked) } := by
            rw [credited.migration.books, supply, entered.migration.books]
          have root : r₃.migRoot = r.migRoot := congrArg Books.root books
          have total : r₃.getAmount .migTotal = r.getAmount .migTotal :=
            congrArg Books.total books
          have recorded := recordClaim_besides (r := r₃) ctx.sender liquid staked next recycled
            (by simp [root, committed]) (claimed ▸ add_nonneg words.claimed_nonneg positive.le)
            (total ▸ not_lt.mp room)
          simp only [always_modify]
          refine ⟨fun _ => kept.refused _, fun _ => ⟨kept.trans recorded, fun _ => admitted,
            fun _ => ?_⟩⟩
          rw [recordClaim_books, books, claimed]
          rfl

/-- Recording a burned leaf files its receipt only. -/
theorem recordBurn_step (now : Nat) (account : String) (liquid staked : Int)
    (proofHex : List String)
    : (recordBurn account liquid staked proofHex).Always rowsMay
      (MigrationStep now (.record account liquid staked) r) r := by
  have untouched (reason : String)
      : MigrationStep now (.record account liquid staked) r (fail reason) r :=
    (Steady.refl r).besides.refused reason
  simp only [recordBurn, always_bind, always_rows]
  cases committed : r.migRoot with
  | none => exact untouched _
  | some rootHex =>
      simp only [always_bind, always_ite, always_pure, always_setRows]
      refine ⟨fun _ => untouched _, fun _ => ⟨fun _ => untouched _, fun fresh => ⟨fun _ =>
        untouched _, fun _ => ?_⟩⟩⟩
      refine ⟨setMigDone_besides .., fun _ => ⟨by simp [committed], ?_⟩, fun _ => rfl⟩
      simpa using fresh

/-- Marking the sweep shows in that flag alone. -/
theorem booksOf_setMigSwept : booksOf r.setMigSwept = { booksOf r with swept := true } :=
  rfl

/-- Sweeping mints the remainder, whether or not there is one. -/
theorem sweepUnclaimed_step (ctx : Ctx) (words : (booksOf r).Words)
    : (sweepUnclaimed ctx).Always rowsMay (MigrationStep ctx.height .sweep r) r := by
  have untouched (reason : String) : MigrationStep ctx.height .sweep r (fail reason) r :=
    (Steady.refl r).besides.refused reason
  simp only [sweepUnclaimed, always_bind, always_rows, always_ite, always_pure]
  refine ⟨fun _ => untouched _, fun committed => ⟨fun _ => untouched _, fun late => ⟨fun _ =>
    untouched _, fun unswept => ?_⟩⟩⟩
  refine always_mono (fun b r₁ walked => ?_) (accrue_walked ctx)
  have entered := walked.steady
  have admitted : (booksOf r).Admits (claimDeadlineHeight r) ctx.height .sweep :=
    ⟨by simpa using committed, not_lt.mp late, by simpa using unswept⟩
  have marked (r₂ : Rows) (kept : Besides r r₂) : Besides r r₂.setMigSwept :=
    kept.trans ⟨.besides rfl rfl rfl rfl rfl, ⟨rfl, rfl, rfl⟩, fun words => { words with }⟩
  have nonneg := words.claimed_nonneg
  have below := words.claimed_le
  have above := words.total_lt
  have remainder : i64 (r₁.getAmount .migTotal - r₁.getAmount .migClaimed)
      = r.getAmount .migTotal - r.getAmount .migClaimed := by
    rw [entered.migration.total, entered.migration.claimed]
    simp only [booksOf_claimed, booksOf_total] at nonneg below above
    exact i64_of_nonneg (by omega) (by omega)
  simp only [booksOf_claimed, booksOf_total] at nonneg below above
  refine ⟨fun _ => entered.besides.refused _, fun _ => ?_⟩
  rw [remainder]
  simp only [recycleRemainder, always_ite, always_bind, always_pure]
  refine ⟨fun some_left => ?_, fun none_left => ?_⟩
  · refine mintSupply_migrated (entered.besides.words words) some_left.le (by omega)
      ⟨fun _ => by simpa using entered.besides.refused _, by simp⟩ fun r₂ minted supply => ?_
    refine ⟨by simp, fun _ => ?_⟩
    simp only [always_modify, Bool.not_true, Bool.false_eq_true, not_false_eq_true, forall_const,
      false_implies, true_and]
    have recycled := (Aside.refl r₂).recycle (r.getAmount .migTotal - r.getAmount .migClaimed)
    refine ⟨marked _ ((entered.besides.trans minted).trans recycled.steady.besides),
      fun _ => admitted, fun _ => ?_⟩
    rw [booksOf_setMigSwept, recycled.sameMigration.books, supply, entered.migration.books]
    rfl
  · simp only [always_modify, Bool.not_true, Bool.false_eq_true, not_false_eq_true, forall_const,
      false_implies, true_and]
    refine ⟨marked _ entered.besides, fun _ => admitted, fun _ => ?_⟩
    have nothing : r.getAmount .migTotal - r.getAmount .migClaimed = 0 := by omega
    rw [booksOf_setMigSwept, entered.migration.books]
    simp [Books.apply, nothing]

-----------------------------------------------------------------------------------------
-- Pushed credits
-----------------------------------------------------------------------------------------

theorem creditMigrationMint_steady (account : String) (staked : Int)
    : (creditMigrationMint account staked).Always rowsMay (fun _ r' => Steady r r') r := by
  simp only [creditMigrationMint, always_bind, always_rows]
  cases newMigrationMint account staked (genesisHeight r) with
  | none => exact .refl r
  | some m =>
      simp only [always_bind, always_pure]
      exact registerMints_steady (genesisHeight r) [m] (.inr le_rfl)

theorem stakeIfAny_steady (account : String) (staked : Int)
    : (stakeIfAny account staked).Always rowsMay (fun _ r' => Steady r r') r := by
  simp only [stakeIfAny, always_ite, always_pure]
  exact ⟨fun _ => creditMigrationMint_steady account staked, fun _ => .refl r⟩

theorem creditMigration_step (now : Nat) (account : String) (liquid staked : Int)
    (hl : liquid < 2 ^ 63) (hs : staked < 2 ^ 63) (words : (booksOf r).Words)
    : (creditMigration account liquid staked).Always rowsMay
      (MigrationStep now (.push false [⟨account, liquid, staked⟩]) r) r := by
  have untouched (reason : String)
      : MigrationStep now (.push false [⟨account, liquid, staked⟩]) r (fail reason) r :=
    (Steady.refl r).besides.refused reason
  simp only [creditMigration, always_bind, always_rows, always_ite, always_pure]
  refine ⟨fun _ => untouched _, fun _ => ⟨fun _ => untouched _, fun _ => ⟨fun _ => untouched _,
    fun good => ⟨fun _ => untouched _, fun _ => ⟨fun _ => untouched _, fun fresh => ?_⟩⟩⟩⟩⟩
  obtain ⟨lNonneg, sNonneg, positive, fits, whole⟩ := position_exact hl hs good
  rw [whole]
  cases sum : addAmount (r.getAmount .migrated) (liquid + staked) with
  | none => exact untouched _
  | some next =>
      obtain ⟨supply, small⟩ := addAmount_eq_some words.supply_nonneg positive.le
        words.supply_lt fits sum
      rw [booksOf_supply] at supply
      have delta : i64 (next - r.getAmount .migrated) = liquid + staked := by
        rw [supply, add_sub_cancel_left, whole]
      simp only [always_bind, always_ite, always_pure, delta]
      refine ⟨fun _ => untouched _, fun cap => ?_⟩
      have admitted : (booksOf r).Admits (claimDeadlineHeight r) now
          (.push false [⟨account, liquid, staked⟩]) := by
        refine ⟨by simp, ?_, ?_⟩
        · rintro e he
          obtain rfl := List.mem_singleton.mp he
          exact ⟨by simpa using fresh, lNonneg, sNonneg, positive⟩
        · simpa [pushed, MigrationEntry.amount, ← supply] using cap
      refine mintSupply_migrated words positive.le fits ⟨fun _ => untouched _, by simp⟩
        fun r₁ minted books => ?_
      refine ⟨by simp, fun _ => ?_⟩
      refine always_mono (fun paid r₂ credited => ?_) (creditIfAny_steady account liquid)
      refine ⟨fun _ => (minted.trans credited.besides).refused _, fun _ => ?_⟩
      refine always_mono (fun entered r₃ staked => ?_) (stakeIfAny_steady account _)
      have kept := minted.trans (credited.trans staked).besides
      simp only [always_modify]
      refine ⟨fun _ => kept.refused _, fun _ => ⟨kept.trans (setMigDone_besides ..),
        fun _ => admitted, fun _ => ?_⟩⟩
      rw [booksOf_setMigDone, staked.migration.books, credited.migration.books, books]
      simp [Books.apply, pushed, MigrationEntry.amount, fileReceipts, MigrationEntry.receipt]

-----------------------------------------------------------------------------------------
-- Batches
-----------------------------------------------------------------------------------------

/-- Refusing the stakes of the null account changes nothing about a batch without any: what the
stricter loop accepts, the other one accepts alike. By induction on the entries.
-/
theorem validateCredits_burns {inBatch : List String} {entries : List MigrationEntry} {toAdd : Int}
    {found : Int × List MigrationEntry}
    (accepted : validateCredits r inBatch entries toAdd = .ok found)
    : validateBurns r inBatch entries toAdd = .ok found := by
  induction entries generalizing inBatch toAdd found with
  | nil => exact accepted
  | cons e rest ih =>
      unfold validateCredits at accepted
      unfold validateBurns
      split at accepted
      · cases accepted
      rename_i good
      split at accepted
      · cases accepted
      split at accepted
      · cases accepted
      rename_i unseen
      rw [if_neg good, if_neg unseen]
      split at accepted
      · rename_i known
        rw [if_pos known]
        exact ih accepted
      rename_i new
      rw [if_neg new]
      cases sum : addAmount toAdd (i64 (e.liquid + e.staked)) with
      | none =>
          rw [sum] at accepted
          cases accepted
      | some next =>
          rw [sum] at accepted
          dsimp only at accepted ⊢
          cases tail : validateCredits r (e.account :: inBatch) rest next with
          | error refusal =>
              rw [tail] at accepted
              cases accepted
          | ok later =>
              rw [tail] at accepted
              rw [ih tail]
              exact accepted

/-- What the loop has done with the first entry of a batch that it accepts: skipped it, or counted it
in.
-/
theorem validateBurns_cons {inBatch : List String} {e : MigrationEntry} {rest : List MigrationEntry}
    {fresh : List MigrationEntry} {toAdd total : Int}
    (accepted : validateBurns r inBatch (e :: rest) toAdd = .ok (total, fresh))
    : ¬badPosition e.liquid e.staked = true ∧ e.account ∉ inBatch
      ∧ (validateBurns r (e.account :: inBatch) rest toAdd = .ok (total, fresh)
        ∨ ∃ next later, r.migDone e.account = none
          ∧ addAmount toAdd (i64 (e.liquid + e.staked)) = some next
          ∧ validateBurns r (e.account :: inBatch) rest next = .ok (total, later)
          ∧ fresh = e :: later) := by
  unfold validateBurns at accepted
  split at accepted
  · cases accepted
  rename_i good
  split at accepted
  · cases accepted
  rename_i unseen
  refine ⟨good, unseen, ?_⟩
  split at accepted
  · exact .inl accepted
  rename_i new
  cases sum : addAmount toAdd (i64 (e.liquid + e.staked)) with
  | none =>
      rw [sum] at accepted
      cases accepted
  | some next =>
      rw [sum] at accepted
      cases tail : validateBurns r (e.account :: inBatch) rest next with
      | error refusal => simp [tail, Bind.bind, Except.bind] at accepted
      | ok found =>
          obtain ⟨total', later⟩ := found
          simp only [tail, Bind.bind, Except.bind, Pure.pure, Except.pure, Except.ok.injEq,
            Prod.mk.injEq] at accepted
          obtain ⟨rfl, rfl⟩ := accepted
          exact .inr ⟨next, later, by simpa using new, rfl, tail, rfl⟩

/-- What a validation loop accepts: entries that are new, good and apart, and their exact
sum. By induction on the entries.
-/
theorem validateBurns_ok {inBatch : List String} {entries fresh : List MigrationEntry}
    {toAdd total : Int} (nonneg : 0 ≤ toAdd) (small : toAdd < 2 ^ 63)
    (words : ∀ e ∈ entries, e.liquid < 2 ^ 63 ∧ e.staked < 2 ^ 63)
    (accepted : validateBurns r inBatch entries toAdd = .ok (total, fresh))
    : (fresh.map MigrationEntry.account).Nodup
      ∧ (∀ e ∈ fresh, e.account ∉ inBatch ∧ r.migDone e.account = none
        ∧ 0 ≤ e.liquid ∧ 0 ≤ e.staked ∧ 0 < e.amount)
      ∧ total = toAdd + pushed fresh ∧ total < 2 ^ 63 := by
  induction entries generalizing inBatch toAdd total fresh with
  | nil =>
      obtain ⟨rfl, rfl⟩ := Prod.mk.inj (Except.ok.inj accepted)
      exact ⟨List.nodup_nil, by simp, by simp [pushed], small⟩
  | cons e rest ih =>
      have wordsRest := fun e' he => words e' (List.mem_cons_of_mem _ he)
      obtain ⟨good, unseen, skipped | ⟨next, later, new, sum, tail, recorded⟩⟩ :=
        validateBurns_cons accepted
      · obtain ⟨nodup, all, exact_sum⟩ := ih nonneg small wordsRest skipped
        exact ⟨nodup, fun e' he => (all e' he).imp_left (mt (List.mem_cons_of_mem _)), exact_sum⟩
      · subst recorded
        obtain ⟨hl, hs⟩ := words e List.mem_cons_self
        obtain ⟨lNonneg, sNonneg, positive, fits, whole⟩ := position_exact hl hs good
        rw [whole] at sum
        obtain ⟨rfl, below⟩ := addAmount_eq_some nonneg positive.le small fits sum
        obtain ⟨nodup, all, exact_sum, less⟩ := ih (by omega) below wordsRest tail
        refine ⟨?_, ?_, ?_, less⟩
        · refine List.nodup_cons.mpr ⟨fun twice => ?_, nodup⟩
          obtain ⟨e', he, same⟩ := List.mem_map.mp twice
          exact (all e' he).1 (same ▸ List.mem_cons_self)
        · rintro e' (_ | ⟨_, he⟩)
          · exact ⟨unseen, new, lNonneg, sNonneg, positive⟩
          · exact (all e' he).imp_left (mt (List.mem_cons_of_mem _))
        · rw [exact_sum, pushed, pushed, List.map_cons, List.sum_cons, MigrationEntry.amount]
          ring

/-- Validation refuses with refusals, by induction on the entries. -/
theorem validateCredits_refusal {inBatch : List String} {entries : List MigrationEntry}
    {toAdd : Int} {refusal : Result}
    (refused : validateCredits r inBatch entries toAdd = .error refusal)
    : refusal.ok = false := by
  induction entries generalizing inBatch toAdd with
  | nil => cases refused
  | cons e rest ih =>
      unfold validateCredits at refused
      split at refused
      · exact Except.error.inj refused ▸ rfl
      split at refused
      · exact Except.error.inj refused ▸ rfl
      split at refused
      · exact Except.error.inj refused ▸ rfl
      split at refused
      · exact ih refused
      split at refused
      · exact Except.error.inj refused ▸ rfl
      rename_i next _
      cases tail : validateCredits r (e.account :: inBatch) rest next with
      | error refusal' =>
          simp only [tail, Bind.bind, Except.bind, Except.error.injEq] at refused
          exact ih (refused ▸ tail)
      | ok found => simp [tail, Bind.bind, Except.bind, Pure.pure, Except.pure] at refused

theorem validateBurns_refusal {inBatch : List String} {entries : List MigrationEntry}
    {toAdd : Int} {refusal : Result}
    (refused : validateBurns r inBatch entries toAdd = .error refusal)
    : refusal.ok = false := by
  induction entries generalizing inBatch toAdd with
  | nil => cases refused
  | cons e rest ih =>
      unfold validateBurns at refused
      split at refused
      · exact Except.error.inj refused ▸ rfl
      split at refused
      · exact Except.error.inj refused ▸ rfl
      split at refused
      · exact ih refused
      split at refused
      · exact Except.error.inj refused ▸ rfl
      rename_i next _
      cases tail : validateBurns r (e.account :: inBatch) rest next with
      | error refusal' =>
          simp only [tail, Bind.bind, Except.bind, Except.error.injEq] at refused
          exact ih (refused ▸ tail)
      | ok found => simp [tail, Bind.bind, Except.bind, Pure.pure, Except.pure] at refused

/-- (validate.Sound) says that the loop accepts no more than the one of the burned batches, and refuses
with refusals.
-/
structure Validation.Sound (validate : Validation) : Prop where
  accepts
    : ∀ {r entries found},
        validate r [] entries 0 = .ok found → validateBurns r [] entries 0 = .ok found
  refuses
    : ∀ {r entries refusal}, validate r [] entries 0 = .error refusal → refusal.ok = false

theorem validateCredits_sound : Validation.Sound validateCredits :=
  ⟨validateCredits_burns, validateCredits_refusal⟩

theorem validateBurns_sound : Validation.Sound validateBurns := ⟨id, validateBurns_refusal⟩

variable {validate : Validation}

/-- The entries that a batch records. -/
def freshOf (validate : Validation) (r : Rows) (entries : List MigrationEntry)
    : List MigrationEntry :=
  match admitBatch validate r entries with
  | .ok (_, fresh) => fresh
  | .error _ => []

/-- What a batch is admitted with: the guard of a push and the exact sum to mint. -/
theorem admitBatch_ok (sound : validate.Sound) {entries fresh : List MigrationEntry} {delta : Int}
    (burned : Bool) (deadline now : Nat) (supplyWords : (booksOf r).Words)
    (words : ∀ e ∈ entries, e.liquid < 2 ^ 63 ∧ e.staked < 2 ^ 63)
    (accepted : admitBatch validate r entries = .ok (delta, fresh))
    : (booksOf r).Admits deadline now (.push burned fresh)
      ∧ delta = pushed fresh ∧ 0 ≤ pushed fresh ∧ pushed fresh < 2 ^ 63 := by
  have nonneg := supplyWords.supply_nonneg
  have small := supplyWords.supply_lt
  unfold admitBatch at accepted
  simp only [Bind.bind, Except.bind, throw, throwThe, MonadExceptOf.throw] at accepted
  split at accepted
  · cases accepted
  split at accepted
  · cases accepted
  split at accepted
  · cases accepted
  split at accepted
  · cases accepted
  cases valid : validate r [] entries 0 with
  | error refusal => simp [valid] at accepted
  | ok found =>
      obtain ⟨toAdd, fresh'⟩ := found
      obtain ⟨nodup, all, exact_sum, below⟩ := validateBurns_ok le_rfl (by decide) words
        (sound.accepts valid)
      have sumNonneg : 0 ≤ pushed fresh' := by
        refine List.sum_nonneg fun x hx => ?_
        obtain ⟨e, he, rfl⟩ := List.mem_map.mp hx
        exact (all e he).2.2.2.2.le
      rw [zero_add] at exact_sum
      subst exact_sum
      simp only [valid] at accepted
      cases sum : addAmount (r.getAmount .migrated) (pushed fresh') with
      | none => simp [sum] at accepted
      | some total =>
          obtain ⟨supply, fits⟩ := addAmount_eq_some nonneg sumNonneg small below sum
          rw [booksOf_supply] at supply
          simp only [sum] at accepted
          split at accepted
          · cases accepted
          rename_i cap
          obtain ⟨rfl, rfl⟩ := Prod.mk.inj (Except.ok.inj accepted)
          refine ⟨⟨nodup, fun e he => (all e he).2, ?_⟩, ?_, sumNonneg, below⟩
          · rw [booksOf_supply, ← supply]
            simpa using cap
          · rw [supply, add_sub_cancel_left]
            exact i64_of_nonneg sumNonneg below

/-- A refused batch carries a refusal, by cases on its checks. -/
theorem admitBatch_refusal (sound : validate.Sound) {entries : List MigrationEntry}
    {refusal : Result} (refused : admitBatch validate r entries = .error refusal)
    : refusal.ok = false := by
  unfold admitBatch at refused
  simp only [Bind.bind, Except.bind, throw, throwThe, MonadExceptOf.throw] at refused
  split at refused
  · exact Except.error.inj refused ▸ rfl
  split at refused
  · exact Except.error.inj refused ▸ rfl
  split at refused
  · exact Except.error.inj refused ▸ rfl
  split at refused
  · exact Except.error.inj refused ▸ rfl
  cases valid : validate r [] entries 0 with
  | error refusal' =>
      simp only [valid, Except.error.injEq] at refused
      exact refused ▸ sound.refuses valid
  | ok found =>
      simp only [valid] at refused
      split at refused
      · exact Except.error.inj refused ▸ rfl
      · split at refused
        · exact Except.error.inj refused ▸ rfl
        · cases refused

theorem registerBatch_steady (genesis : Nat) (mints : List Mint)
    (word : genesis < 2 ^ 64 ∨ genesis ≤ genesisHeight r)
    : (registerBatch genesis mints).Always rowsMay (fun _ r' => Steady r r') r := by
  simp only [registerBatch, always_ite, always_pure, always_bind]
  exact ⟨fun _ => .refl r, fun _ => registerMints_steady genesis mints word⟩

/-- The paying loop files the receipt of every entry it has paid, all of them when it
succeeds; by induction on the entries.
-/
theorem payBatch_books (genesis : Nat) (entries : List MigrationEntry)
    : (payBatch genesis entries).Always rowsMay
      (fun paid r' => Besides r r' ∧ (∀ refusal, paid = .error refusal → refusal.ok = false)
        ∧ ∀ mints, paid = .ok mints
          → booksOf r' = { booksOf r with done := fileReceipts false (booksOf r).done entries })
      r := by
  induction entries generalizing r with
  | nil => exact ⟨(Steady.refl r).besides, (by rintro _ ⟨⟩), fun _ _ => rfl⟩
  | cons e rest ih =>
      unfold payBatch
      simp only [always_bind, always_ite, always_pure]
      refine always_mono (fun paid r₁ credited => ?_) (creditIfAny_steady e.account e.liquid)
      have refused (reason : String) : ∀ refusal : Result,
          (.error (fail reason) : Except Result (List Mint)) = .error refusal
            → refusal.ok = false := by
        rintro _ ⟨⟩
        rfl
      refine ⟨fun _ => ⟨credited.besides, refused _, (by rintro _ ⟨⟩)⟩, fun _ => ?_⟩
      cases payBatch.stakeMint genesis e with
      | none => exact ⟨credited.besides, refused _, (by rintro _ ⟨⟩)⟩
      | some mints =>
          simp only [always_bind, always_modify]
          refine always_mono (fun more r₂ tail => ?_) ih
          have kept := (credited.besides.trans (setMigDone_besides ..)).trans tail.1
          rcases more with refusal | more
          · refine ⟨kept, ?_, (by rintro _ ⟨⟩)⟩
            rintro _ ⟨⟩
            exact tail.2.1 _ rfl
          · refine ⟨kept, (by rintro _ ⟨⟩), fun _ _ => ?_⟩
            rw [tail.2.2 more rfl, booksOf_setMigDone, credited.migration.books]
            rfl

/-- Filing a batch's burns shows in the receipts alone, by induction on the entries. -/
theorem recordBurned_books (entries : List MigrationEntry)
    : Besides r (recordBurned r entries)
      ∧ booksOf (recordBurned r entries)
        = { booksOf r with done := fileReceipts true (booksOf r).done entries } := by
  unfold recordBurned
  induction entries generalizing r with
  | nil => exact ⟨(Steady.refl r).besides, rfl⟩
  | cons e rest ih =>
      obtain ⟨kept, filed⟩ := ih (r := r.setMigDone e.account (.burned e.liquid e.staked))
      refine ⟨(setMigDone_besides ..).trans kept, ?_⟩
      rw [List.foldl_cons, filed, booksOf_setMigDone]
      rfl

theorem creditMigrationBatch_step (now : Nat) (entries : List MigrationEntry)
    (words : (booksOf r).Words) (small : ∀ e ∈ entries, e.liquid < 2 ^ 63 ∧ e.staked < 2 ^ 63)
    : (creditMigrationBatch entries).Always rowsMay
      (MigrationStep now (.push false (freshOf validateCredits r entries)) r) r := by
  simp only [creditMigrationBatch, always_bind, always_rows]
  unfold freshOf
  cases accepted : admitBatch validateCredits r entries with
  | error refusal =>
      have refused : refusal.ok = false := admitBatch_refusal validateCredits_sound accepted
      exact ⟨(Steady.refl r).besides, by simp [refused], by simp [refused]⟩
  | ok found =>
      obtain ⟨delta, fresh⟩ := found
      obtain ⟨admitted, rfl, nonneg, below⟩ :=
        admitBatch_ok validateCredits_sound false (claimDeadlineHeight r) now words small accepted
      simp only [always_bind, always_ite, always_pure]
      refine mintSupply_migrated words nonneg below
        ⟨fun _ => (Steady.refl r).besides.refused _, by simp⟩ fun r₁ minted supply => ?_
      refine ⟨by simp, fun _ => ?_⟩
      refine always_mono (fun paid r₂ tail => ?_) (payBatch_books (genesisHeight r) fresh)
      have kept := minted.trans tail.1
      rcases paid with refusal | mints
      · have refused := tail.2.1 refusal rfl
        exact ⟨kept, by simp [refused], by simp [refused]⟩
      simp only [always_bind, always_ite, always_pure]
      refine always_mono (fun entered r₃ registered => ?_)
        (registerBatch_steady (genesisHeight r) mints (.inr kept.evolves.genesis.ge))
      have registeredToo := kept.trans registered.besides
      refine ⟨fun _ => registeredToo.refused _, fun _ => ⟨registeredToo, fun _ => admitted,
        fun _ => ?_⟩⟩
      rw [registered.migration.books, tail.2.2 mints rfl, supply]
      rfl

theorem burnMigrationBatch_step (now : Nat) (entries : List MigrationEntry)
    (words : (booksOf r).Words) (small : ∀ e ∈ entries, e.liquid < 2 ^ 63 ∧ e.staked < 2 ^ 63)
    : (burnMigrationBatch entries).Always rowsMay
      (MigrationStep now (.push true (freshOf validateBurns r entries)) r) r := by
  simp only [burnMigrationBatch, always_bind, always_rows]
  unfold freshOf
  cases accepted : admitBatch validateBurns r entries with
  | error refusal =>
      have refused : refusal.ok = false := admitBatch_refusal validateBurns_sound accepted
      exact ⟨(Steady.refl r).besides, by simp [refused], by simp [refused]⟩
  | ok found =>
      obtain ⟨delta, fresh⟩ := found
      obtain ⟨admitted, rfl, nonneg, below⟩ :=
        admitBatch_ok validateBurns_sound true (claimDeadlineHeight r) now words small accepted
      simp only [always_bind, always_ite, always_pure, always_modify]
      refine mintSupply_migrated words nonneg below
        ⟨fun _ => (Steady.refl r).besides.refused _, by simp⟩ fun r₁ minted supply => ?_
      refine ⟨by simp, fun _ => ?_⟩
      obtain ⟨filed, books⟩ := recordBurned_books (r := r₁) fresh
      refine always_mono (fun paid r₂ burned => ?_) (burn_steady _)
      have kept := (minted.trans filed).trans burned.besides
      refine ⟨fun _ => kept.refused _, fun _ => ⟨kept, fun _ => admitted, fun _ => ?_⟩⟩
      rw [burned.migration.books, books, supply]
      rfl

end LasseCash.State
