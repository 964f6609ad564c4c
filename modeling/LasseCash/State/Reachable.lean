import LasseCash.State.MigrationHistory

/-! What any request does to the rows, and what holds of the rows in every reachable world:
the calendar of the emission, the words of the migration's books and the size of the expiry chunks.
-/

namespace LasseCash.State

open Engine MachineInt Function Program

-----------------------------------------------------------------------------------------
-- What an action names
-----------------------------------------------------------------------------------------

/-- The migration event that the success of an action is. -/
def Action.event (ctx : Ctx) (r : Rows) : Action → Option Event
  | creditMigration account liquid staked =>
      some (.push false [⟨account, liquid.toInt, staked.toInt⟩])
  | creditMigrationBatch entries => some (.push false (freshOf validateCredits r (entriesOf entries)))
  | burnMigrationBatch entries => some (.push true (freshOf validateBurns r (entriesOf entries)))
  | setSnapshot root qualifierTotal burnTotal =>
      some (.commit root qualifierTotal.toInt burnTotal.toInt)
  | claimMigration liquid staked _ => some (.claim ctx.sender liquid.toInt staked.toInt)
  | recordBurn account liquid staked _ => some (.record account liquid.toInt staked.toInt)
  | sweepUnclaimed => some .sweep
  | _ => none

/-- The pair under which an action may publish a post. -/
def Action.publishes (ctx : Ctx) : Action → List (String × String)
  | createPost permlink _ _ => [(ctx.sender, permlink)]
  | createComment permlink _ _ _ => [(ctx.sender, permlink)]
  | vote author permlink weightPct => if weightPct.toInt = 0 then [] else [(author, permlink)]
  | _ => []

/-- The triple under which an action casts a vote when it succeeds. -/
def Action.casts (ctx : Ctx) : Action → List (String × String × String)
  | vote author permlink weightPct =>
      if weightPct.toInt = 0 then [] else [(author, permlink, ctx.sender)]
  | _ => []

/-- What an action does to the rows: a migration's success is its event, and anything else
publishes and votes as it names.
-/
def ActionEffect (ctx : Ctx) (action : Action) (r : Rows) (res : Result) (r' : Rows) : Prop :=
  match action.event ctx r with
  | some e => MigrationStep ctx.height e r res r'
  | none => Authors (action.publishes ctx) (if res.ok then action.casts ctx else []) r r'

-----------------------------------------------------------------------------------------
-- Every action has its effect
-----------------------------------------------------------------------------------------

theorem entriesOf_words (entries : List (String × Int64 × Int64))
    : ∀ e ∈ entriesOf entries, e.liquid < 2 ^ 63 ∧ e.staked < 2 ^ 63 := by
  intro e he
  obtain ⟨e, _, rfl⟩ := List.mem_map.mp he
  exact ⟨Int64.toInt_lt e.2.1, Int64.toInt_lt e.2.2⟩

/-- Steady operations have the effect of any action without an event. -/
theorem Steady.effect {ctx : Ctx} {action : Action} {r r' : Rows} (res : Result)
    (h : Steady r r') (quiet : action.event ctx r = none)
    : ActionEffect ctx action r res r' := by
  rw [ActionEffect, quiet]
  exact h.authors

/-- Every operation has its effect, by cases on the action. -/
theorem Action.program_effect (ctx : Ctx) (action : Action) {p : Op Result}
    (program : action.program ctx = some p) {r : Rows} (words : (booksOf r).Words)
    : p.Always rowsMay (ActionEffect ctx action r) r := by
  have steady {p : Op Result} (quiet : action.event ctx r = none)
      (h : p.Always rowsMay (fun _ r' => Steady r r') r)
      : p.Always rowsMay (ActionEffect ctx action r) r :=
    always_mono (fun res _ h => h.effect res quiet) h
  have settles {p : Op Result} (quiet : action.event ctx r = none)
      (h : p.Always rowsMay (fun _ r' => Authors [] [] r r') r)
      : p.Always rowsMay (ActionEffect ctx action r) r := by
    refine always_mono (fun res r' h => ?_) h
    rw [ActionEffect, quiet]
    exact h.any
  cases action <;> cases program
  case transfer recipient amt => exact steady rfl (transfer_steady ctx recipient amt.toInt)
  case burnLiquid amt => exact steady rfl (burnLiquid_steady ctx amt.toInt)
  case fundPool target amt => exact steady rfl (fundPool_steady ctx target amt.toInt)
  case settle => exact steady rfl (settle_steady ctx)
  case advance maxDays => exact steady rfl (advance_steady ctx maxDays.toInt)
  case createMint principal days =>
      exact steady rfl (createMint_steady ctx principal.toInt days.toInt)
  case claimMint id => exact steady rfl (endMint_steady ctx ctx.sender id.toNat false)
  case sweepMint owner id => exact steady rfl (endMint_steady ctx owner id.toNat true)
  case armGoodAccounting id => exact steady rfl (armGoodAccounting_steady ctx id.toNat)
  case setMintDuration days => exact steady rfl (setMintDuration_steady ctx days.toInt)
  case promote account => exact steady rfl (promote_steady account)
  case setPreference key value => exact steady rfl (setPreference_steady ctx key value.toInt)
  case createPost permlink window mode =>
      exact always_mono (fun _ _ h => h.widen (List.Subset.refl _) (List.nil_subset _))
        (createContent_authors ctx permlink window mode "" "")
  case createComment permlink mode parentAuthor parentPermlink =>
      exact always_mono (fun _ _ h => h.widen (List.Subset.refl _) (List.nil_subset _))
        (createComment_authors ctx permlink mode parentAuthor parentPermlink)
  case vote author permlink weightPct =>
      by_cases zero : weightPct.toInt = 0
      · rw [zero]
        exact settles rfl (withdraw_authors ctx author permlink)
      · refine always_mono (fun res r' h => ?_) (vote_authors ctx author permlink _ zero)
        simpa only [ActionEffect, Action.event, Action.publishes, Action.casts, zero, if_false]
          using h.1
  case promotePost author permlink amt =>
      exact settles rfl (promotePost_authors ctx author permlink amt.toInt)
  case payout author permlink => exact settles rfl (payout_authors ctx author permlink)
  case claimCuration author permlink curator =>
      exact settles rfl (claimCuration_authors ctx author permlink curator)
  case sweepCuration author permlink =>
      exact settles rfl (sweepCuration_authors ctx author permlink)
  case settlePending account => exact settles rfl (settlePending_authors ctx account)
  case addLiquidity lcIn maxHbd =>
      exact steady rfl (addLiquidity_steady ctx lcIn.toInt maxHbd.toInt)
  case removeLiquidity id => exact steady rfl (closeTranche_steady ctx ctx.sender id.toNat)
  case sweepTranche owner id => exact steady rfl (sweepTranche_steady ctx owner id.toNat)
  case claimPoolRewards id => exact steady rfl (claimPoolRewards_steady ctx id.toNat)
  case swapLCForHBD lcIn minOut =>
      exact steady rfl (swapLCForHBD_steady ctx lcIn.toInt minOut.toInt)
  case swapHBDForLC hbdIn minOut =>
      exact steady rfl (swapHBDForLC_steady ctx hbdIn.toInt minOut.toInt)
  case creditMigration account liquid staked =>
      exact creditMigration_step ctx.height account _ _ (Int64.toInt_lt liquid)
        (Int64.toInt_lt staked) words
  case creditMigrationBatch entries =>
      exact creditMigrationBatch_step ctx.height _ words (entriesOf_words entries)
  case burnMigrationBatch entries =>
      exact burnMigrationBatch_step ctx.height _ words (entriesOf_words entries)
  case setSnapshot root q b =>
      exact setSnapshot_step ctx.height root _ _ (Int64.toInt_lt q) (Int64.toInt_lt b) words
  case claimMigration liquid staked proofHex =>
      exact claimMigration_step ctx _ _ proofHex (Int64.toInt_lt liquid) (Int64.toInt_lt staked)
        words
  case recordBurn account liquid staked proofHex =>
      exact recordBurn_step ctx.height account _ _ proofHex
  case sweepUnclaimed => exact sweepUnclaimed_step ctx words

/-- Moving balances into the token leaves the rows alone, by induction on the accounts. -/
theorem Store.migrateLedger_rows (s : Store) (accounts : List String)
    : (s.migrateLedger accounts).1.rows = s.rows := by
  have loop (moved : Nat) : (Store.migrateLedger.go s moved accounts).1.rows = s.rows := by
    induction accounts generalizing s moved with
    | nil => rfl
    | cons a rest ih =>
        unfold Store.migrateLedger.go
        split
        · exact ih s moved
        split
        · exact ih s moved
        split
        · rfl
        · rename_i t _
          have kept := s.ensureMigrated_rows t a
          split
          · rename_i stopped
            rw [stopped] at kept
            exact kept
          · rename_i s' _ moving
            rw [moving] at kept
            exact (ih s' (moved + 1)).trans kept
  unfold Store.migrateLedger
  split
  · rfl
  · exact loop 0

/-- So does minting the missing backing, by cases on its checks. -/
theorem Store.reconcileFloat_rows (s : Store) : s.reconcileFloat.1.rows = s.rows := by
  unfold Store.reconcileFloat
  split
  · rfl
  split
  · rfl
  split
  · rfl
  dsimp only
  split <;> rfl

section Worlds

variable {A : Type} [Assets A]

/-- An operation with a program runs it. -/
theorem Action.exec_of_program {ctx : Ctx} {action : Action} {p : Op Result}
    (program : action.program ctx = some p) (w : World A)
    : action.exec ctx w = p.run serve w := by
  unfold Action.exec
  rw [program]

/-- A success is not unwound. -/
theorem Request.exec_of_ok {q : Request} {w : World A} (success : (q.exec w).2.ok = true)
    : q.exec w = q.action.exec q.ctx w := by
  unfold Request.exec at success ⊢
  dsimp only at success ⊢
  simp [success]

/-- The two operations without a program leave the rows alone. -/
theorem Action.exec_rows {ctx : Ctx} {action : Action} (program : action.program ctx = none)
    (w : World A)
    : (action.exec ctx w).1.rows = w.rows := by
  cases action <;> cases program
  case migrateLedger accounts => exact w.store.migrateLedger_rows accounts
  case reconcileFloat => exact w.store.reconcileFloat_rows

theorem Action.exec_effect (ctx : Ctx) (action : Action) (w : World A)
    (words : (booksOf w.rows).Words)
    : ActionEffect ctx action w.rows (action.exec ctx w).2 (action.exec ctx w).1.rows := by
  cases program : action.program ctx with
  | some p =>
      rw [Action.exec_of_program program]
      exact always_serve (Action.program_effect ctx action program words)
  | none =>
      rw [Action.exec_rows program]
      exact (Steady.refl _).effect _ (by cases action <;> cases program <;> rfl)

/-- A request has its action's effect, also when it is unwound. -/
theorem Request.exec_effect (q : Request) (w : World A) (words : (booksOf w.rows).Words)
    : ActionEffect q.ctx q.action w.rows (q.exec w).2 (q.exec w).1.rows := by
  unfold Request.exec
  dsimp only
  split
  · rename_i unwound
    obtain ⟨_, refused⟩ : q.unwinds = true ∧ (q.action.exec q.ctx w).2.ok = false := by
      simpa using unwound
    unfold ActionEffect
    split
    · exact ⟨(Steady.refl _).besides, by simp [refused], by simp [refused]⟩
    · exact .refl _
  · exact q.action.exec_effect q.ctx w words

-----------------------------------------------------------------------------------------
-- Reachable worlds
-----------------------------------------------------------------------------------------

/-- The effect of an action keeps the past. -/
theorem ActionEffect.evolves {ctx : Ctx} {action : Action} {r r' : Rows} {res : Result}
    (h : ActionEffect ctx action r res r')
    : Evolves r r' := by
  unfold ActionEffect at h
  split at h
  · exact h.besides.evolves
  · exact h.evolves

theorem ActionEffect.words {ctx : Ctx} {action : Action} {r r' : Rows} {res : Result}
    (h : ActionEffect ctx action r res r') (words : (booksOf r).Words)
    : (booksOf r').Words := by
  unfold ActionEffect at h
  split at h
  · exact h.besides.words words
  · rw [h.migration.books]
    exact words

/-- What holds of the rows in every world that is reached after `Init`. -/
structure Settled (r : Rows) : Prop where
  calendar : Calendar r
  words : (booksOf r).Words
  chunks : SmallChunks r

theorem Request.exec_settled {q : Request} {w : World A} (h : Settled w.rows)
    : Settled (q.exec w).1.rows where
  calendar := (q.exec_effect w h.words).evolves.calendar h.calendar
  words := (q.exec_effect w h.words).words h.words
  chunks := (q.exec_effect w h.words).evolves.chunks h.chunks

/-- A store with nothing written but perhaps its genesis height is settled. -/
theorem settled_of_genesis {r : Rows} (height : r.getU64 .settled = r.getU64 .genesis)
    (word : r.getU64 .genesis < 2 ^ 64) (day : accruedDays r = 0)
    (amounts : r.amount = Rows.empty.amount) (expiry : r.expiry = Rows.empty.expiry)
    : Settled r := by
  have zero (k : AmountKey) : r.getAmount k = 0 := by
    rw [Rows.getAmount, amounts]
    rfl
  refine ⟨⟨?_, height ▸ word, ?_⟩, ?_, fun key entries there => ?_⟩
  · rw [height, day, Nat.zero_mul, Nat.add_zero, genesisHeight]
  · rw [zero, day]
    decide
  · refine ⟨?_, ?_, ?_, ?_, ?_, fun _ => zero _⟩ <;> simp only [booksOf, zero] <;> decide
  · rw [expiry] at there
    cases there

/-- Initialising a fresh store settles it. -/
theorem initialised_settled (store : Store) (assets : A) (genesis : UInt64)
    (fresh : store.rows = .empty)
    : Settled (initialised store assets genesis).rows := by
  have untouched : Settled Rows.empty := settled_of_genesis rfl (by decide) rfl rfl rfl
  have setUp : Settled ((Rows.empty.setU64 .genesis genesis.toNat).setU64 .settled
      genesis.toNat).setInit :=
    settled_of_genesis (by simp) (by simpa using genesis.toNat_lt) rfl rfl rfl
  refine always_serve (w := ⟨store, assets⟩) (Q := fun _ r => Settled r) ?_
  rw [World.rows, fresh]
  simp only [init, always_bind, always_rows, always_ite, always_pure, always_setRows]
  exact ⟨fun _ => untouched, fun _ => ⟨fun _ => untouched, fun _ => setUp⟩⟩

end Worlds

end LasseCash.State
