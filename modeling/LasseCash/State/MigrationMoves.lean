import LasseCash.State.ContentMoves
import LasseCash.State.PoolMoves

/-! The migration moves the rows by steps, and with it every request. -/

namespace LasseCash.State

open Engine MachineInt Program

variable {o : Origin} {r : Rows}

-----------------------------------------------------------------------------------------
-- Pushes
-----------------------------------------------------------------------------------------

theorem setMigDone_supply (r : Rows) (account : String) (record : MigrationRecord)
    : SameSupply r (r.setMigDone account record) :=
  ⟨rfl, rfl, fun _ => id⟩

/-- Whether emission has started is read from the calendar and the genesis height. -/
theorem Touches.emissionStarted {sides : List Side} {r₁ : Rows} (h : Touches sides r r₁)
    (calendar : sides.contains .calendar = false)
    (setup : sides.contains .setup = false)
    : emissionStarted r₁ = emissionStarted r := by
  unfold State.emissionStarted genesisHeight
  rw [h.count .settled calendar, h.count .genesis setup]

/-- (Pushes o r r') says that pushing moved the rows on, with the genesis height and the calendar
as they were.
-/
structure Pushes (o : Origin) (r r' : Rows) : Prop where
  moves : Moves o r r'
  genesis : genesisHeight r' = genesisHeight r
  started : emissionStarted r' = emissionStarted r

theorem Pushes.refl (r : Rows) : Pushes o r r := ⟨.refl r, rfl, rfl⟩

theorem Pushes.trans {r₁ r₂ : Rows} (h : Pushes o r r₁) (h' : Pushes o r₁ r₂) : Pushes o r r₂ :=
  ⟨h.moves.trans h'.moves, h'.genesis.trans h.genesis, h'.started.trans h.started⟩

/-- One step that leaves the calendar and the genesis height alone. -/
theorem Pushes.step {r₁ r₂ : Rows} {sides : List Side} (h : Pushes o r r₁)
    (s : ∀ whole, Step o whole r₁ r₂) (touched : Touches sides r₁ r₂)
    (calendar : sides.contains .calendar = false)
    (setup : sides.contains .setup = false)
    : Pushes o r r₂ :=
  ⟨h.moves.step s, (touched.count .genesis setup).trans h.genesis,
    (touched.emissionStarted calendar setup).trans h.started⟩

theorem Pushes.note {r₁ : Rows} (h : Pushes o r r₁) (account : String)
    : Pushes o r (noteAccount r₁ account) :=
  h.step (fun _ => .ledger <| .note account)
    ((Touches.refl r₁ : Touches [.roll] _ _).noteAccount account (by rfl)) (by rfl) (by rfl)

theorem Pushes.record {r₁ : Rows} (h : Pushes o r r₁) (account : String) (receipt : MigrationRecord)
    : Pushes o r (r₁.setMigDone account receipt) :=
  h.step (fun _ => .migration <| .record account receipt)
    ((Touches.refl r₁ : Touches [.migration] _ _).setMigDone _ _ (by rfl)) (by rfl) (by rfl)

/-- The supply is raised, or nothing happens. -/
theorem pushSupply_asks {delta : Int} (word : delta < 2 ^ 63)
    : Asks o (mintSupply .migrated delta) (fun _ r' => Pushes o r r') r := by
  simp only [asks_mintSupply]
  refine ⟨⟨.inl trivial, word⟩, fun _ => .refl r, fun _ => .refl r, fun positive next sum => ?_⟩
  exact (Pushes.refl r).step (fun _ => .ledger <| .push delta next positive sum)
    ((Touches.refl r : Touches [.supply] _ _).setAmount .migrated next (by rfl)) (by rfl) (by rfl)

theorem creditIfAny_asks (account : String) (amt : Int)
    : Asks o (creditIfAny account amt) (fun _ r' => Pushes o r r') r := by
  simp only [creditIfAny, Asks, wp_ite, wp_pure, asks_credit]
  exact ⟨fun _ => ⟨fun _ => .refl r, (Pushes.refl r).note account⟩, fun _ => .refl r⟩

/-- Mints of the snapshot that are registered at genesis, before any emission. -/
theorem registerPushed_asks (mints : List Mint) (early : emissionStarted r = false)
    (made : ∀ m ∈ mints, ∃ owner staked, staked < 2 ^ 63
      ∧ newMigrationMint owner staked (genesisHeight r) = some m)
    : Asks o (registerMints (genesisHeight r) mints) (fun _ r' => Pushes o r r') r := by
  have current : dayOf r (genesisHeight r) ≤ accruedDays r := by simp [dayOf]
  refine (registerMints_asks o mints current).mono fun _ r₁ h => ?_
  rw [h.2]
  refine (Pushes.refl r).step (fun _ => .mint <| .enter mints fun m member => ?_)
    (enterMints_touches r mints) (by rfl) (by rfl)
  obtain ⟨owner, staked, word, entered⟩ := made m member
  exact .pushed owner staked m word entered early

theorem stakeIfAny_asks (account : String) {staked : Int} (word : staked < 2 ^ 63)
    (early : emissionStarted r = false)
    : Asks o (stakeIfAny account staked) (fun _ r' => Pushes o r r') r := by
  simp only [stakeIfAny, creditMigrationMint, Asks, wp_ite, wp_pure, wp_bind, asks_rows]
  refine ⟨fun _ => ?_, fun _ => .refl r⟩
  cases made : newMigrationMint account staked (genesisHeight r) with
  | none => exact .refl r
  | some m =>
      simp only [wp_bind, wp_pure]
      exact registerPushed_asks [m] early fun m' member => by
        obtain rfl := List.mem_singleton.mp member
        exact ⟨account, staked, word, made⟩

theorem creditMigration_moves (account : String) (liquid : Int) {staked : Int}
    (word : staked < 2 ^ 63)
    : Asks o (creditMigration account liquid staked) (fun _ r' => Moves o r r') r := by
  simp only [creditMigration, Asks, wp_bind, asks_rows, wp_ite, wp_pure]
  refine ⟨fun _ => .refl r, fun _ => ⟨fun _ => .refl r, fun started => ⟨fun _ => .refl r, fun _ =>
    ⟨fun _ => .refl r, fun _ => ⟨fun _ => .refl r, fun _ => ?_⟩⟩⟩⟩⟩
  have early : emissionStarted r = false := by simpa using started
  cases addAmount (r.getAmount .migrated) (i64 (liquid + staked)) with
  | none => exact .refl r
  | some next =>
      simp only [wp_ite, wp_bind, wp_pure]
      refine ⟨fun _ => .refl r, fun _ => ?_⟩
      refine (pushSupply_asks (i64_mem _).upper).mono fun _ r₁ minted =>
        ⟨fun _ => minted.moves, fun _ => ?_⟩
      refine (creditIfAny_asks account liquid).mono fun _ r₂ credited => ?_
      have paid := minted.trans credited
      refine ⟨fun _ => paid.moves, fun _ => ?_⟩
      refine (stakeIfAny_asks account word (paid.started.trans early)).mono fun _ r₃ staked => ?_
      simp only [asks_modify]
      have entered := paid.trans staked
      exact ⟨fun _ => entered.moves, fun _ =>
        ⟨setMigDone_supply _ _ _, (entered.record account _).moves⟩⟩

/-- The paying loop collects mints of the snapshot, by induction on the entries. -/
theorem payBatch_asks (genesis : Nat) {entries : List MigrationEntry}
    (words : ∀ e ∈ entries, e.staked < 2 ^ 63)
    : Asks o (payBatch genesis entries)
      (fun paid r' => Pushes o r r' ∧ ∀ mints, paid = .ok mints → ∀ m ∈ mints,
        ∃ owner staked, staked < 2 ^ 63 ∧ newMigrationMint owner staked genesis = some m) r := by
  induction entries generalizing r with
  | nil =>
      refine ⟨.refl r, ?_⟩
      rintro mints ⟨⟩ m ⟨⟩
  | cons e rest ih =>
      simp only [payBatch, Asks, wp_bind, wp_ite, wp_pure]
      refine (creditIfAny_asks e.account e.liquid).mono fun _ r₁ credited => ?_
      refine ⟨fun _ => ⟨credited, (by rintro _ ⟨⟩)⟩, fun _ => ?_⟩
      cases staked : payBatch.stakeMint genesis e with
      | none => exact ⟨credited, (by rintro _ ⟨⟩)⟩
      | some mints =>
          have own : ∀ m ∈ mints, ∃ owner staked, staked < 2 ^ 63
              ∧ newMigrationMint owner staked genesis = some m := by
            intro m member
            unfold payBatch.stakeMint at staked
            split at staked
            · obtain ⟨m', made, rfl⟩ := Option.map_eq_some_iff.mp staked
              obtain rfl := List.mem_singleton.mp member
              exact ⟨_, _, words e List.mem_cons_self, made⟩
            · obtain rfl := Option.some.inj staked
              cases member
          simp only [wp_bind, asks_modify]
          refine ⟨setMigDone_supply _ _ _, (ih fun e there =>
            words e (List.mem_cons_of_mem _ there)).mono fun paid r₂ later => ?_⟩
          have moved := (credited.record e.account _).trans later.1
          cases paid with
          | error refusal => exact ⟨moved, (by rintro _ ⟨⟩)⟩
          | ok more =>
              refine ⟨moved, ?_⟩
              rintro _ ⟨⟩ m member
              rcases List.mem_append.mp member with here | there
              · exact own m here
              · exact later.2 more rfl m there

/-- The entries that a batch records are its own, by induction on them. -/
theorem validateBurns_mem {inBatch : List String} {entries fresh : List MigrationEntry}
    {toAdd total : Int} (accepted : validateBurns r inBatch entries toAdd = .ok (total, fresh))
    : ∀ e ∈ fresh, e ∈ entries := by
  induction entries generalizing inBatch toAdd total fresh with
  | nil =>
      obtain ⟨-, rfl⟩ := Prod.mk.inj (Except.ok.inj accepted)
      exact fun _ => id
  | cons e rest ih =>
      unfold validateBurns at accepted
      simp only [Bind.bind, Except.bind] at accepted
      split_ifs at accepted
      · exact fun e' there => List.mem_cons_of_mem _ (ih accepted e' there)
      split at accepted
      · cases accepted
      split at accepted
      · cases accepted
      rename_i found tail
      cases accepted
      rintro e' (_ | ⟨_, there⟩)
      · exact List.mem_cons_self
      · exact List.mem_cons_of_mem _ (ih tail e' there)

/-- Batches are admitted before any emission only, mint a word and record entries of their own. -/
theorem admitBatch_early {validate : Validation} (sound : validate.Sound)
    {entries : List MigrationEntry} {admitted : Int × List MigrationEntry}
    (accepted : admitBatch validate r entries = .ok admitted)
    : emissionStarted r = false ∧ admitted.1 < 2 ^ 63 ∧ ∀ e ∈ admitted.2, e ∈ entries := by
  unfold admitBatch at accepted
  simp only [Bind.bind, Except.bind, throw, throwThe, MonadExceptOf.throw] at accepted
  split at accepted
  · cases accepted
  split at accepted
  · cases accepted
  rename_i started
  refine ⟨by simpa using started, ?_⟩
  repeat' split at accepted
  all_goals cases accepted
  rename_i valid _ _ _ _
  exact ⟨(i64_mem _).upper, validateBurns_mem (sound.accepts valid)⟩

theorem creditMigrationBatch_moves {entries : List MigrationEntry}
    (words : ∀ e ∈ entries, e.staked < 2 ^ 63)
    : Asks o (creditMigrationBatch entries) (fun _ r' => Moves o r r') r := by
  simp only [creditMigrationBatch, Asks, wp_bind, asks_rows]
  cases admitted : admitBatch validateCredits r entries with
  | error refusal => exact .refl r
  | ok both =>
      obtain ⟨delta, fresh⟩ := both
      obtain ⟨early, word, own⟩ := admitBatch_early validateCredits_sound admitted
      simp only [wp_bind, wp_ite, wp_pure]
      refine (pushSupply_asks word).mono fun _ r₁ minted => ⟨fun _ => minted.moves, fun _ => ?_⟩
      refine (payBatch_asks (genesisHeight r) (fun e there => words e (own e there))).mono fun paid r₂ h => ?_
      obtain ⟨credited, made⟩ := h
      have moved := minted.trans credited
      cases paid with
      | error refusal => exact moved.moves
      | ok mints =>
          have registered : Asks o (registerBatch (genesisHeight r) mints)
              (fun _ r' => Pushes o r₂ r') r₂ := by
            simp only [registerBatch, Asks, wp_ite, wp_pure, wp_bind]
            refine ⟨fun _ => .refl r₂, fun _ => ?_⟩
            rw [← moved.genesis]
            exact registerPushed_asks mints (moved.started.trans early)
              (moved.genesis ▸ made mints rfl)
          simp only [wp_bind, wp_ite, wp_pure]
          exact registered.mono fun _ _ entered => ⟨fun _ => (moved.trans entered).moves,
            fun _ => (moved.trans entered).moves⟩

theorem burnMigrationBatch_moves (entries : List MigrationEntry)
    : Asks o (burnMigrationBatch entries) (fun _ r' => Moves o r r') r := by
  simp only [burnMigrationBatch, Asks, wp_bind, asks_rows]
  cases admitted : admitBatch validateBurns r entries with
  | error refusal => exact .refl r
  | ok both =>
      obtain ⟨delta, fresh⟩ := both
      have word := (admitBatch_early validateBurns_sound admitted).2.1
      simp only [wp_bind, wp_ite, wp_pure, asks_modify]
      refine (pushSupply_asks word).mono fun _ r₁ minted => ⟨fun _ => minted.moves, fun _ => ?_⟩
      refine ⟨((recordBurned_touches r₁ fresh).sameSupply rfl rfl), ?_⟩
      have marked := minted.moves.step fun _ => .migration <| .recordBurned fresh
      exact (burn_moves o _).mono fun _ _ burned => ⟨fun _ => marked.trans burned,
        fun _ => marked.trans burned⟩

-----------------------------------------------------------------------------------------
-- The committed snapshot
-----------------------------------------------------------------------------------------

theorem setSnapshot_moves (rootHex : String) (qualifierTotal : Int) {burnTotal : Int}
    (word : burnTotal < 2 ^ 63)
    : Asks o (setSnapshot rootHex qualifierTotal burnTotal) (fun _ r' => Moves o r r') r := by
  simp only [setSnapshot, Asks, wp_bind, asks_rows, wp_ite, wp_pure, asks_setRows]
  refine ⟨fun _ => .refl r, fun _ => ⟨fun _ => .refl r, fun _ => ⟨fun _ => .refl r, fun _ =>
    ⟨fun _ => .refl r, fun _ => ⟨fun _ => .refl r, fun _ => ⟨fun _ => .refl r, fun _ => ?_⟩⟩⟩⟩⟩⟩
  have committed : Pushes o r (commitSnapshot r rootHex qualifierTotal burnTotal) :=
    (Pushes.refl r).step (fun _ => .migration <| .commitSnapshot _ _ _)
      (commitSnapshot_touches _ _ _ _) (by rfl) (by rfl)
  refine ⟨((commitSnapshot_touches _ _ _ _).sameSupply (by rfl) (by rfl)), fun _ => ?_, fun _ => committed.moves⟩
  refine (pushSupply_asks word).mono fun _ r₁ minted => ?_
  have moved := (committed.trans minted).moves
  exact ⟨fun _ => moved, fun _ => (burn_moves o burnTotal).mono fun _ _ burned =>
    ⟨fun _ => moved.trans burned, fun _ => moved.trans burned⟩⟩

/-- A claim's stake is entered while it is unripe and the walk is current. -/
theorem claimStake_moves {staked : Int} (word : staked < 2 ^ 63)
    : Asks o (claimStake o.ctx staked) (fun _ r' => Moves o r r') r := by
  simp only [claimStake, Asks, wp_bind, asks_rows]
  cases made : newMigrationMint o.ctx.sender staked (genesisHeight r) with
  | none => exact .refl r
  | some m =>
      simp only [wp_ite, wp_bind, wp_pure]
      refine ⟨fun unripe => ?_, fun _ => .refl r⟩
      refine (accrue_asks o).mono fun b r₁ h => ?_
      obtain ⟨⟨accrued, strides⟩, caught⟩ := h
      have moved : Moves o r r₁ := (Moves.refl r).step fun _ => .ledger <| .accrue accrued strides
      refine ⟨fun _ => moved, fun caughtUp => ?_⟩
      have current := caught (by simpa using caughtUp)
      refine (registerMints_asks o [m] current).mono fun ids r₂ entered => ?_
      obtain ⟨_, rfl⟩ := entered
      have genesis : genesisHeight r₁ = genesisHeight r := accrued.touches.count .genesis rfl
      have registered := moved.step fun _ => .mint <| .enter [m] (by
        simpa using Entry.claimed staked m word (genesis ▸ made) current (by simpa using unripe))
      cases ids <;> exact registered

theorem claimMigration_moves (liquid : Int) {staked : Int} (word : staked < 2 ^ 63)
    (proofHex : List String)
    : Asks o (claimMigration o.ctx liquid staked proofHex) (fun _ r' => Moves o r r') r := by
  simp only [claimMigration, Asks, wp_bind, asks_rows, wp_ite, wp_pure]
  refine ⟨fun _ => .refl r, fun _ => ?_⟩
  cases r.migRoot with
  | none => exact .refl r
  | some rootHex =>
      simp only [wp_ite, wp_pure]
      refine ⟨fun _ => .refl r, fun _ => ⟨fun _ => .refl r, fun _ => ⟨fun _ => .refl r, fun _ =>
        ⟨fun _ => .refl r, fun _ => ⟨fun _ => .refl r, fun _ => ?_⟩⟩⟩⟩⟩
      cases addAmount (r.getAmount .migClaimed) (i64 (liquid + staked)) with
      | none => exact .refl r
      | some next =>
          simp only [wp_ite, wp_pure, wp_bind]
          refine ⟨fun _ => .refl r, fun _ => ?_⟩
          refine (claimStake_moves word).mono fun stake r₁ moved => ?_
          cases stake with
          | none => exact moved
          | some parts =>
              obtain ⟨toOwner, recycled⟩ := parts
              simp only [wp_bind, wp_ite, wp_pure, asks_modify]
              refine (pushSupply_asks (i64_mem _).upper).mono fun _ r₂ minted => ?_
              have raised := moved.trans minted.moves
              refine ⟨fun _ => raised, fun _ => ?_⟩
              refine (creditIfAny_asks o.ctx.sender _).mono fun _ r₃ credited => ?_
              have paid := raised.trans credited.moves
              exact ⟨fun _ => paid, fun _ => ⟨((recordClaim_touches _ _ _ _ _ _).sameSupply (by rfl) (by rfl)),
                paid.step fun _ => .migration <| .recordClaim _ _ _ _ _⟩⟩

theorem recordBurn_moves (account : String) (liquid staked : Int) (proofHex : List String)
    : Asks o (recordBurn account liquid staked proofHex) (fun _ r' => Moves o r r') r := by
  simp only [recordBurn, Asks, wp_bind, asks_rows]
  cases r.migRoot with
  | none => exact .refl r
  | some rootHex =>
      simp only [wp_ite, wp_bind, wp_pure, asks_setRows]
      exact ⟨fun _ => .refl r, fun _ => ⟨fun _ => .refl r, fun _ => ⟨fun _ => .refl r, fun _ =>
        ⟨setMigDone_supply _ _ _, ((Pushes.refl r).record account _).moves⟩⟩⟩⟩

theorem sweepUnclaimed_moves
    : Asks o (sweepUnclaimed o.ctx) (fun _ r' => Moves o r r') r := by
  simp only [sweepUnclaimed, Asks, wp_bind, asks_rows, wp_ite, wp_pure]
  refine ⟨fun _ => .refl r, fun _ => ⟨fun _ => .refl r, fun _ => ⟨fun _ => .refl r, fun _ => ?_⟩⟩⟩
  refine (accrue_asks o).mono fun b r₁ h => ?_
  have moved : Moves o r r₁ := (Moves.refl r).step fun _ => .ledger <| .accrue h.1.1 h.1.2
  refine ⟨fun _ => moved, fun _ => ?_⟩
  have swept {r₂ : Rows} (h : Moves o r r₂) : SameSupply r₂ r₂.setMigSwept ∧ Moves o r r₂.setMigSwept :=
    ⟨⟨rfl, rfl, fun _ => id⟩, h.step fun _ => .migration <| .sweepSnapshot⟩
  simp only [recycleRemainder, wp_ite, wp_bind, wp_pure, asks_modify]
  refine ⟨fun _ => ?_, fun _ => ⟨fun _ => moved, fun _ => swept moved⟩⟩
  refine (pushSupply_asks (i64_mem _).upper).mono fun _ r₂ minted => ?_
  have raised := moved.trans minted.moves
  exact ⟨fun _ => ⟨fun _ => raised, fun _ => swept raised⟩, fun _ =>
    ⟨((recycle_touches _ _).sameSupply (by rfl) (by rfl)), fun _ => raised.recycle _,
      fun _ => swept (raised.recycle _)⟩⟩

-----------------------------------------------------------------------------------------
-- Every request
-----------------------------------------------------------------------------------------

/-- Every operation asks for no more than its caller may and moves the rows by steps, by cases
on the action.
-/
theorem Action.program_moves (o : Origin) {p : Op Result}
    (program : o.action.program o.ctx = some p)
    : Asks o p (fun res r' => Steps o (res.ok = true) o.start r') o.start := by
  have all {p : Op Result} (h : Asks o p (fun _ r' => Moves o o.start r') o.start)
      : Asks o p (fun res r' => Steps o (res.ok = true) o.start r') o.start :=
    h.mono fun _ _ moved => moved _
  cases asked : o.action <;> rw [asked] at program <;> cases program
  case transfer recipient amt => exact all (transfer_moves recipient amt.toInt)
  case burnLiquid amt => exact all (burnLiquid_moves amt.toInt)
  case fundPool target amt => exact fundPool_moves target amt asked
  case settle => exact all settle_moves
  case advance maxDays => exact all (advance_moves maxDays.toInt)
  case createMint principal days => exact all (createMint_moves (Int64.toInt_lt principal) days.toInt)
  case claimMint id => exact all (endMint_moves o.ctx.sender id.toNat false fun _ => rfl)
  case sweepMint owner id => exact all (endMint_moves owner id.toNat true nofun)
  case armGoodAccounting id => exact all (armGoodAccounting_moves id.toNat)
  case setMintDuration days => exact all (setMintDuration_moves days.toInt)
  case promote account => exact all (promote_moves account)
  case setPreference key value => exact all (setPreference_moves key value.toInt)
  case createPost permlink window mode =>
      exact all (createContent_moves permlink window mode "" "" (by simp [asked, Action.publishes]))
  case createComment permlink mode parentAuthor parentPermlink =>
      exact all (createComment_moves permlink mode parentAuthor parentPermlink
        (by simp [asked, Action.publishes]))
  case vote author permlink weightPct => exact all (vote_moves author permlink weightPct asked)
  case promotePost author permlink amt => exact all (promotePost_moves author permlink amt.toInt)
  case payout author permlink => exact all (payout_moves author permlink asked)
  case claimCuration author permlink curator =>
      exact all ((claimCuration_asks author permlink curator fun payee who =>
        ⟨curator, .inl asked, who⟩).mono fun _ _ h => h.1)
  case sweepCuration author permlink => exact all (sweepCuration_moves author permlink)
  case settlePending account => exact all (settlePending_moves account)
  case addLiquidity lcIn maxHbd => exact addLiquidity_moves lcIn maxHbd asked
  case removeLiquidity id =>
      exact removeLiquidity_moves id.toNat (by rw [asked]; rfl) (by rw [asked]; rfl)
  case sweepTranche owner id =>
      exact sweepTranche_moves owner id.toNat (by rw [asked]; rfl) (by rw [asked]; rfl)
  case claimPoolRewards id => exact all (claimPoolRewards_moves id.toNat (by rw [asked]; rfl))
  case swapLCForHBD lcIn minOut => exact all (swapLCForHBD_moves lcIn minOut asked)
  case swapHBDForLC hbdIn minOut => exact all (swapHBDForLC_moves hbdIn minOut asked)
  case creditMigration account liquid staked => exact all (creditMigration_moves account _ (Int64.toInt_lt staked))
  case creditMigrationBatch entries =>
    exact all (creditMigrationBatch_moves fun e there => (entriesOf_words entries e there).2)
  case burnMigrationBatch entries => exact all (burnMigrationBatch_moves _)
  case setSnapshot root q b => exact all (setSnapshot_moves root _ (Int64.toInt_lt b))
  case claimMigration liquid staked proofHex => exact all (claimMigration_moves _ (Int64.toInt_lt staked) proofHex)
  case recordBurn account liquid staked proofHex =>
      exact all (recordBurn_moves account _ _ proofHex)
  case sweepUnclaimed => exact all sweepUnclaimed_moves

section Worlds

variable {A : Type} [Assets A]

/-- A reliable ledger mints what fits. -/
theorem serve_minted (c : Call) {w : World A} (h : w.Reliable)
    : Minted c w.rows (serve c w).2 := by
  cases c with
  | mintSupply key delta => exact (Store.Reliable.mintSupply h key delta).2
  | _ => trivial

/-- What an operation does whatever the ledger answers, it does on a world. -/
theorem asks_serve {α : Type} {o : Origin} {p : Op α} {Q : α → Rows → Prop} {w : World A}
    (reliable : o.sure → w.Reliable) (holds : Asks o p Q w.rows)
    : Q (p.run serve w).2 (p.run serve w).1.rows := by
  have within (c : Call) (w : World A) (reliable : o.sure → w.Reliable)
      (_ : callerNeeds o c w.rows)
      : (o.sure → (serve c w).1.Reliable) ∧ askMay o c w.rows (serve c w).2 (serve c w).1.rows :=
    ⟨fun sure => serve_reliable c (reliable sure), serve_rowsMay c w,
      fun sure => serve_minted c (reliable sure)⟩
  exact (wp_run within holds reliable).2

/-- The operation of a request in the world it finds. -/
def Request.origin (q : Request) (w : World A) : Origin := ⟨q.ctx, q.action, w.rows, w.Reliable⟩

/-- The operation of a request, on a ledger of which nothing is known. -/
def Request.unsure (q : Request) (w : World A) : Origin := ⟨q.ctx, q.action, w.rows, False⟩

/-- A refused request that the chain unwinds leaves its world as it was. -/
theorem Request.exec_unwound {q : Request} (unwinds : q.unwinds = true) (w : World A)
    (refused : (q.exec w).2.ok = false)
    : (q.exec w).1 = w := by
  unfold Request.exec at refused ⊢
  simp_all

/-- Every request moves the rows by steps, which are whole where it succeeds. -/
theorem Request.exec_steps (q : Request) (w : World A)
    : Steps (q.origin w) ((q.exec w).2.ok = true) w.rows (q.exec w).1.rows := by
  have moved : Steps (q.origin w) ((q.action.exec q.ctx w).2.ok = true) w.rows
      (q.action.exec q.ctx w).1.rows := by
    cases program : q.action.program q.ctx with
    | some p =>
        rw [Action.exec_of_program program]
        exact asks_serve id (Action.program_moves (q.origin w) program)
    | none =>
        rw [Action.exec_rows program]
  unfold Request.exec
  dsimp only
  split
  · exact .refl
  · exact moved

end Worlds

/-- What every step keeps, a chain keeps; by induction on the chain. -/
theorem Steps.keep {o : Origin} {whole : Prop} {I : Rows → Prop} {r r' : Rows}
    (chain : Steps o whole r r') (step : ∀ r r', I r → Step o whole r r' → I r') (start : I r)
    : I r' := by
  induction chain with
  | refl => exact start
  | tail _ last ih => exact step _ _ ih last

end LasseCash.State
