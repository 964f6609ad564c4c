import LasseCash.State.MigrationMoves

/-! Which sides each kind of step can touch. -/

namespace LasseCash.State

open Engine MachineInt

variable {o : Origin} {whole : Prop} {r r' : Rows}

/-- What the ledger, accrual, donations and settings write. -/
abbrev ledgerSides : List Side :=
  [.supply, .contentPools, .liquidityPool, .lsharePool, .accumulator, .shares, .calendar,
    .schedule, .checkpoints, .roll, .board, .settings]

theorem LedgerWrite.touches (h : LedgerWrite o whole r r') : Touches ledgerSides r r' := by
  cases h with
  | note account => exact (Touches.refl r).noteAccount account rfl
  | push delta next positive sum => exact (Touches.refl r).setAmount .migrated next rfl
  | accrue accrues strides => exact accrues.touches.widen (by decide)
  | fund done target amt asked first positive => exact (fundTarget_touches r target amt.toInt).widen (by decide)
  | recycle amt => exact (recycle_touches r amt).widen (by decide)
  | seat account => exact (Touches.refl r).offer account rfl
  | prefer key value => exact (Touches.refl r).setPreference key _ value (by rfl)
  | span days => exact (Touches.refl r).setDuration _ days (by rfl)

/-- What recycling, noting an account and the settings write. -/
abbrev quietSides : List Side := [.lsharePool, .accumulator, .roll, .board, .settings]

/-- A step of the ledger pushes a position, accrues or donates, or it is a quiet one. -/
theorem LedgerWrite.kinds (h : LedgerWrite o whole r r')
    : Touches quietSides r r' ∨ (∃ next, r' = r.setAmount .migrated next)
      ∨ Accrues o.ctx.height r r'
      ∨ ∃ target amt, whole ∧ o.action = .fundPool target amt ∧ r = o.start ∧ 0 < amt.toInt
        ∧ r' = fundTarget r target amt.toInt := by
  cases h with
  | note account => exact .inl ((Touches.refl r).noteAccount account rfl)
  | push delta next positive sum => exact .inr <| .inl ⟨next, rfl⟩
  | accrue accrues strides => exact .inr <| .inr <| .inl accrues
  | fund done target amt asked first positive =>
      exact .inr <| .inr <| .inr ⟨target, amt, done, asked, first, positive, rfl⟩
  | recycle amt => exact .inl ((recycle_touches r amt).widen (by decide))
  | seat account => exact .inl ((Touches.refl r).offer account rfl)
  | prefer key value => exact .inl ((Touches.refl r).setPreference key _ value (by rfl))
  | span days => exact .inl ((Touches.refl r).setDuration _ days (by rfl))

/-- What entering, converting into, closing and arming mints writes. -/
abbrev mintSides : List Side :=
  [.mints, .shares, .schedule, .board, .roll, .pending, .lsharePool]

theorem MintWrite.touches (h : MintWrite o r r') : Touches mintSides r r' := by
  cases h with
  | enter mints entries => exact (enterMints_touches r mints).widen (by decide)
  | convert account days params m made current =>
      exact ((Touches.refl r).putPending account _ (by rfl)).trans ((enterMints_touches _ _).widen (by decide))
  | close owner id m accEnd found going reading own => exact (closeMint_touches r id m _).widen (by decide)
  | arm id m found able => exact (Touches.refl r).putMint id _ (by rfl)

/-- What publishing, voting, paying out and claiming writes. -/
abbrev contentSides : List Side :=
  [.posts, .votes, .tallies, .queues, .power, .pending, .contentPools, .lsharePool, .accumulator]

theorem setRshares_content (h : Touches contentSides r r') (w : Window) (v : Int)
    : Touches contentSides r (r'.setAmount (rsharesKey w) v) := by
  cases w <;> exact h.setAmount _ v (by rfl)

theorem payoutRows_touches (r : Rows) (height : Nat) (author permlink : String) (p : PostRec)
    : Touches [.posts, .contentPools, .tallies] r (payoutRows r height author permlink p) := by
  have claimed : Touches [.posts, .contentPools, .tallies] r (claimPool r p.window p.rshares).2 :=
    (claimPool_touches r p.window p.rshares).widen (by decide)
  unfold payoutRows
  dsimp only
  split
  · exact claimed.putPost author permlink _ (by rfl)
  · exact claimed.putPost author permlink _ (by rfl)

theorem ContentWrite.touches (h : ContentWrite o r r') : Touches contentSides r r' := by
  cases h with
  | publish author permlink window mode parentAuthor parentPermlink asked unknown =>
      exact (Touches.refl r).putPost author permlink _ (by rfl)
  | boost author permlink p amt found => exact (Touches.refl r).putPost author permlink _ (by rfl)
  | owe account amount => exact (accruePending_touches r account amount _).widen (by decide)
  | pay author permlink p asked accrued found unpaid closed =>
      exact (payoutRows_touches r _ author permlink p).widen (by decide)
  | forfeit author permlink curator p mine due found paid vote worthless =>
      exact (Touches.refl r).setPostVote _ none (by rfl)
  | claim author permlink curator p mine due found paid pot base vote positive worth =>
      exact ((Touches.refl r).putPost author permlink _ (by rfl)).setPostVote _ none (by rfl)
  | sweepPot author permlink p found paid pot ripe =>
      exact ((Touches.refl r).putPost author permlink _ (by rfl)).trans ((recycle_touches _ _).widen (by decide))
  | clearSlot account author permlink n queued settled =>
      exact (Touches.refl r).setCuration account n none rfl
  | advanceHead account => exact (advanceHead_touches account _ _ r).widen (by decide)
  | unvote author permlink weightPct p prev asked found unpaid open_ vote =>
      exact setRshares_content
        (((Touches.refl r).putPost author permlink _ (by rfl)).setPostVote _ none (by rfl)) _ _
  | vote author permlink weightPct p power asked found unpaid open_ opened positive =>
      exact (writeVote_touches r o.ctx author permlink p _ power).widen (by decide)
  | roll account => exact (Touches.refl r).putPending account _ (by rfl)

/-- What the migration writes. -/
abbrev migrationSides : List Side := [.migration, .lsharePool, .accumulator]

theorem MigrationWrite.touches (h : MigrationWrite r r') : Touches migrationSides r r' := by
  cases h with
  | record account receipt => exact (Touches.refl r).setMigDone account receipt rfl
  | recordBurned entries => exact (recordBurned_touches r entries).widen (by decide)
  | recordClaim account liquid staked claimed recycled =>
      exact (recordClaim_touches r account liquid staked claimed recycled).widen (by decide)
  | commitSnapshot root qualifierTotal burnTotal =>
      exact (commitSnapshot_touches r root qualifierTotal burnTotal).widen (by decide)
  | sweepSnapshot => exact (Touches.refl r).setMigSwept rfl

/-- What settlements, deposits, withdrawals and swaps write. -/
abbrev liquiditySides : List Side :=
  [.reserves, .tranches, .lpAccumulator, .liquidityPool, .supply, .contentPools, .lsharePool,
    .accumulator, .shares, .calendar, .schedule, .checkpoints, .roll]

/-- What a deposit writes of the reserves it writes before the accrual. -/
theorem deposited_touches {height : Nat} {lcIn hbdIn shares : Int}
    (accrues : Accrues height (depositRows r lcIn hbdIn shares) r') (ctx : Ctx)
    : Touches [.tranches, .lpAccumulator] r'
        (openTranche (syncPoolAccumulator r').1 ctx shares (syncPoolAccumulator r').2)
      ∧ Touches accrualSides (depositRows r lcIn hbdIn shares) r' :=
  ⟨((syncPoolAccumulator_touches r').widen (by decide)).trans
      ((openTranche_touches _ ctx shares _).widen (by decide)),
    accrues.touches⟩

theorem takenFromPool_touches {t : Tranche} {lcOut paid : Int} {owner : String}
    (noted : r' = takeFromPool r t lcOut paid ∨ r' = noteAccount (takeFromPool r t lcOut paid) owner)
    : Touches [.reserves, .tranches, .roll] r r' := by
  have taken : Touches [.reserves, .tranches, .roll] r (takeFromPool r t lcOut paid) :=
    (takeFromPool_touches r t lcOut paid).widen (by decide)
  rcases noted with rfl | rfl
  · exact taken
  · exact taken.noteAccount owner rfl

theorem LiquidityWrite.touches (h : LiquidityWrite o whole r r')
    : Touches liquiditySides r r' := by
  cases h with
  | settle owner id t asked accrued found going own => exact (settleRows_touches r _ id t).widen (by decide)
  | touch id t found going => exact (Touches.refl r).putTranche id _ (by rfl)
  | deposit done lcIn maxHbd hbdIn shares r' asked first positive priced earned some_earned
      accrues strides =>
      obtain ⟨opened, accrued⟩ := deposited_touches accrues o.ctx
      exact (((depositRows_touches r _ hbdIn shares).widen (by decide)).trans
        (accrued.widen (by decide))).trans (opened.widen (by decide))
  | withdraw asked owner id t lcOut hbdOut paid r' found going own amounts dust noted =>
      exact ((takenFromPool_touches noted).widen (by decide)).putTranche id _ (by rfl)
  | strand torn asked owner id t lcOut hbdOut paid found going own amounts dust =>
      exact (takeFromPool_touches r t lcOut paid).widen (by decide)
  | sellLC lcIn minOut out asked swap =>
      exact ((Touches.refl r).setAmount .poolLC _ (by rfl)).setAmount .poolHBD _ (by rfl)
  | buyLC hbdIn minOut out asked swap =>
      exact ((Touches.refl r).setAmount .poolHBD _ (by rfl)).setAmount .poolLC _ (by rfl)

/-- Initialising a fresh store writes the setup and the calendar. -/
theorem initialised_touches {A : Type} [Assets A] (store : Store) (assets : A) (genesis : UInt64)
    (fresh : store.rows = .empty)
    : Touches [.setup, .calendar] Rows.empty (initialised store assets genesis).rows := by
  have setUp : Touches [.setup, .calendar] Rows.empty ((Rows.empty.setU64 .genesis
      genesis.toNat).setU64 .settled genesis.toNat).setInit :=
    (((Touches.refl _).setU64 .genesis _ (by rfl)).setU64 .settled _ (by rfl)).family .init
      (fun p other => by cases p <;> first | rfl | exact absurd rfl other) rfl
  refine always_serve (w := ⟨store, assets⟩) (Q := fun _ r => Touches _ Rows.empty r) ?_
  rw [World.rows, fresh]
  simp only [init, Program.always_bind, always_rows, always_ite, Program.always_pure,
    always_setRows]
  exact ⟨fun _ => .refl _, fun _ => ⟨fun _ => .refl _, fun _ => setUp⟩⟩

end LasseCash.State
