import LasseCash.State.StepSides

/-! The terms of a position: what is stored about a mint was there before the step, or is what
has just been entered, and its principal is a word.
-/

namespace LasseCash.State

open Engine MachineInt Function

-----------------------------------------------------------------------------------------
-- Entering
-----------------------------------------------------------------------------------------

/-- Stamping writes no mint and stamps what it was given, by induction on the mints. -/
theorem stampMints_mints (acc : Int) (mints : List Mint) (r : Rows)
    : (stampMints acc mints r).1.mint = r.mint
      ∧ ∀ e ∈ (stampMints acc mints r).2, ∃ m ∈ mints, e.2 = { m with accStart := acc } := by
  induction mints generalizing r with
  | nil => exact ⟨rfl, nofun⟩
  | cons m rest ih =>
      unfold stampMints
      dsimp only
      refine ⟨(ih _).1.trans ?_, ?_⟩
      · exact ((Touches.refl _).offer m.owner (by rfl) : Touches [.board] _ _).mint (by rfl)
      · rintro e (_ | ⟨_, later⟩)
        · exact ⟨m, List.mem_cons_self, rfl⟩
        · obtain ⟨given, there, same⟩ := (ih _).2 e later
          exact ⟨given, List.mem_cons_of_mem _ there, same⟩

/-- Stored is what was stored before or is one of the new mints, by induction on them. -/
theorem storeMints_mints (r : Rows) (stamped : List (Nat × Mint)) {owner : String} {id : Nat}
    {m : Mint} (found : (storeMints r stamped).mint (owner, id) = some m)
    : r.mint (owner, id) = some m ∨ (id, m) ∈ stamped ∧ m.owner = owner := by
  induction stamped generalizing r with
  | nil => exact .inl found
  | cons e rest ih =>
      rcases ih _ found with before | ⟨later, own⟩
      · rw [(((Touches.refl _).noteAccount e.2.owner (by rfl) : Touches [.roll] _ _).mint (by rfl))] at before
        simp only [Rows.putMint_mint, update_apply, Prod.mk.injEq] at before
        split at before
        · rename_i here
          obtain rfl := Option.some.inj before
          exact .inr ⟨by rw [here.2]; exact List.mem_cons_self, here.1.symm⟩
        · exact .inl before
      · exact .inr ⟨List.mem_cons_of_mem _ later, own⟩

/-- (Registered r mints m) says that `m` is one of the mints as it is registered: at the reading
of the rows, in some chunk of its day.
-/
def Registered (r : Rows) (mints : List Mint) (m : Mint) : Prop :=
  ∃ given ∈ mints, ∃ chunk, m = { given with accStart := accPerShare r, expChunk := chunk }

/-- Entering mints stores each of them as it is registered, and writes no other mint. -/
theorem enterMints_registers (r : Rows) (mints : List Mint)
    : ∃ r₁ stamped, Touches stampSides r r₁ ∧ r₁.mint = r.mint
      ∧ (∀ e ∈ stamped, Registered r mints e.2)
      ∧ (enterMints r mints).1 = storeMints r₁ stamped := by
  obtain ⟨kept, given⟩ := stampMints_mints (accPerShare r) mints r
  have touched := stampMints_touches (accPerShare r) mints r
  unfold enterMints
  dsimp only
  generalize stampMints (accPerShare r) mints r = stamped at touched kept given
  obtain ⟨r₁, stamped⟩ := stamped
  dsimp only at touched kept given
  generalize total : r₁.setAmount .sharesTotal
    (i64 (totalShares r₁ + sumI64 (mints.map (·.shares)))) = r₂
  have summed : Touches stampSides r r₂ := total ▸ touched.setAmount .sharesTotal _ (by rfl)
  have unwritten : r₂.mint = r.mint := by rw [← total, Rows.setAmount_mint, kept]
  obtain ⟨aside, ids⟩ := scheduleDays_aside (mints.map (maturityDay r₂)).eraseDups r₂ stamped
  refine ⟨_, _, summed.trans ((scheduleDays_touches _ r₂ stamped).widen (by decide)), aside.mint.trans unwritten,
    fun e there => ?_, rfl⟩
  have member : (e.1, { e.2 with expChunk := 0 })
      ∈ stamped.map (fun e => (e.1, { e.2 with expChunk := 0 })) := by
    rw [← ids]
    exact List.mem_map_of_mem there
  obtain ⟨before, entered, same⟩ := List.mem_map.mp member
  obtain ⟨m, offered, stamp⟩ := given before entered
  rw [stamp] at same
  refine ⟨m, offered, e.2.expChunk, ?_⟩
  have unchunked := (Prod.mk.inj same).2
  rw [Mint.mk.injEq] at unchunked ⊢
  obtain ⟨owner, principal, shares, start, days, good, ended, acc, -⟩ := unchunked
  exact ⟨owner.symm, principal.symm, shares.symm, start.symm, days.symm, good.symm, ended.symm,
    acc.symm, rfl⟩

/-- A mint found after an entry was there before, or has been registered. -/
theorem enterMints_mints (r : Rows) (mints : List Mint) {owner : String} {id : Nat} {m : Mint}
    (found : (enterMints r mints).1.getMint owner id = some m)
    : r.getMint owner id = some m ∨ Registered r mints m := by
  obtain ⟨r₁, stamped, -, unwritten, registered, stored⟩ := enterMints_registers r mints
  obtain ⟨m', there, rfl⟩ := Option.map_eq_some_iff.mp found
  rw [stored] at there
  rcases storeMints_mints _ _ there with before | ⟨new, own⟩
  · exact .inl (Option.map_eq_some_iff.mpr ⟨m', unwritten ▸ before, rfl⟩)
  · subst own
    exact .inr (registered _ new)

/-- Closing a mint marks it and writes no other. -/
theorem closeMint_mints (r : Rows) (id : Nat) (m : Mint) (accrued : Int)
    : (closeMint r id m accrued).mint = update r.mint (m.owner, id) (some { m with ended := true }) := by
  obtain ⟨r₁, pool, released⟩ := closeMint_marks r id m accrued
  rw [released.mint, Rows.putMint_mint, pool.mint]

-----------------------------------------------------------------------------------------
-- Steps
-----------------------------------------------------------------------------------------

variable {o : Origin} {whole : Prop} {r r' : Rows}

/-- Reading a mint after one has been written. -/
theorem getMint_written {owner owner' : String} {id id' : Nat} {m m' : Mint}
    (mints : r'.mint = update r.mint (owner', id') (some m'))
    (found : r'.getMint owner id = some m)
    : r.getMint owner id = some m
      ∨ owner = owner' ∧ id = id' ∧ m = { m' with owner := owner' } := by
  obtain ⟨stored, there, rfl⟩ := Option.map_eq_some_iff.mp found
  simp only [mints, update_apply, Prod.mk.injEq] at there
  split at there
  · rename_i here
    obtain rfl := Option.some.inj there
    exact .inr ⟨here.1, here.2, by rw [here.1]⟩
  · exact .inl (Option.map_eq_some_iff.mpr ⟨stored, there, rfl⟩)

/-- (Enters o r m) says that `m` may enter the rows, from outside or out of pending rewards. -/
def Enters (o : Origin) (r : Rows) (m : Mint) : Prop :=
  Entry o.ctx r m ∨ dayOf r o.ctx.height ≤ accruedDays r ∧ ∃ account days params,
    newMint account (r.getPending account).balance days o.ctx.height params = some m

/-- What a step leaves of a mint was there before, with its marks, or has been registered. -/
theorem MintWrite.mints (h : MintWrite o r r') {owner : String} {id : Nat} {m : Mint}
    (found : r'.getMint owner id = some m)
    : (∃ before, r.getMint owner id = some before ∧ Continues before m)
      ∨ ∃ given chunk, Enters o r given
        ∧ m = { given with accStart := accPerShare r, expChunk := chunk } := by
  have old (there : r.getMint owner id = some m)
      : ∃ before, r.getMint owner id = some before ∧ Continues before m := ⟨m, there, .refl m⟩
  cases h with
  | enter mints entries =>
      rcases enterMints_mints r mints found with there | ⟨given, offered, chunk, same⟩
      · exact .inl (old there)
      · exact .inr ⟨given, chunk, .inl (entries given offered), same⟩
  | convert account days params given made current =>
      rcases enterMints_mints _ [given] found with there | ⟨_, offered, chunk, same⟩
      · exact .inl (old there)
      · obtain rfl := List.mem_singleton.mp offered
        exact .inr ⟨_, chunk, .inr ⟨current, account, days, params, made⟩, same⟩
  | close owner' id' given accEnd found' going reading own =>
      rcases getMint_written (closeMint_mints r id' given _) found with there | ⟨rfl, rfl, rfl⟩
      · exact .inl (old there)
      · have own := getMint_owner found'
        exact .inl ⟨given, own ▸ found', rfl, rfl, rfl, rfl, rfl, rfl, fun _ => rfl⟩
  | arm id' given found' able =>
      have mints : (r.putMint id' { given with goodAccounting := true }).mint
          = update r.mint (given.owner, id') (some { given with goodAccounting := true }) := rfl
      rcases getMint_written mints found with there | ⟨rfl, rfl, rfl⟩
      · exact .inl (old there)
      · have own := getMint_owner found'
        exact .inl ⟨given, own ▸ found', rfl, rfl, rfl, rfl, rfl, rfl, fun h => h⟩

theorem Step.mints (h : Step o whole r r') {owner : String} {id : Nat} {m : Mint}
    (found : r'.getMint owner id = some m)
    : (∃ before, r.getMint owner id = some before ∧ Continues before m)
      ∨ ∃ given chunk, Enters o r given
        ∧ m = { given with accStart := accPerShare r, expChunk := chunk } := by
  cases h with
  | mint step => exact step.mints found
  | ledger step => exact .inl ⟨m, step.touches.getMint owner id rfl ▸ found, .refl m⟩
  | content step => exact .inl ⟨m, step.touches.getMint owner id rfl ▸ found, .refl m⟩
  | liquidity step => exact .inl ⟨m, step.touches.getMint owner id rfl ▸ found, .refl m⟩
  | migration step => exact .inl ⟨m, step.touches.getMint owner id rfl ▸ found, .refl m⟩

-----------------------------------------------------------------------------------------
-- Words
-----------------------------------------------------------------------------------------

/-- (MintWords r) says that principals and pending balances are words. -/
structure MintWords (r : Rows) : Prop where
  principal : ∀ owner id m, r.getMint owner id = some m → m.principal < 2 ^ 63
  pending : ∀ account, (r.getPending account).balance < 2 ^ 63

theorem newMint_principal {owner : String} {principal days : Int} {height : Nat} {p : MintParams}
    {m : Mint} (made : newMint owner principal days height p = some m)
    : m.principal = principal := by
  unfold newMint at made
  split at made
  · cases made
  · split at made
    · cases made
    · obtain rfl := Option.some.inj made
      rfl

theorem newMigrationMint_principal {owner : String} {staked : Int} {height : Nat} {m : Mint}
    (made : newMigrationMint owner staked height = some m)
    : m.principal = staked := by
  unfold newMigrationMint at made
  split at made
  · cases made
  · obtain rfl := Option.some.inj made
    rfl

/-- Only words enter. -/
theorem MintWords.enters (words : MintWords r) {m : Mint} (h : Enters o r m)
    : m.principal < 2 ^ 63 := by
  rcases h with entry | ⟨-, account, days, params, made⟩
  · cases entry with
    | locked owner principal days params _ word made current => exact newMint_principal made ▸ word
    | pushed owner staked _ word made early => exact newMigrationMint_principal made ▸ word
    | claimed staked _ word made current unripe => exact newMigrationMint_principal made ▸ word
  · exact newMint_principal made ▸ words.pending account

/-- One account's accrual is rewritten with a word. -/
theorem pending_written (words : ∀ account, (r.getPending account).balance < 2 ^ 63)
    {account : String} {p : PendingAccount} (word : p.balance < 2 ^ 63)
    (pend : r'.pend = update r.pend account (some p))
    : ∀ account, (r'.getPending account).balance < 2 ^ 63 := by
  intro other
  rw [Rows.getPending, pend, update_apply]
  split
  · exact word
  · exact words other

theorem Step.mintWords (h : Step o whole r r') (words : MintWords r) : MintWords r' where
  principal owner id m found := by
    rcases h.mints found with ⟨before, there, same⟩ | ⟨given, chunk, enters, same⟩
    · exact same.principal ▸ words.principal owner id before there
    · have principal : m.principal = given.principal := by rw [same]
      exact principal ▸ words.enters enters
  pending := by
    have quiet (pend : r'.pend = r.pend) : ∀ account, (r'.getPending account).balance < 2 ^ 63 :=
      fun account => by
        rw [Rows.getPending, pend]
        exact words.pending account
    cases h with
    | ledger step => exact quiet (step.touches.pend rfl)
    | liquidity step => exact quiet (step.touches.pend rfl)
    | migration step => exact quiet (step.touches.pend rfl)
    | mint step =>
        cases step with
        | enter mints entries => exact quiet ((enterMints_touches r mints).pend rfl)
        | convert account days params m made current =>
            have zero : (⟨0, o.ctx.epoch⟩ : PendingAccount).balance < 2 ^ 63 := by simp
            exact pending_written words.pending zero ((enterMints_touches _ [m]).pend (by rfl))
        | close owner id m accEnd found going reading own =>
            exact quiet ((closeMint_touches r id m _).pend (by rfl))
        | arm id m found able => exact quiet rfl
    | content step =>
        cases step with
        | owe account amount => exact pending_written words.pending (i64_mem _).upper rfl
        | roll account =>
            have same : ({ r.getPending account with lastEpoch := o.ctx.epoch } :
                PendingAccount).balance < 2 ^ 63 := words.pending account
            exact pending_written words.pending same rfl
        | publish => exact quiet rfl
        | boost => exact quiet rfl
        | pay author permlink p => exact quiet ((payoutRows_touches r _ author permlink p).pend (by rfl))
        | forfeit => exact quiet rfl
        | claim => exact quiet rfl
        | sweepPot => exact quiet ((recycle_touches _ _).pend (by rfl))
        | clearSlot => exact quiet rfl
        | advanceHead account => exact quiet ((advanceHead_touches account _ _ r).pend (by rfl))
        | unvote => exact quiet rfl
        | vote author permlink _ p power =>
            exact quiet ((writeVote_touches r o.ctx author permlink p _ power).pend (by rfl))

section Runs

variable {A : Type} [Assets A]

theorem Request.exec_mintWords (q : Request) {w : World A} (words : MintWords w.rows)
    : MintWords (q.exec w).1.rows :=
  (q.exec_steps w).keep (fun _ _ kept step => step.mintWords kept) words

theorem initialised_mintWords (store : Store) (assets : A) (genesis : UInt64)
    (fresh : store.rows = .empty)
    : MintWords (initialised store assets genesis).rows := by
  have touched := initialised_touches store assets genesis fresh
  refine ⟨fun owner id m found => ?_, fun account => ?_⟩
  · rw [touched.getMint owner id rfl] at found
    cases found
  · rw [Rows.getPending, touched.pend rfl]
    exact (by decide : (0 : Int) < 2 ^ 63)

end Runs

end LasseCash.State
