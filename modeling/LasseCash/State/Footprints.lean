import LasseCash.State.Footprint
import LasseCash.State.WalkEnds

/-! The footprints of the functions that operations write with. -/

namespace LasseCash.State

open Engine MachineInt Function

-----------------------------------------------------------------------------------------
-- Accrual
-----------------------------------------------------------------------------------------

variable {r r₁ : Rows}

theorem recycle_touches (r : Rows) (amt : Int)
    : Touches [.lsharePool, .accumulator] r (recycle r amt) := by
  unfold recycle recycleThroughAccumulator
  split
  · exact .refl r
  · exact (((Touches.refl r).addPool .poolLShare amt rfl).setU64 .accPerShare _ (by rfl)).setAmount
      .accHeld _ (by rfl)

/-- A donation, by cases on the pool it names. -/
theorem fundTarget_touches (r : Rows) (target : String) (amt : Int)
    : Touches [.contentPools, .liquidityPool, .lsharePool, .accumulator] r
      (fundTarget r target amt) := by
  have shared (amt : Int) : Touches [.contentPools, .liquidityPool, .lsharePool, .accumulator] r
      (fundPoB r amt) := by
    unfold fundPoB
    split
    · exact .refl r
    · exact ((Touches.refl r).addPool .poolViral _ (by rfl)).addPool .poolDeep _ (by rfl)
  unfold fundTarget
  split
  · exact shared amt
  split
  · exact (Touches.refl r).addPool .poolViral amt rfl
  split
  · exact (Touches.refl r).addPool .poolDeep amt rfl
  split
  · exact (Touches.refl r).addPool .poolLiquidity amt rfl
  split
  · exact (recycle_touches r amt).widen (by decide)
  split
  · exact ((shared _).addPool .poolLiquidity _ (by rfl)).trans ((recycle_touches _ _).widen (by decide))
  · exact .refl r

/-- What a walk writes before it is booked. -/
abbrev walkSides : List Side := [.shares, .schedule, .checkpoints]

theorem walk_drainKeeps (r : Rows) (day : Nat) : DrainKeeps day (Touches walkSides r) where
  shares _ account v h := h.setAmount (.shares account) v rfl
  chunk _ cur h := h.setExpiry day cur none rfl
  cursor _ v h := h.setU64 (.explCursor day) v rfl
  closed _ h := (h.deleteU64 (.explCount day) rfl).deleteU64 (.explCursor day) rfl

theorem expire_touches {w : Walk} (h : Touches walkSides r w.rows)
    : Touches walkSides r w.expire.rows := by
  unfold Walk.expire
  dsimp only
  split
  · exact (h.deleteAmount (.exp _) (by rfl)).setU64 (.accAt _) _ (by rfl)
  · exact h

theorem closeDay_touches {w : Walk} (h : Touches walkSides r w.rows) (sc : EmissionSchedule)
    : Touches walkSides r (w.closeDay sc).rows := by
  unfold Walk.closeDay
  refine expire_touches ?_
  rw [(Walk.distribute_frame _ _).1, (Walk.emit_frame _ _).1]
  exact h

theorem days_touches (sc : EmissionSchedule) (togo : Nat) {w : Walk}
    (h : Touches walkSides r w.rows)
    : Touches walkSides r (Walk.days sc togo w).rows := by
  refine Walk.days_keep (P := fun w => Touches walkSides r w.rows) ?_ ?_ h togo
  · rintro w rows budget rfl touched
    exact (walk_drainKeeps r w.day).drainExpiryList touched w.budget
  · exact fun w touched => closeDay_touches touched sc

theorem callWalk_touches (r : Rows) (height : Nat) (maxDays : Int) (budget : Nat)
    : Touches walkSides r (callWalk r height maxDays budget).rows :=
  days_touches _ _ (.refl r)

theorem creditPools_touches (w : Walk) (r : Rows)
    : Touches [.contentPools, .liquidityPool, .lsharePool] r (w.creditPools r) := by
  unfold Walk.creditPools
  exact ((((Touches.refl r).addPool .poolViral _ (by rfl)).addPool .poolDeep _ (by rfl)).addPool .poolLiquidity
    _ (by rfl)).addPool .poolLShare _ (by rfl)

theorem commit_touches (w : Walk) (r : Rows)
    : Touches [.accumulator, .shares, .calendar] r (w.commit r) := by
  unfold Walk.commit
  exact (((((Touches.refl r).setU64 .accPerShare _ (by rfl)).setAmount .accHeld _ (by rfl)).setAmount .sharesTotal
    _ (by rfl)).setU64 .accDay _ (by rfl)).setU64 .settled _ (by rfl)

-----------------------------------------------------------------------------------------
-- Mints
-----------------------------------------------------------------------------------------

/-- What stamping and scheduling mints writes. -/
abbrev stampSides : List Side := [.mints, .shares, .schedule, .board]

/-- What entering mints writes. -/
abbrev entrySides : List Side := [.mints, .shares, .schedule, .board, .roll]

theorem stampMints_touches (acc : Int) (mints : List Mint) (r : Rows)
    : Touches stampSides r (stampMints acc mints r).1 := by
  induction mints generalizing r with
  | nil => exact .refl r
  | cons m rest ih =>
      exact ((((Touches.refl r).setU64 (.mintSeq m.owner) _ (by rfl)).setAmount (.shares m.owner) _
        (by rfl)).offer m.owner (by rfl)).trans (ih _)

/-- New chunks, by induction on the rounds. -/
theorem newChunks_touches (h : Touches [.schedule] r r₁) (day fuel count : Nat)
    (entries : List ExpiryEntry)
    : Touches [.schedule] r (newChunks day fuel count entries r₁).1 := by
  induction fuel generalizing count entries r₁ with
  | zero => cases entries <;> exact h
  | succ fuel ih =>
      cases entries with
      | nil => exact h
      | cons entry rest => exact ih (h.setExpiry day count _ (by rfl)) _ _

theorem scheduleDay_touches (r : Rows) (stamped : List (Nat × Mint)) (day : Nat)
    : Touches [.schedule] r (scheduleDay r stamped day).1 := by
  unfold scheduleDay scheduleExpiry
  dsimp only
  have summed (v : Int) : Touches [.schedule] r (r.setAmount (.exp day) v) :=
    (Touches.refl r).setAmount (.exp day) v rfl
  unfold scheduleExpiryEntries
  split
  · exact summed _
  · dsimp only
    split
    · exact (newChunks_touches (summed _) _ _ _ _).setU64 (.explCount day) _ (by rfl)
    · exact (newChunks_touches ((summed _).setExpiry day _ _ (by rfl)) _ _ _ _).setU64 (.explCount day) _ (by rfl)

theorem scheduleDays_touches (days : List Nat) (r : Rows) (stamped : List (Nat × Mint))
    : Touches [.schedule] r (scheduleDays days r stamped).1 := by
  induction days generalizing r stamped with
  | nil => exact .refl r
  | cons day days ih => exact (scheduleDay_touches r stamped day).trans (ih _ _)

/-- What storing mints writes, by induction on them. -/
theorem storeMints_touches {sides : List Side} (h : Touches sides r r₁) (stamped : List (Nat × Mint))
    (mints : sides.contains .mints = true) (roll : sides.contains .roll = true)
    : Touches sides r (storeMints r₁ stamped) := by
  induction stamped generalizing r₁ with
  | nil => exact h
  | cons e rest ih => exact ih ((h.putMint e.1 e.2 mints).noteAccount e.2.owner roll)

/-- Once its mints are stamped an entry writes the total of shares, the schedule and the mints. -/
theorem enterMints_stamps (r : Rows) (mints : List Mint)
    : ∃ total, Touches [.mints, .schedule, .roll]
        ((stampMints (accPerShare r) mints r).1.setAmount .sharesTotal total)
        (enterMints r mints).1 :=
  ⟨_, storeMints_touches ((scheduleDays_touches _ _ _).widen (by decide)) _ (by rfl) (by rfl)⟩

/-- Entering mints stamps and schedules them, and then stores them. -/
theorem enterMints_stores (r : Rows) (mints : List Mint)
    : ∃ r₁ stamped, Touches stampSides r r₁ ∧ (enterMints r mints).1 = storeMints r₁ stamped :=
  ⟨_, _, ((stampMints_touches _ mints r).setAmount .sharesTotal _ (by rfl)).trans
    ((scheduleDays_touches _ _ _).widen (by decide)), rfl⟩

theorem enterMints_touches (r : Rows) (mints : List Mint)
    : Touches entrySides r (enterMints r mints).1 := by
  obtain ⟨r₁, stamped, touched, stored⟩ := enterMints_stores r mints
  rw [stored]
  exact storeMints_touches (touched.widen (by decide)) stamped rfl rfl

/-- What closing a mint writes before its owner is offered a seat. -/
abbrev closeSides : List Side := [.lsharePool, .mints, .shares, .schedule]

/-- Closing a mint ends with an offer, by cases on what the walk has retired of it. -/
theorem closeMint_offers (r : Rows) (id : Nat) (m : Mint) (accrued : Int)
    : ∃ r₁, Touches closeSides r r₁ ∧ closeMint r id m accrued = offer r₁ m.owner := by
  have removed {r₁ : Rows} (h : Touches closeSides r r₁)
      (day chunk : Nat) (account : String) (shares : Int)
      : Touches closeSides r
        (removeExpiryEntry r₁ day chunk account shares) := by
    unfold removeExpiryEntry
    split
    · exact h
    split
    · split <;> exact h.setExpiry day chunk _ (by rfl)
    · exact h
  have unscheduled {r₁ : Rows} (h : Touches closeSides r r₁)
      (day : Nat) (shares : Int)
      : Touches closeSides r
        (unscheduleExpiry r₁ day shares) := by
    unfold unscheduleExpiry
    dsimp only
    split
    · exact h
    split
    · exact h.deleteAmount (.exp day) rfl
    · exact h.setAmount (.exp day) _ (by rfl)
  unfold closeMint
  dsimp only
  generalize paid : (if accrued > 0 then _ else r : Rows) = r₁
  have pool : Touches closeSides r r₁ := by
    rw [← paid]
    split
    · exact (Touches.refl r).setAmount .poolLShare _ (by rfl)
    · exact .refl r
  have marked := pool.putMint id { m with ended := true } rfl
  generalize r₁.putMint id { m with ended := true } = r₂ at marked
  generalize released : (if ¬accruedDays r > maturityDay r m
    ∧ ¬r₂.getU64 (.explCursor (maturityDay r m)) > m.expChunk then _ else r₂ : Rows) = r₃
  have freed : Touches closeSides r r₃ := by
    rw [← released]
    split
    · exact removed (marked.setAmount (.shares m.owner) _ (by rfl)) _ _ _ _
    · exact marked
  refine ⟨_, ?_, rfl⟩
  split
  · exact unscheduled (freed.setAmount .sharesTotal _ (by rfl)) _ _
  · exact freed

theorem closeMint_touches (r : Rows) (id : Nat) (m : Mint) (accrued : Int)
    : Touches (.board :: closeSides) r (closeMint r id m accrued) := by
  obtain ⟨r₁, touched, offered⟩ := closeMint_offers r id m accrued
  rw [offered]
  exact (touched.widen (by decide)).offer m.owner rfl

-----------------------------------------------------------------------------------------
-- Content
-----------------------------------------------------------------------------------------

theorem accruePending_touches (r : Rows) (account : String) (amount : Int) (epoch : Nat)
    : Touches [.pending] r (accruePending r account amount epoch) :=
  (Touches.refl r).putPending account _ (by rfl)

theorem claimPool_touches (r : Rows) (w : Window) (rshares : Int)
    : Touches [.contentPools, .tallies] r (claimPool r w rshares).2 := by
  cases w
  · exact ((Touches.refl r).setAmount .poolViral _ (by rfl)).setAmount .rsharesViral _ (by rfl)
  · exact ((Touches.refl r).setAmount .poolDeep _ (by rfl)).setAmount .rsharesDeep _ (by rfl)

/-- The head loop, by induction on the slots to go. -/
theorem advanceHead_touches (account : String) (togo head : Nat) (r : Rows)
    : Touches [.queues] r (advanceHead account togo head r) := by
  induction togo generalizing head r with
  | zero => exact (Touches.refl r).setU64 (.cqHead account) head rfl
  | succ togo ih =>
      unfold advanceHead
      split
      · exact (Touches.refl r).setU64 (.cqHead account) head rfl
      · exact ((Touches.refl r).setCuration account head none rfl).trans (ih _ _)

theorem setRshares_touches (h : Touches [.posts, .votes, .tallies, .queues, .power] r r₁)
    (w : Window) (v : Int)
    : Touches [.posts, .votes, .tallies, .queues, .power] r (r₁.setAmount (rsharesKey w) v) := by
  cases w <;> exact h.setAmount _ v (by rfl)

theorem writeVote_touches (r : Rows) (ctx : Ctx) (author permlink : String) (p : PostRec)
    (rshares : Int) (power : VotePower)
    : Touches [.posts, .votes, .tallies, .queues, .power] r
      (writeVote r ctx author permlink p rshares power) := by
  unfold writeVote cqAppend
  dsimp only
  refine setRshares_touches ?_ _ _
  split
  · exact (((((Touches.refl r).setCuration _ _ _ (by rfl)).setU64 (.cqTail _) _ (by rfl)).putPost _ _ _
      (by rfl)).setPostVote _ _ (by rfl)).putVotePower _ _ _ (by rfl)
  · exact (((Touches.refl r).putPost _ _ _ (by rfl)).setPostVote _ _ (by rfl)).putVotePower _ _ _ (by rfl)

-----------------------------------------------------------------------------------------
-- Liquidity
-----------------------------------------------------------------------------------------

theorem syncPoolAccumulator_touches (r : Rows)
    : Touches [.lpAccumulator] r (syncPoolAccumulator r).1 := by
  unfold syncPoolAccumulator
  dsimp only
  have read : Touches [.lpAccumulator] r r := .refl r
  split
  · exact ((read.setU64 .poolAcc _ (by rfl)).setAmount .poolAccHeld _ (by rfl)).setAmount .poolAccSeen _ (by rfl)
  · exact read.setAmount .poolAccSeen _ (by rfl)

theorem reweigh_touches (r : Rows) (id : Nat) (t next : Tranche)
    : Touches [.tranches] r (reweigh r id t next) :=
  ((Touches.refl r).setAmount .poolWeight _ (by rfl)).putTranche id next (by rfl)

theorem takeReward_touches (r : Rows) (owed : Int)
    : Touches [.liquidityPool, .lpAccumulator] r (takeReward r owed) :=
  ((Touches.refl r).setAmount .poolLiquidity _ (by rfl)).setAmount .poolAccSeen _ (by rfl)

theorem openTranche_touches (r : Rows) (ctx : Ctx) (shares acc : Int)
    : Touches [.tranches] r (openTranche r ctx shares acc) :=
  (((Touches.refl r).setAmount .poolWeight _ (by rfl)).setU64 (.lpSeq ctx.sender) _ (by rfl)).putTranche
    _ _ (by rfl)

theorem takeFromPool_touches (r : Rows) (t : Tranche) (lcOut hbdOut : Int)
    : Touches [.reserves, .tranches] r (takeFromPool r t lcOut hbdOut) :=
  ((((Touches.refl r).setAmount .poolLC _ (by rfl)).setAmount .poolHBD _ (by rfl)).setAmount .poolShares _
    (by rfl)).setAmount .poolWeight _ (by rfl)

-----------------------------------------------------------------------------------------
-- The migration
-----------------------------------------------------------------------------------------

theorem recordBurned_touches (r : Rows) (entries : List MigrationEntry)
    : Touches [.migration] r (recordBurned r entries) := by
  have marked (r₁ : Rows) (h : Touches [.migration] r r₁)
      : Touches [.migration] r (recordBurned r₁ entries) := by
    induction entries generalizing r₁ with
    | nil => exact h
    | cons e rest ih => exact ih _ (h.setMigDone e.account _ (by rfl))
  exact marked r (.refl r)

theorem recordClaim_touches (r : Rows) (account : String) (liquid staked claimed recycled : Int)
    : Touches [.migration, .lsharePool, .accumulator] r
      (recordClaim r account liquid staked claimed recycled) :=
  (((recycle_touches r recycled).widen (by decide)).setAmount .migClaimed _ (by rfl)).setMigDone _ _ (by rfl)

theorem commitSnapshot_touches (r : Rows) (root : String) (qualifierTotal burnTotal : Int)
    : Touches [.migration] r (commitSnapshot r root qualifierTotal burnTotal) :=
  (((Touches.refl r).setMigRoot root rfl).setAmount .migTotal _ (by rfl)).setAmount .migBurn _ (by rfl)

end LasseCash.State
