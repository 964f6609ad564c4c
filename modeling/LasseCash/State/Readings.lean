import LasseCash.State.LiquiditySteps
import LasseCash.State.MintTerms

/-! The readings of the two accumulators: neither ever falls, whatever the requests do, so that the
readings which positions and tranches start from are never negative, nor above what is read now. A
walk leaves no checkpoint below the reading that it starts from.
-/

namespace LasseCash.State

open Engine MachineInt Function

-----------------------------------------------------------------------------------------
-- The walk
-----------------------------------------------------------------------------------------

/-- A day raises the accumulator, if anything. -/
theorem Walk.closeDay_acc_le (sc : EmissionSchedule) {w : Walk} (nonneg : 0 ≤ w.acc)
    (word : InI64 w.acc)
    : w.acc ≤ (w.closeDay sc).acc := by
  rcases w.closeDay_steps sc with same | ⟨lshare, stepped⟩
  · exact same.ge
  · exact stepped ▸ accumulatorStep_le nonneg word.upper _ _ _

/-- The close of a day on which shares stop earning writes its checkpoint, and no other does. -/
theorem Walk.closeDay_rows (sc : EmissionSchedule) (w : Walk)
    : (w.closeDay sc).rows
      = if 0 < w.rows.getAmount (.exp w.day) then
          (w.rows.deleteAmount (.exp w.day)).setU64 (.accAt w.day) (toU64 (w.closeDay sc).acc)
        else w.rows := by
  unfold closeDay
  dsimp only
  generalize emitted : w.emit _ = v
  generalize distributed : v.distribute _ = u
  have rows : u.rows = w.rows := by
    rw [← distributed, (distribute_frame _ _).1, ← emitted, (emit_frame _ _).1]
  have day : u.day = w.day := by
    rw [← distributed, (distribute_frame _ _).2, ← emitted, (emit_frame _ _).2]
  unfold expire
  dsimp only
  rw [rows, day]
  split
  · rfl
  · exact rows

/-- (Above floor w) says that the accumulator of the walk is no lower than `floor`. -/
structure Walk.Above (floor : Int) (w : Walk) : Prop where
  acc : floor ≤ w.acc
  word : InI64 w.acc

/-- (Due floor day w) says that the checkpoint of the day is no lower than `floor`, or that shares
stop earning on the day and the walk has not passed it.
-/
def Walk.Due (floor : Int) (day : Nat) (w : Walk) : Prop :=
  floor ≤ i64 (w.rows.getU64 (.accAt day)) ∨ w.day ≤ day ∧ 0 < w.rows.getAmount (.exp day)

/-- (SameSchedule r r') says that the rows agree on the aggregate schedule and its checkpoints. -/
structure SameSchedule (r r' : Rows) : Prop where
  exp : ∀ day, r'.getAmount (.exp day) = r.getAmount (.exp day)
  accAt : ∀ day, r'.getU64 (.accAt day) = r.getU64 (.accAt day)

theorem sameSchedule_drainKeeps (r : Rows) (day : Nat) : DrainKeeps day (SameSchedule r) where
  shares r₁ account v same := ⟨by simpa using same.exp, same.accAt⟩
  chunk _ _ same := ⟨same.exp, same.accAt⟩
  cursor r₁ v same := ⟨same.exp, by simpa using same.accAt⟩
  closed r₁ same := ⟨same.exp, by simpa using same.accAt⟩

section Days

variable {floor : Int} {w : Walk}

theorem Walk.Above.closeDay (above : w.Above floor) (nonneg : 0 ≤ floor) (sc : EmissionSchedule)
    : (w.closeDay sc).Above floor where
  acc := above.acc.trans (w.closeDay_acc_le sc (nonneg.trans above.acc) above.word)
  word := Walk.closeDay_acc sc above.word

/-- A day more: if it is the day, its checkpoint is the risen accumulator. -/
theorem Walk.Due.closeDay {day : Nat} (due : w.Due floor day) (above : w.Above floor)
    (nonneg : 0 ≤ floor) (sc : EmissionSchedule)
    : (w.closeDay sc).Due floor day := by
  have risen := above.closeDay nonneg sc
  have rows := w.closeDay_rows sc
  unfold Due at due ⊢
  rw [Walk.closeDay_day]
  by_cases today : day = w.day
  · subst today
    refine .inl ?_
    by_cases expires : 0 < w.rows.getAmount (.exp w.day)
    · have written : (w.closeDay sc).rows.getU64 (.accAt w.day) = toU64 (w.closeDay sc).acc := by
        rw [rows, if_pos expires]
        simp
      rw [written, i64_toU64 risen.word]
      exact risen.acc
    · rw [rows, if_neg expires]
      exact due.resolve_right fun later => expires later.2
  · have accAt : (w.closeDay sc).rows.getU64 (.accAt day) = w.rows.getU64 (.accAt day) := by
      rw [rows]
      split
      · simp [today]
      · rfl
    have exp : (w.closeDay sc).rows.getAmount (.exp day) = w.rows.getAmount (.exp day) := by
      rw [rows]
      split
      · simp [today]
      · rfl
    rw [accAt, exp]
    exact due.imp_right fun ⟨ahead, positive⟩ => ⟨by omega, positive⟩

theorem Walk.days_above (above : w.Above floor) (nonneg : 0 ≤ floor) (sc : EmissionSchedule)
    (togo : Nat)
    : (Walk.days sc togo w).Above floor := by
  refine Walk.days_keep (P := Walk.Above floor) ?_ (fun _ above => above.closeDay nonneg sc) above
    togo
  rintro w rows budget - ⟨acc, word⟩
  exact ⟨acc, word⟩

theorem Walk.days_due {day : Nat} (due : w.Due floor day) (above : w.Above floor)
    (nonneg : 0 ≤ floor) (sc : EmissionSchedule) (togo : Nat)
    : (Walk.days sc togo w).Due floor day := by
  refine (Walk.days_keep (P := fun w => w.Above floor ∧ w.Due floor day) ?_ ?_ ⟨above, due⟩ togo).2
  · rintro w rows budget rfl ⟨⟨acc, word⟩, due⟩
    have same := (sameSchedule_drainKeeps w.rows w.day).drainExpiryList
      ⟨fun _ => rfl, fun _ => rfl⟩ w.budget
    refine ⟨⟨acc, word⟩, ?_⟩
    unfold Walk.Due
    dsimp only
    rw [same.accAt, same.exp]
    exact due
  · exact fun w ⟨above, due⟩ => ⟨above.closeDay nonneg sc, due.closeDay above nonneg sc⟩

/-- A walk never goes back. -/
theorem Walk.days_day_le (sc : EmissionSchedule) (togo : Nat) (w : Walk)
    : w.day ≤ (Walk.days sc togo w).day := by
  refine Walk.days_keep (P := fun v => w.day ≤ v.day) (fun _ _ _ _ ahead => ahead) ?_ le_rfl togo
  intro v ahead
  rw [Walk.closeDay_day]
  exact ahead.trans (Nat.le_succ _)

end Days

-----------------------------------------------------------------------------------------
-- The L-Share accumulator
-----------------------------------------------------------------------------------------

variable {o : Origin} {whole : Prop} {r r' : Rows}

theorem Touches.accPerShare {sides : List Side} (touched : Touches sides r r')
    (away : sides.contains .accumulator = false)
    : accPerShare r' = accPerShare r :=
  congrArg (fun bits : Nat => i64 bits) (touched.count .accPerShare away)

theorem accPerShare_word (r : Rows) : InI64 (accPerShare r) := i64_mem _

theorem callWalk_above {floor : Int} (height : Nat) (maxDays : Int) (budget : Nat)
    (nonneg : 0 ≤ floor) (above : floor ≤ accPerShare r)
    : (callWalk r height maxDays budget).Above floor :=
  Walk.days_above (w := Walk.start r budget) ⟨above, accPerShare_word r⟩ nonneg _ _

/-- What a walk commits is its accumulator. -/
theorem Walk.commit_acc {w : Walk} (word : InI64 w.acc) (r : Rows)
    : accPerShare (w.commit r) = w.acc := by
  unfold commit State.accPerShare
  simpa using i64_toU64 word

/-- A walk raises the accumulator, if anything, whether it books its emission or not. -/
theorem Accrues.acc_le {height : Nat} (h : Accrues height r r') (nonneg : 0 ≤ accPerShare r)
    : accPerShare r ≤ accPerShare r' := by
  have committed (maxDays : Int) (budget : Nat) (r₁ : Rows)
      : accPerShare r ≤ accPerShare ((callWalk r height maxDays budget).commit r₁) := by
    have above := callWalk_above height maxDays budget nonneg le_rfl
    rw [Walk.commit_acc above.word]
    exact above.acc
  cases h with
  | idle => exact le_rfl
  | stalled maxDays budget behind due =>
      exact ((callWalk_touches r height maxDays budget).accPerShare rfl).ge
  | booked maxDays budget behind due next sum => exact committed maxDays budget _
  | flat maxDays budget behind none_due => exact committed maxDays budget _

/-- (Due floor day r) says that the checkpoint of the day is no lower than `floor`, or that shares
stop earning on the day and it has not been walked.
-/
def Due (floor : Int) (day : Nat) (r : Rows) : Prop :=
  floor ≤ i64 (r.getU64 (.accAt day)) ∨ accruedDays r ≤ day ∧ 0 < r.getAmount (.exp day)

/-- What a walk commits is due as it was in the walk. -/
theorem Walk.Due.commit {v : Walk} {floor : Int} {day : Nat} (due : v.Due floor day)
    {sides : List Side} (touched : Touches sides v.rows r)
    (schedule : sides.contains .schedule = false)
    (checkpoints : sides.contains .checkpoints = false)
    : State.Due floor day (v.commit r) := by
  have committed := commit_touches v r
  have walked : accruedDays (v.commit r) = v.day := by simp [accruedDays, Walk.commit]
  unfold State.Due
  rw [committed.count (.accAt day) rfl, committed.amount (.exp day) rfl, walked,
    touched.count (.accAt day) checkpoints, touched.amount (.exp day) schedule]
  exact due

/-- A walk leaves no checkpoint that is due below the accumulator it starts from. -/
theorem Accrues.due {height day : Nat} {floor : Int} (h : Accrues height r r')
    (due : Due floor day r) (nonneg : 0 ≤ floor) (above : floor ≤ accPerShare r)
    : Due floor day r' := by
  have walked (maxDays : Int) (budget : Nat)
      : (callWalk r height maxDays budget).Due floor day :=
    Walk.days_due (w := Walk.start r budget) due ⟨above, accPerShare_word r⟩ nonneg _ _
  cases h with
  | idle => exact due
  | stalled maxDays budget behind _ =>
      have same : accruedDays (callWalk r height maxDays budget).rows = accruedDays r :=
        (callWalk_touches r height maxDays budget).count .accDay rfl
      have ahead : accruedDays r ≤ (callWalk r height maxDays budget).day :=
        Walk.days_day_le (schedule r) _ (Walk.start r budget)
      unfold State.Due
      rw [same]
      exact (walked maxDays budget).imp_right fun ⟨before, positive⟩ =>
        ⟨ahead.trans before, positive⟩
  | booked maxDays budget behind _ next sum =>
      let v := callWalk r height maxDays budget
      have touched : Touches [.supply, .contentPools, .liquidityPool, .lsharePool] v.rows
          (v.creditPools (v.rows.setAmount .emitted next)) :=
        ((Touches.refl v.rows).setAmount .emitted next rfl).trans ((creditPools_touches v _).widen (by decide))
      exact (walked maxDays budget).commit touched rfl rfl
  | flat maxDays budget behind none_due =>
      exact (walked maxDays budget).commit (Touches.refl _ : Touches [] _ _) (by rfl) (by rfl)

/-- So does recycled value. -/
theorem recycle_acc_le (amt : Int) (nonneg : 0 ≤ accPerShare r)
    : accPerShare r ≤ accPerShare (recycle r amt) := by
  unfold recycle recycleThroughAccumulator
  dsimp only
  split
  · exact le_rfl
  · have same : accPerShare (addPool r .poolLShare amt) = accPerShare r :=
      ((Touches.refl r).addPool .poolLShare amt rfl : Touches [.lsharePool] _ _).accPerShare (by rfl)
    rw [← same] at nonneg ⊢
    generalize addPool r .poolLShare amt = r₁ at nonneg ⊢
    have word := accumulatorStep_word (accPerShare_word r₁) amt (r₁.getAmount .accHeld)
      (totalShares r₁)
    have upper := (accPerShare_word r₁).upper
    have risen := accumulatorStep_le nonneg upper amt (r₁.getAmount .accHeld) (totalShares r₁)
    generalize accumulatorStep (accPerShare r₁) amt (r₁.getAmount .accHeld) (totalShares r₁) = stepped
      at word risen ⊢
    refine risen.trans (le_of_eq ?_)
    unfold accPerShare
    simpa using (i64_toU64 word).symm

/-- A donation recycles or credits other pools, by cases on the pool it names. -/
theorem fundTarget_acc_le (target : String) (amt : Int) (nonneg : 0 ≤ accPerShare r)
    : accPerShare r ≤ accPerShare (fundTarget r target amt) := by
  have shared (amt : Int) : Touches [.contentPools, .liquidityPool] r (fundPoB r amt) := by
    unfold fundPoB
    split
    · exact .refl r
    · exact ((Touches.refl r).addPool .poolViral _ (by rfl)).addPool .poolDeep _ (by rfl)
  unfold fundTarget
  split
  · exact ((shared amt).accPerShare rfl).ge
  split
  · exact (((Touches.refl r).addPool .poolViral amt rfl : Touches [.contentPools] _ _).accPerShare rfl).ge
  split
  · exact (((Touches.refl r).addPool .poolDeep amt rfl : Touches [.contentPools] _ _).accPerShare rfl).ge
  split
  · exact (((Touches.refl r).addPool .poolLiquidity amt rfl : Touches [.liquidityPool] _ _).accPerShare rfl).ge
  split
  · exact recycle_acc_le amt nonneg
  split
  · have before := ((shared (split amt).proofOfBrain).addPool .poolLiquidity
      (split amt).liquidity rfl).accPerShare rfl
    rw [← before] at nonneg ⊢
    exact recycle_acc_le _ nonneg
  · exact le_rfl

/-- No step lowers the accumulator, by cases on the steps that touch it. -/
theorem Step.acc_le (step : Step o whole r r') (nonneg : 0 ≤ accPerShare r)
    : accPerShare r ≤ accPerShare r' := by
  cases step with
  | mint step => exact (step.touches.accPerShare rfl).ge
  | ledger step =>
      cases step with
      | note account =>
          exact (((Touches.refl r).noteAccount account rfl : Touches [.roll] _ _).accPerShare rfl).ge
      | push delta next positive sum =>
          exact (((Touches.refl r).setAmount .migrated next rfl : Touches [.supply] _ _).accPerShare rfl).ge
      | accrue accrues strides => exact accrues.acc_le nonneg
      | fund done target amt asked first positive => exact fundTarget_acc_le target amt.toInt nonneg
      | recycle amt => exact recycle_acc_le amt nonneg
      | seat account => exact (((Touches.refl r).offer account rfl : Touches [.board] _ _).accPerShare rfl).ge
      | prefer key value => exact le_rfl
      | span days => exact le_rfl
  | content step =>
      cases step with
      | publish | boost | forfeit | claim | clearSlot | roll | owe => exact le_rfl
      | pay author permlink p => exact ((payoutRows_touches r _ author permlink p).accPerShare rfl).ge
      | sweepPot author permlink p => exact recycle_acc_le p.curatorPot (r := r.putPost ..) nonneg
      | advanceHead account => exact ((advanceHead_touches account _ _ r).accPerShare rfl).ge
      | unvote author permlink _ p prev =>
          exact ((setRshares_touches (((Touches.refl r).putPost author permlink _ (by rfl)).setPostVote _
            none (by rfl)) p.window _).accPerShare rfl).ge
      | vote author permlink _ p power =>
          exact ((writeVote_touches r o.ctx author permlink p _ power).accPerShare rfl).ge
  | liquidity step =>
      cases step with
      | settle owner id t => exact ((settleRows_touches r _ id t).accPerShare rfl).ge
      | touch | sellLC | buyLC => exact le_rfl
      | deposit done lcIn maxHbd hbdIn shares r₁ asked first positive priced earned some_earned
          accrues strides =>
          obtain ⟨opened, -⟩ := deposited_touches accrues o.ctx
          have before := (depositRows_touches r lcIn.toInt hbdIn shares).accPerShare rfl
          rw [(opened.accPerShare rfl), ← before]
          exact accrues.acc_le (before ▸ nonneg)
      | withdraw asked owner id t lcOut hbdOut paid r₁ found going own amounts dust noted =>
          exact ((takenFromPool_touches noted).accPerShare rfl).ge
      | strand torn asked owner id t lcOut hbdOut paid =>
          exact ((takeFromPool_touches r t lcOut paid).accPerShare rfl).ge
  | migration step =>
      cases step with
      | record | sweepSnapshot => exact le_rfl
      | recordBurned entries => exact ((recordBurned_touches r entries).accPerShare rfl).ge
      | recordClaim account liquid staked claimed recycled => exact recycle_acc_le recycled nonneg
      | commitSnapshot root qualifierTotal burnTotal =>
          exact ((commitSnapshot_touches r root qualifierTotal burnTotal).accPerShare rfl).ge

-----------------------------------------------------------------------------------------
-- The liquidity accumulator
-----------------------------------------------------------------------------------------

/-- The liquidity accumulator, stored as unsigned bits. -/
def poolReading (r : Rows) : Int := i64 (r.getU64 .poolAcc)

theorem Touches.poolReading {sides : List Side} (touched : Touches sides r r')
    (away : sides.contains .lpAccumulator = false)
    : poolReading r' = poolReading r :=
  congrArg (fun bits : Nat => i64 bits) (touched.count .poolAcc away)

/-- A sync raises the accumulator, if anything, and stores what it reads. -/
theorem sync_reading (r : Rows)
    : (syncPoolAccumulator r).2 = poolReading (syncPoolAccumulator r).1
      ∧ (0 ≤ poolReading r → poolReading r ≤ poolReading (syncPoolAccumulator r).1) := by
  have start : InI64 (poolReading r) := i64_mem _
  have word := accumulatorStep_word start (i64 (r.getAmount .poolLiquidity - r.getAmount .poolAccSeen))
    (r.getAmount .poolAccHeld) (r.getAmount .poolWeight)
  have risen (nonneg : 0 ≤ poolReading r) := accumulatorStep_le nonneg start.upper
    (i64 (r.getAmount .poolLiquidity - r.getAmount .poolAccSeen)) (r.getAmount .poolAccHeld)
    (r.getAmount .poolWeight)
  unfold syncPoolAccumulator
  dsimp only
  split
  · change InI64 (accumulatorStep (i64 (r.getU64 .poolAcc)) _ _ _).1 at word
    change _ → _ ≤ (accumulatorStep (i64 (r.getU64 .poolAcc)) _ _ _).1 at risen
    generalize accumulatorStep (i64 (r.getU64 .poolAcc)) _ _ _ = stepped at word risen ⊢
    have read : poolReading (((r.setU64 .poolAcc (toU64 stepped.1)).setAmount .poolAccHeld
        stepped.2).setAmount .poolAccSeen (r.getAmount .poolLiquidity)) = stepped.1 := by
      unfold poolReading
      simpa using i64_toU64 word
    rw [read]
    exact ⟨rfl, risen⟩
  · exact ⟨rfl, fun _ => le_rfl⟩

/-- A settlement keeps the reading of its sync. -/
theorem settleRows_reading (r : Rows) (height id : Nat) (t : Tranche)
    : poolReading (settleRows r height id t) = (syncPoolAccumulator r).2 := by
  rw [(sync_reading r).1]
  unfold settleRows reweigh takeReward poolReading
  dsimp only
  split <;> simp

/-- No step lowers the accumulator, by cases on the steps that sync it. -/
theorem Step.poolReading_le (step : Step o whole r r') (nonneg : 0 ≤ poolReading r)
    : poolReading r ≤ poolReading r' := by
  cases step with
  | ledger step => exact (step.touches.poolReading rfl).ge
  | mint step => exact (step.touches.poolReading rfl).ge
  | content step => exact (step.touches.poolReading rfl).ge
  | migration step => exact (step.touches.poolReading rfl).ge
  | liquidity step =>
      cases step with
      | settle owner id t =>
          rw [settleRows_reading, (sync_reading r).1]
          exact (sync_reading r).2 nonneg
      | deposit done lcIn maxHbd hbdIn shares r₁ asked first positive priced earned some_earned
          accrues strides =>
          have before : poolReading r₁ = poolReading r :=
            (accrues.touches.poolReading rfl).trans
              ((depositRows_touches r lcIn.toInt hbdIn shares).poolReading rfl)
          have after : poolReading (openTranche (syncPoolAccumulator r₁).1 o.ctx shares
              (syncPoolAccumulator r₁).2) = poolReading (syncPoolAccumulator r₁).1 :=
            (openTranche_touches _ o.ctx shares _).poolReading (by rfl)
          rw [after, ← before]
          rw [← before] at nonneg
          exact (sync_reading r₁).2 nonneg
      | touch | sellLC | buyLC => exact le_rfl
      | withdraw asked owner id t lcOut hbdOut paid r₁ found going own amounts dust noted =>
          exact ((takenFromPool_touches noted).poolReading rfl).ge
      | strand torn asked owner id t lcOut hbdOut paid =>
          exact ((takeFromPool_touches r t lcOut paid).poolReading rfl).ge

/-- (Follows r r' key t') says where the tranche `t'` of `r'` is from: it was there before, with the
same shares, and is read from where it was or from now, or it is new and read from now.
-/
def Follows (r r' : Rows) (key : TrancheKey) (t' : Tranche) : Prop :=
  (∃ t, r.tranche key = some t ∧ t'.shares = t.shares
      ∧ (t'.accStart = t.accStart ∨ t'.accStart = poolReading r'))
    ∨ 0 < t'.shares ∧ t'.accStart = poolReading r'

/-- Writing over a stored tranche. -/
theorem follows_written {owner : String} {id : Nat} {t : Tranche} (written : Tranche)
    (found : r.getTranche owner id = some t)
    (rows : r'.tranche = update r.tranche (t.owner, id) (some written))
    (shares : written.shares = t.shares)
    (reading : written.accStart = t.accStart ∨ written.accStart = poolReading r')
    {key : TrancheKey} {t' : Tranche} (there : r'.tranche key = some t')
    : Follows r r' key t' := by
  rw [rows, getTranche_owner found, update_apply] at there
  obtain ⟨stored, before, rfl⟩ := Option.map_eq_some_iff.mp found
  split at there
  · rename_i here
    obtain rfl := Option.some.inj there
    exact .inl ⟨stored, here ▸ before, shares, reading⟩
  · exact .inl ⟨t', there, rfl, .inl rfl⟩

/-- Where the tranches of a step are from, by cases on the steps that write them. -/
theorem Step.tranches (step : Step o whole r r') {key : TrancheKey} {t' : Tranche}
    (there : r'.tranche key = some t')
    : Follows r r' key t' := by
  have kept (rows : r'.tranche = r.tranche) : Follows r r' key t' :=
    .inl ⟨t', rows ▸ there, rfl, .inl rfl⟩
  cases step with
  | ledger step => exact kept (step.touches.tranche rfl)
  | mint step => exact kept (step.touches.tranche rfl)
  | content step => exact kept (step.touches.tranche rfl)
  | migration step => exact kept (step.touches.tranche rfl)
  | liquidity step =>
      cases step with
      | settle owner id t asked accrued found going own =>
          have rows := settleRows_tranche r o.ctx.height id t
          have reading := settleRows_reading r o.ctx.height id t
          exact follows_written _ found rows rfl (.inr reading.symm) there
      | touch id t found going =>
          exact follows_written { t with lastTouch := o.ctx.height } found rfl rfl (.inl rfl)
            there
      | deposit done lcIn maxHbd hbdIn shares r₁ asked first positive priced earned some_earned
          accrues strides =>
          have before : r₁.tranche = r.tranche :=
            (accrues.touches.tranche rfl).trans ((depositRows_touches r lcIn.toInt hbdIn shares).tranche rfl)
          have reading : poolReading (openTranche (syncPoolAccumulator r₁).1 o.ctx shares
              (syncPoolAccumulator r₁).2) = poolReading (syncPoolAccumulator r₁).1 :=
            (openTranche_touches _ o.ctx shares _).poolReading (by rfl)
          have rows := (openTranche_rows (syncPoolAccumulator r₁).1 o.ctx shares
            (syncPoolAccumulator r₁).2).1
          rw [((syncPoolAccumulator_touches r₁).tranche rfl), before] at rows
          rw [rows, update_apply] at there
          split at there
          · obtain rfl := Option.some.inj there
            exact .inr ⟨some_earned, (sync_reading r₁).1.trans reading.symm⟩
          · exact .inl ⟨t', there, rfl, .inl rfl⟩
      | withdraw asked owner id t lcOut hbdOut paid r₁ found going own amounts dust noted =>
          have before : r₁.tranche = r.tranche := by
            rcases noted with rfl | rfl
            · rfl
            · exact ((Touches.refl _).noteAccount owner (by rfl) : Touches [.roll] _ _).tranche (by rfl)
          have rows : (r₁.putTranche id { t with closed := true, weight := 0 }).tranche
              = update r.tranche (t.owner, id) (some { t with closed := true, weight := 0 }) := by
            rw [← before]
            rfl
          exact follows_written _ found rows rfl (.inl rfl) there
      | strand torn asked owner id t lcOut hbdOut paid => exact kept rfl
      | sellLC | buyLC => exact kept rfl

-----------------------------------------------------------------------------------------
-- Runs
-----------------------------------------------------------------------------------------

/-- (Readings r) says that no reading of an accumulator is negative, and no position starts from a
negative one.
-/
structure Readings (r : Rows) : Prop where
  acc : 0 ≤ accPerShare r
  mint : ∀ owner id m, r.getMint owner id = some m → 0 ≤ m.accStart
  poolAcc : 0 ≤ poolReading r
  tranche : ∀ owner id t, r.getTranche owner id = some t → 0 ≤ t.accStart

theorem Step.readings (step : Step o whole r r') (h : Readings r) : Readings r' where
  acc := h.acc.trans (step.acc_le h.acc)
  mint owner id m found := by
    rcases step.mints found with ⟨before, there, same⟩ | ⟨given, chunk, -, rfl⟩
    · exact same.accStart ▸ h.mint owner id before there
    · exact h.acc
  poolAcc := h.poolAcc.trans (step.poolReading_le h.poolAcc)
  tranche owner id t found := by
    have risen := h.poolAcc.trans (step.poolReading_le h.poolAcc)
    obtain ⟨t', there, rfl⟩ := Option.map_eq_some_iff.mp found
    rcases step.tranches there with ⟨t₀, before, -, reading⟩ | ⟨-, reading⟩
    · rcases reading with kept | now
      · exact kept.symm ▸ h.tranche owner id { t₀ with owner } (Option.map_eq_some_iff.mpr ⟨t₀, before, rfl⟩)
      · exact now.symm ▸ risen
    · exact reading.symm ▸ risen

variable {A : Type} [Assets A]

theorem Request.exec_readings (q : Request) {w : World A} (h : Readings w.rows)
    : Readings (q.exec w).1.rows :=
  (q.exec_steps w).keep (fun _ _ kept step => step.readings kept) h

theorem initialised_readings (store : Store) (assets : A) (genesis : UInt64)
    (fresh : store.rows = .empty)
    : Readings (initialised store assets genesis).rows := by
  have touched := initialised_touches store assets genesis fresh
  have acc : accPerShare (initialised store assets genesis).rows = 0 :=
    (touched.accPerShare rfl).trans (by decide)
  have poolAcc : poolReading (initialised store assets genesis).rows = 0 :=
    (touched.poolReading rfl).trans (by decide)
  refine ⟨acc.ge, fun owner id m found => ?_, poolAcc.ge, fun owner id t found => ?_⟩
  · rw [touched.getMint _ _ rfl] at found
    cases found
  · rw [touched.getTranche _ _ rfl] at found
    cases found

/-- Every state that is reached has such readings. -/
theorem after_readings (store : Store) (assets : A) (genesis : UInt64)
    (fresh : store.rows = .empty) (requests : List Request)
    : Readings (after (initialised store assets genesis) requests).rows :=
  after_keep (I := fun w => Readings w.rows) (fun _ q h => q.exec_readings h)
    (initialised_readings store assets genesis fresh) requests

/-- (Started r) says that every mint and every tranche starts no higher than the reading of its
accumulator.
-/
structure Started (r : Rows) : Prop where
  mint : ∀ owner id m, r.getMint owner id = some m → m.accStart ≤ accPerShare r
  tranche : ∀ owner id t, r.getTranche owner id = some t → t.accStart ≤ poolReading r

/-- What starts now starts at the reading of now, and no reading falls below an older start. -/
theorem Step.started (step : Step o whole r r') (readings : Readings r) (h : Started r)
    : Started r' where
  mint owner id m found := by
    have risen := step.acc_le readings.acc
    rcases step.mints found with ⟨before, there, same⟩ | ⟨given, chunk, -, rfl⟩
    · rw [same.accStart]
      exact (h.mint owner id before there).trans risen
    · exact risen
  tranche owner id t found := by
    have risen := step.poolReading_le readings.poolAcc
    obtain ⟨t', there, rfl⟩ := Option.map_eq_some_iff.mp found
    rcases step.tranches there with ⟨t₀, before, -, reading⟩ | ⟨-, reading⟩
    · rcases reading with kept | now
      · have stored : r.getTranche owner id = some { t₀ with owner } :=
          Option.map_eq_some_iff.mpr ⟨t₀, before, rfl⟩
        have started : t₀.accStart ≤ poolReading r := h.tranche owner id { t₀ with owner } stored
        exact kept.le.trans (started.trans risen)
      · exact now.le
    · exact reading.le

/-- (Lifted floor w w') says that `w'` is what calls of the walk leave of `w`: the past and the mints
are those of `w`, and no reading that was at `floor` or is due there is below it.
-/
structure Lifted (floor : Int) (w w' : World A) : Prop where
  evolves : Evolves w.rows w'.rows
  mint : w'.rows.mint = w.rows.mint
  acc : floor ≤ accPerShare w'.rows
  due : ∀ day, Due floor day w.rows → Due floor day w'.rows

theorem WalkCall.run_lifted {w : World A} {floor : Int} (call : WalkCall)
    (word : call.toHeight < 2 ^ 64) (nonneg : 0 ≤ floor) (above : floor ≤ accPerShare w.rows)
    : Lifted floor w (call.program.run serve w).1 := by
  rw [call.program_eq]
  have walked := always_serve (w := w) (accrueWalk_walked w.rows call.toHeight call.maxDays
    call.budget (.inl word))
  let o : Origin := ⟨⟨"", call.toHeight, 0, word⟩, .settle, w.rows, False⟩
  have accrues := (asks_serve False.elim (accrueWalk_asks o (r := w.rows) call.toHeight call.maxDays
    call.budget)).1
  exact ⟨walked.steady.evolves, walked.mint, above.trans (accrues.acc_le (nonneg.trans above)),
    fun _ due => accrues.due due nonneg above⟩

/-- A sequence of calls, by induction on it. -/
theorem walkAll_lifted {w : World A} {floor : Int} {height : Nat} (word : height < 2 ^ 64)
    (nonneg : 0 ≤ floor) (above : floor ≤ accPerShare w.rows) {calls : List WalkCall}
    (within : ∀ call ∈ calls, call.toHeight ≤ height)
    : Lifted floor w (walkAll w calls) := by
  induction calls generalizing w with
  | nil => exact ⟨.refl w.rows, rfl, above, fun _ due => due⟩
  | cons call rest ih =>
      have first := call.run_lifted ((within call (.head _)).trans_lt word) nonneg above
      have later := ih first.acc fun c there => within c (.tail _ there)
      exact ⟨first.evolves.trans later.evolves, later.mint.trans first.mint, later.acc,
        fun day due => later.due day (first.due day due)⟩

end LasseCash.State
