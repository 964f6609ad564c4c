import LasseCash.Engine.EmissionCurve
import LasseCash.State.Aside

/-! What every operation keeps of the past: the calendar and the emission booked against it,
checkpoints once written, and every registered mint up to its end.
-/

namespace LasseCash.State

open Engine MachineInt Function Program

-----------------------------------------------------------------------------------------
-- The relations
-----------------------------------------------------------------------------------------

/-- The emission counter stands where the schedule is at the first height of the next day to
walk, and that height is a word.
-/
structure Calendar (r : Rows) : Prop where
  settled : r.getU64 .settled = genesisHeight r + accruedDays r * heightsPerDay
  word : r.getU64 .settled < 2 ^ 64
  emitted : r.getAmount .emitted = issuedAfter (accruedDays r * heightsPerDay)

/-- The emission booked so far never exceeds the cap on it. -/
theorem Calendar.emitted_le {r : Rows} (h : Calendar r)
    : 0 ≤ r.getAmount .emitted ∧ r.getAmount .emitted ≤ emissionCap := by
  have := issuedAfter_le (accruedDays r * heightsPerDay)
  rw [h.emitted]
  unfold emissionCap
  omega

/-- (Continues m m') says that `m'` is the same position as `m`, later. -/
structure Continues (m m' : Mint) : Prop where
  principal : m'.principal = m.principal
  shares : m'.shares = m.shares
  startHeight : m'.startHeight = m.startHeight
  days : m'.days = m.days
  accStart : m'.accStart = m.accStart
  expChunk : m'.expChunk = m.expChunk
  ended : m.ended = true → m'.ended = true

/-- (Evolves r r') says that `r'` has the past of `r`. -/
structure Evolves (r r' : Rows) : Prop where
  genesis : genesisHeight r' = genesisHeight r
  init : r'.init = r.init
  calendar : Calendar r → Calendar r'
  chunks : SmallChunks r → SmallChunks r'
  days : accruedDays r ≤ accruedDays r'
  checkpoint : ∀ day < accruedDays r, r'.getU64 (.accAt day) = r.getU64 (.accAt day)
  mintSeq : ∀ account, r.getU64 (.mintSeq account) ≤ r'.getU64 (.mintSeq account)
  mint : ∀ account id m, id ≤ r.getU64 (.mintSeq account) → r.mint (account, id) = some m
    → ∃ m', r'.mint (account, id) = some m' ∧ Continues m m'

/-- The migration's rows agree. -/
structure SameMigration (r r' : Rows) : Prop where
  migrated : r'.getAmount .migrated = r.getAmount .migrated
  total : r'.getAmount .migTotal = r.getAmount .migTotal
  claimed : r'.getAmount .migClaimed = r.getAmount .migClaimed
  burned : r'.getAmount .migBurn = r.getAmount .migBurn
  done : r'.migDone = r.migDone
  root : r'.migRoot = r.migRoot
  swept : r'.migSwept = r.migSwept

/-- Posts, votes and the curation queues agree. -/
structure SameContent (r r' : Rows) : Prop where
  post : r'.post = r.post
  postVote : r'.postVote = r.postVote
  curation : r'.curation = r.curation

/-- What an operation does that is neither a migration nor about content. -/
structure Steady (r r' : Rows) : Prop where
  evolves : Evolves r r'
  migration : SameMigration r r'
  content : SameContent r r'

-----------------------------------------------------------------------------------------
-- They compose
-----------------------------------------------------------------------------------------

theorem Continues.refl (m : Mint) : Continues m m :=
  ⟨rfl, rfl, rfl, rfl, rfl, rfl, id⟩

theorem Continues.trans {m m₁ m₂ : Mint} (h : Continues m m₁) (h' : Continues m₁ m₂)
    : Continues m m₂ where
  principal := h'.principal.trans h.principal
  shares := h'.shares.trans h.shares
  startHeight := h'.startHeight.trans h.startHeight
  days := h'.days.trans h.days
  accStart := h'.accStart.trans h.accStart
  expChunk := h'.expChunk.trans h.expChunk
  ended := h'.ended ∘ h.ended

section Composition

variable {r r₁ r₂ : Rows}

theorem Evolves.trans (h : Evolves r r₁) (h' : Evolves r₁ r₂) : Evolves r r₂ where
  genesis := h'.genesis.trans h.genesis
  init := h'.init.trans h.init
  calendar := h'.calendar ∘ h.calendar
  chunks := h'.chunks ∘ h.chunks
  days := h.days.trans h'.days
  checkpoint day walked :=
    (h'.checkpoint day (walked.trans_le h.days)).trans (h.checkpoint day walked)
  mintSeq account := (h.mintSeq account).trans (h'.mintSeq account)
  mint account id m known found := by
    obtain ⟨m₁, found₁, later⟩ := h.mint account id m known found
    obtain ⟨m₂, found₂, latest⟩ :=
      h'.mint account id m₁ (known.trans (h.mintSeq account)) found₁
    exact ⟨m₂, found₂, later.trans latest⟩

theorem SameMigration.refl (r : Rows) : SameMigration r r :=
  ⟨rfl, rfl, rfl, rfl, rfl, rfl, rfl⟩

theorem SameMigration.trans (h : SameMigration r r₁) (h' : SameMigration r₁ r₂)
    : SameMigration r r₂ where
  migrated := h'.migrated.trans h.migrated
  total := h'.total.trans h.total
  claimed := h'.claimed.trans h.claimed
  burned := h'.burned.trans h.burned
  done := h'.done.trans h.done
  root := h'.root.trans h.root
  swept := h'.swept.trans h.swept

theorem SameContent.refl (r : Rows) : SameContent r r :=
  ⟨rfl, rfl, rfl⟩

theorem SameContent.trans (h : SameContent r r₁) (h' : SameContent r₁ r₂)
    : SameContent r r₂ :=
  ⟨h'.post.trans h.post, h'.postVote.trans h.postVote, h'.curation.trans h.curation⟩

theorem Steady.trans (h : Steady r r₁) (h' : Steady r₁ r₂) : Steady r r₂ :=
  ⟨h.evolves.trans h'.evolves, h.migration.trans h'.migration, h.content.trans h'.content⟩

-----------------------------------------------------------------------------------------
-- Steps aside keep everything
-----------------------------------------------------------------------------------------

theorem Aside.genesis (h : Aside r r₁) : genesisHeight r₁ = genesisHeight r :=
  h.getU64 .genesis rfl

/-- A step aside has the past it started from, as all of it is watched. -/
theorem Aside.evolves (h : Aside r r₁) : Evolves r r₁ where
  genesis := h.genesis
  init := h.init
  calendar c := by
    refine ⟨?_, ?_, ?_⟩
    · rw [h.genesis, h.accruedDays, h.getU64 .settled rfl, c.settled]
    · rw [h.getU64 .settled rfl]
      exact c.word
    · rw [h.accruedDays, h.getAmount .emitted rfl, c.emitted]
  chunks := h.chunks
  days := h.accruedDays.ge
  checkpoint day walked := h.getU64 (.accAt day) (by simpa [CountKey.watched] using walked)
  mintSeq account := (h.getU64 (.mintSeq account) rfl).ge
  mint account id m _ found := ⟨m, by rw [h.mint, found], .refl m⟩

theorem Aside.sameMigration (h : Aside r r₁) : SameMigration r r₁ where
  migrated := h.getAmount .migrated rfl
  total := h.getAmount .migTotal rfl
  claimed := h.getAmount .migClaimed rfl
  burned := h.getAmount .migBurn rfl
  done := h.migDone
  root := h.migRoot
  swept := h.migSwept

theorem Aside.sameContent (h : Aside r r₁) : SameContent r r₁ :=
  ⟨h.post, h.postVote, h.curation⟩

theorem Aside.steady (h : Aside r r₁) : Steady r r₁ :=
  ⟨h.evolves, h.sameMigration, h.sameContent⟩

theorem Steady.refl (r : Rows) : Steady r r :=
  (Aside.refl r).steady

theorem Evolves.refl (r : Rows) : Evolves r r :=
  (Aside.refl r).evolves

end Composition

-----------------------------------------------------------------------------------------
-- The walk
-----------------------------------------------------------------------------------------

/-- The first heights of the days ascend. -/
theorem dayHeight_mono (genesis : Nat) {m n : Nat} (h : m ≤ n)
    : genesis + m * heightsPerDay ≤ genesis + n * heightsPerDay :=
  Nat.add_le_add_left (Nat.mul_le_mul_right _ h) _

/-- (w.Along r) says that the walk `w` started from the rows `r`: its emission is the
schedule's from the first day to walk up to its current day, and its accumulator a word.
-/
structure Walk.Along (r : Rows) (w : Walk) : Prop where
  aside : Aside r w.rows
  day_le : accruedDays r ≤ w.day
  emitted : w.totalEmitted + issuedAfter (accruedDays r * heightsPerDay)
    = issuedAfter (w.day * heightsPerDay)
  lshare : 4 * w.lshareTotal = w.totalEmitted
  acc : InI64 w.acc

theorem Walk.start_along (r : Rows) (budget : Nat) : (Walk.start r budget).Along r :=
  ⟨.refl r, le_rfl, by simp [start], by simp [start], i64_mem _⟩

/-- Retiring the shares of a day writes its checkpoint, which is not walked yet. -/
theorem Walk.expire_aside {r : Rows} {w : Walk} (h : Aside r w.rows) (ahead : accruedDays r ≤ w.day)
    : Aside r w.expire.rows := by
  unfold expire
  dsimp only
  split
  · exact (h.deleteAmount (.exp w.day) rfl).setU64 (.accAt w.day) _
      (by simpa [CountKey.watched] using ahead)
  · exact h

theorem Walk.emit_frame (w : Walk) (amount : Int)
    : (w.emit amount).rows = w.rows ∧ (w.emit amount).day = w.day := by
  unfold Walk.emit
  split <;> exact ⟨rfl, rfl⟩

theorem Walk.distribute_frame (w : Walk) (lshare : Int)
    : (w.distribute lshare).rows = w.rows ∧ (w.distribute lshare).day = w.day := by
  unfold Walk.distribute
  split <;> exact ⟨rfl, rfl⟩

theorem Walk.expire_day (w : Walk) : w.expire.day = w.day := by
  unfold Walk.expire
  dsimp only
  split <;> rfl

/-- A closed day is followed by the next. -/
theorem Walk.closeDay_day (sc : EmissionSchedule) (w : Walk) : (w.closeDay sc).day = w.day + 1 := by
  unfold closeDay
  dsimp only
  rw [expire_day, (distribute_frame _ _).2, (emit_frame _ _).2]

/-- A day leaves the accumulator alone or steps it once, by cases on its parts. -/
theorem Walk.closeDay_steps (sc : EmissionSchedule) (w : Walk)
    : (w.closeDay sc).acc = w.acc
      ∨ ∃ lshare, (w.closeDay sc).acc = (accumulatorStep w.acc lshare w.held w.active).1 := by
  have emit (amount : Int) : (w.emit amount).acc = w.acc ∧ (w.emit amount).held = w.held
      ∧ (w.emit amount).active = w.active := by
    unfold Walk.emit
    split <;> exact ⟨rfl, rfl, rfl⟩
  have distribute (w : Walk) (lshare : Int)
      : (w.distribute lshare).acc = w.acc
        ∨ (w.distribute lshare).acc = (accumulatorStep w.acc lshare w.held w.active).1 := by
    unfold Walk.distribute
    split
    · exact .inr rfl
    · exact .inl rfl
  have expire (w : Walk) : w.expire.acc = w.acc := by
    unfold Walk.expire
    dsimp only
    split <;> rfl
  unfold closeDay
  dsimp only
  rw [expire]
  rcases distribute (w.emit _) _ with same | stepped
  · exact .inl (same.trans (emit _).1)
  · obtain ⟨acc, held, active⟩ := emit _
    rw [acc, held, active] at stepped
    exact .inr ⟨_, stepped⟩

/-- A day keeps the accumulator a word. -/
theorem Walk.closeDay_acc (sc : EmissionSchedule) {w : Walk} (h : InI64 w.acc)
    : InI64 (w.closeDay sc).acc := by
  rcases w.closeDay_steps sc with same | ⟨lshare, stepped⟩
  · exact same ▸ h
  · exact stepped ▸ accumulatorStep_word h _ _ _

/-- The frame of one day's close: only the checkpoint and the aggregate schedule change. -/
theorem Walk.closeDay_aside {r : Rows} {w : Walk} (sc : EmissionSchedule) (h : Aside r w.rows)
    (ahead : accruedDays r ≤ w.day)
    : Aside r (w.closeDay sc).rows := by
  unfold closeDay
  dsimp only
  refine expire_aside ?_ ?_
  · rw [(distribute_frame _ _).1, (emit_frame _ _).1]
    exact h
  · rw [(distribute_frame _ _).2, (emit_frame _ _).2]
    exact ahead

/-- A day's close counts the day's emission, when its last height is a word. -/
theorem Walk.closeDay_emission {w : Walk} (genesis : Nat) (bound : genesisHeight w.rows = genesis)
    (word : genesis + (w.day + 1) * heightsPerDay < 2 ^ 64)
    : let amount : Int := (heightsPerDay * perHeight (w.day / 1095) : Nat)
      (w.closeDay (boundSchedule genesis)).totalEmitted = (w.emit amount).totalEmitted
        ∧ (w.closeDay (boundSchedule genesis)).lshareTotal = (w.emit amount).lshareTotal := by
  have distribute (w : Walk) (lshare : Int)
      : (w.distribute lshare).totalEmitted = w.totalEmitted
        ∧ (w.distribute lshare).lshareTotal = w.lshareTotal := by
    unfold Walk.distribute
    split <;> exact ⟨rfl, rfl⟩
  have expire (w : Walk)
      : w.expire.totalEmitted = w.totalEmitted ∧ w.expire.lshareTotal = w.lshareTotal := by
    unfold Walk.expire
    dsimp only
    split <;> exact ⟨rfl, rfl⟩
  have today : heightOfDay w.rows w.day = genesis + w.day * heightsPerDay := by
    rw [heightOfDay, bound]
    exact u64_of_lt ((dayHeight_mono genesis (Nat.le_succ _)).trans_lt word)
  have tomorrow : heightOfDay w.rows (w.day + 1) = genesis + (w.day + 1) * heightsPerDay := by
    rw [heightOfDay, bound]
    exact u64_of_lt word
  dsimp only
  unfold closeDay
  dsimp only
  rw [today, tomorrow, emissionBetween_day]
  exact ⟨by rw [(expire _).1, (distribute _ _).1], by rw [(expire _).2, (distribute _ _).2]⟩

/-- One day keeps a walk on the schedule; witness: a day's emission is a multiple of four, so
that a quarter of it is exact.
-/
theorem Walk.Along.closeDay {r : Rows} {w : Walk} (h : w.Along r)
    (word : genesisHeight r + (w.day + 1) * heightsPerDay < 2 ^ 64)
    : (w.closeDay (schedule r)).Along r := by
  have aside := closeDay_aside (schedule r) h.aside h.day_le
  have next := closeDay_day (schedule r) w
  obtain ⟨total, lshares⟩ := closeDay_emission (genesisHeight r) h.aside.genesis word
  have day := issuedAfter_day w.day
  have cap := issuedAfter_le ((w.day + 1) * heightsPerDay)
  have before := h.emitted
  have quarter := h.lshare
  have known := issuedAfter_day_mono h.day_le
  have parts : (heightsPerDay * perHeight (w.day / 1095) : Nat)
      = 4 * (7200 * perHeight (w.day / 1095)) := by
    unfold heightsPerDay
    omega
  have slice : split (heightsPerDay * perHeight (w.day / 1095) : Nat) = _ :=
    split_of_nonneg (by omega) (by omega)
  have ahead := h.day_le
  rw [show boundSchedule (genesisHeight r) = schedule r from rfl] at total lshares
  unfold emit at total lshares
  refine ⟨aside, by omega, ?_, ?_, closeDay_acc _ h.acc⟩
  · rw [total, next]
    split
    · dsimp only
      rw [i64_of_nonneg (by omega) (by omega)]
      omega
    · omega
  · rw [total, lshares]
    split
    · dsimp only
      rw [slice]
      dsimp only
      rw [i64_of_nonneg (by omega) (by omega), i64_of_nonneg (by omega) (by omega)]
      omega
    · exact quarter

/-- Draining a day's list keeps a walk on the schedule. -/
theorem Walk.Along.drain {r : Rows} {w : Walk} (h : w.Along r) (rows : Rows) (budget : Nat)
    (aside : Aside w.rows rows)
    : ({ w with rows, budget } : Walk).Along r :=
  ⟨h.aside.trans aside, h.day_le, h.emitted, h.lshare, h.acc⟩

/-- The day loop stays on the schedule and walks at most `togo` days, by induction. -/
theorem Walk.Along.days {r : Rows} {w : Walk} (h : w.Along r) {togo : Nat}
    (word : genesisHeight r + (w.day + togo) * heightsPerDay < 2 ^ 64)
    : (Walk.days (schedule r) togo w).Along r
      ∧ (Walk.days (schedule r) togo w).day ≤ w.day + togo := by
  induction togo generalizing w with
  | zero => exact ⟨h, le_rfl⟩
  | succ togo ih =>
      unfold Walk.days
      have drained := (Aside.refl w.rows).drainExpiryList w.day w.budget
      split
      · rename_i rows budget stopped
        rw [stopped] at drained
        exact ⟨h.drain rows budget drained, by dsimp only; omega⟩
      · rename_i rows budget done
        rw [done] at drained
        have opened := h.drain rows budget drained
        have closed := opened.closeDay ((dayHeight_mono _ (by dsimp only; omega)).trans_lt word)
        have next := closeDay_day (schedule r) { w with rows, budget }
        dsimp only at next
        obtain ⟨along, days⟩ := ih closed ((dayHeight_mono _ (by omega)).trans_lt word)
        exact ⟨along, by omega⟩

/-- Raising the emission counter and stepping aside from there. -/
theorem Aside.afterEmission {r r₁ : Rows} (h : Aside r r₁) (e : Int)
    : Aside (r.setAmount .emitted e) (r₁.setAmount .emitted e) where
  amount k hk := by
    have := h.amount k hk
    simp_all
  count k hk := h.count k hk
  init := h.init
  mint := h.mint
  post := h.post
  postVote := h.postVote
  curation := h.curation
  migDone := h.migDone
  migRoot := h.migRoot
  migSwept := h.migSwept
  chunks := h.chunks

/-- Without an emission the counter may as well be written back. -/
theorem Aside.sameEmission {r r₁ : Rows} (h : Aside r r₁)
    : Aside (r.setAmount .emitted (r.getAmount .emitted)) r₁ where
  amount k hk := by
    have := h.amount k hk
    by_cases key : k = .emitted <;> simp_all
  count k hk := h.count k hk
  init := h.init
  mint := h.mint
  post := h.post
  postVote := h.postVote
  curation := h.curation
  migDone := h.migDone
  migRoot := h.migRoot
  migSwept := h.migSwept
  chunks := h.chunks

/-- The pool credits of a walk step aside. -/
theorem Aside.creditPools {r r₁ : Rows} (h : Aside r r₁) (w : Walk)
    : Aside r (w.creditPools r₁) := by
  unfold Walk.creditPools
  exact (((h.addPool .poolViral _ (by rfl)).addPool .poolDeep _ (by rfl)).addPool .poolLiquidity _ (by rfl)).addPool
    .poolLShare _ (by rfl)

/-- Committing a walk after its emission `e` is booked keeps the past and moves the calendar
to the walk's day.
-/
theorem Walk.commit_steady {r r₁ : Rows} {w : Walk} {e : Int}
    (booked : Aside (r.setAmount .emitted e) r₁) (ahead : accruedDays r ≤ w.day)
    (word : genesisHeight r + w.day * heightsPerDay < 2 ^ 64)
    (issued : Calendar r → e = issuedAfter (w.day * heightsPerDay))
    : Steady r (w.commit r₁) ∧ (w.commit r₁).mint = r.mint
      ∧ accruedDays (w.commit r₁) = w.day := by
  have genesis : genesisHeight r₁ = genesisHeight r := booked.genesis
  have day : accruedDays (w.commit r₁) = w.day := by simp [commit, accruedDays]
  have genesis' : genesisHeight (w.commit r₁) = genesisHeight r := by
    rw [← genesis]
    simp [commit, genesisHeight]
  have height : (w.commit r₁).getU64 .settled = genesisHeight r + w.day * heightsPerDay := by
    rw [← u64_of_lt word, ← genesis]
    simp [commit, heightOfDay, genesisHeight]
  have amount (k : AmountKey) (hk : k.watched = true) (ne : k ≠ .emitted)
      : (w.commit r₁).getAmount k = r.getAmount k := by
    have := booked.amount k hk
    cases k <;> simp_all [commit, AmountKey.watched]
  have emitted : (w.commit r₁).getAmount .emitted = e := by
    have := booked.getAmount .emitted rfl
    simp_all [commit]
  have count (k : CountKey) (hk : k.watched (accruedDays r) = true)
      (settled : k ≠ .settled) (accDay : k ≠ .accDay)
      : (w.commit r₁).getU64 k = r.getU64 k := by
    have := booked.count k hk
    cases k <;> simp_all [commit, CountKey.watched]
  refine ⟨⟨⟨genesis', booked.init, fun c => ⟨?_, ?_, ?_⟩, booked.chunks, day ▸ ahead, ?_, ?_, ?_⟩,
    ⟨?_, ?_, ?_, ?_, booked.migDone, booked.migRoot, booked.migSwept⟩,
    booked.post, booked.postVote, booked.curation⟩, booked.mint, day⟩
  · rw [height, genesis', day]
  · rw [height]
    exact word
  · rw [emitted, day, issued c]
  · exact fun d walked => count (.accAt d) (by simpa [CountKey.watched] using walked)
      (by simp) (by simp)
  · exact fun account => (count (.mintSeq account) rfl (by simp) (by simp)).ge
  · exact fun account id m _ found => ⟨m, (congrFun booked.mint _).trans found, .refl m⟩
  all_goals exact amount _ rfl (by simp)

/-- A height past genesis bounds the first height of every day up to its own. -/
theorem dayOf_word {r : Rows} {height day : Nat} (word : height < 2 ^ 64 ∨ height ≤ genesisHeight r)
    (behind : day < dayOf r height)
    : genesisHeight r + dayOf r height * heightsPerDay < 2 ^ 64 := by
  unfold dayOf at behind ⊢
  split at behind
  · omega
  · rename_i later
    rw [if_neg later]
    have := Nat.div_mul_le_self (height - genesisHeight r) heightsPerDay
    omega

/-- (Walked toHeight r caughtUp r') says that `r'` is what a walk left of `r`, and that it has
caught up when it says so.
-/
structure Walked (toHeight : Nat) (r : Rows) (caughtUp : Bool) (r' : Rows) : Prop where
  steady : Steady r r'
  mint : r'.mint = r.mint
  caught : caughtUp = true → dayOf r' toHeight ≤ accruedDays r'

/-- Every walk to a word is one, whether or not its emission can be minted. -/
theorem accrueWalk_walked (r : Rows) (toHeight : Nat) (maxDays : Int) (budget : Nat)
    (word : toHeight < 2 ^ 64 ∨ toHeight ≤ genesisHeight r)
    : (accrueWalk toHeight maxDays budget).Always rowsMay (Walked toHeight r) r := by
  simp only [accrueWalk, always_bind, always_rows, always_ite, always_pure, always_setRows]
  refine ⟨fun caught => ⟨.refl r, rfl, fun _ => caught⟩, fun behind => ?_⟩
  have ahead := not_le.mp behind
  have bound := dayOf_word word ahead
  generalize togo : (min _ _ : Nat) = n
  have most : accruedDays r + n ≤ dayOf r toHeight := by omega
  have within : genesisHeight r + ((Walk.start r budget).day + n) * heightsPerDay < 2 ^ 64 :=
    (dayHeight_mono _ most).trans_lt bound
  obtain ⟨along, days⟩ := (Walk.start_along r budget).days within
  generalize Walk.days (schedule r) n (Walk.start r budget) = w at along days
  have reach : w.day ≤ dayOf r toHeight := days.trans most
  have finished (r₁ : Rows) (e : Int) (booked : Aside (r.setAmount .emitted e) r₁)
      (issued : Calendar r → e = issuedAfter (w.day * heightsPerDay))
      : Walked toHeight r (decide (w.day ≥ dayOf r toHeight)) (w.commit r₁) := by
    obtain ⟨steady, mint, day⟩ := Walk.commit_steady booked along.day_le
      ((dayHeight_mono _ reach).trans_lt bound) issued
    refine ⟨steady, mint, fun caught => ?_⟩
    rw [day, dayOf, steady.evolves.genesis, ← dayOf]
    exact of_decide_eq_true caught
  simp only [issueEmission, always_ite, always_bind, always_mintSupply, always_pure,
    always_modify]
  refine ⟨fun some_left => ⟨?_, ?_, ?_⟩, fun none_left => ?_⟩
  · simpa using ⟨along.aside.steady, along.aside.mint, by simp⟩
  · intro zero
    omega
  · intro _ next sum
    simp only [Bool.not_true, Bool.false_eq_true, not_false_eq_true, forall_const,
      false_implies, true_and]
    refine finished _ next ((along.aside.afterEmission next).creditPools w) fun c => ?_
    rw [along.aside.getAmount .emitted rfl, c.emitted] at sum
    have emitted := along.emitted
    have cap := issuedAfter_le (w.day * heightsPerDay)
    obtain ⟨exact_sum, _⟩ := addAmount_eq_some (by omega) (by omega) (by omega) (by omega) sum
    omega
  · simp only [Bool.not_true, Bool.false_eq_true, not_false_eq_true, forall_const,
      false_implies, true_and]
    refine finished _ _ along.aside.sameEmission fun c => ?_
    have emitted := along.emitted
    have later := issuedAfter_day_mono along.day_le
    rw [c.emitted]
    omega

end LasseCash.State
