import LasseCash.Api.CatchUp
import LasseCash.Engine.MintLifecycle
import LasseCash.State.PathIndependence
import LasseCash.State.ShownPaid

/-! The mints of the account page, `account` of `api/src/magi-backend.ts`: what each would pay if it
were claimed now, computed from the rows of a contract whose walk may lag. Heights and days are
Numbers here, as in the catch-up.
-/

namespace LasseCash.Api

open DoubleRounding Engine MachineInt Program ProRata State

-----------------------------------------------------------------------------------------
-- The page
-----------------------------------------------------------------------------------------

/-- A stored reading as the engine parses its digits: bits that are no signed word read as zero. -/
def readReading (bits : Nat) : Int := max 0 (i64 bits)

/-- A height as the engine parses the digits of its Number, those of a safe one being its own: none
is negative, and none above the signed words.
-/
def engineHeight (height : Int) : Nat := (min height (2 ^ 63 - 1)).toNat

/-- The height at which a term ends, which no word bounds. -/
def maturityOf (m : Mint) : Int :=
  number (number m.startHeight + number (number m.days * heightsPerDay))

/-- The day that a term ends on; the quotient is floored, also before genesis. -/
def matDayOf (r : Rows) (m : Mint) : Int :=
  floorQuotient (number (maturityOf m - number (genesisHeight r))) heightsPerDay

/-- The row of a day's checkpoint, which no day before genesis has. -/
def readCheckpoint (r : Rows) : Int → Int
  | .ofNat day => readReading (r.getU64 (.accAt day))
  | .negSucc _ => 0

/-- The reading at which the page takes a position to stop earning: the checkpoint of its maturity
day once that is walked, and the live accumulator until then.
-/
def shownEnd (r : Rows) (m : Mint) (height : Nat) : Int :=
  if maturityOf m ≤ number height ∧ matDayOf r m < number (accruedDays r) then
    readCheckpoint r (matDayOf r m)
  else readReading (r.getU64 .accPerShare)

/-- The mint that is handed to the engine; its days are few. -/
def previewed (m : Mint) : Mint :=
  { m with
    startHeight := engineHeight (number m.startHeight)
    owner := "", ended := false, accStart := 0, expChunk := 0 }

structure MintView where
  id : Nat
  principal : Int
  shares : Int
  startHeight : Int
  days : Int
  maturityHeight : Int
  mature : Bool
  claimable : Bool
  goodAccounting : Bool
  canArmGoodAccounting : Bool
  ended : Bool
  pendingYield : Int
  ifClaimedNow : Int
  slashedIfClaimedNow : Int
  bleedRemainingPct : Int

def mintView (r : Rows) (height id : Nat) (m : Mint) : MintView :=
  let mature := decide (maturityOf m ≤ number height)
  let accrued := entitlement m.shares m.accStart (shownEnd r m height)
  let current := engineHeight (number height)
  let view := (previewed m).settle current accrued
  { id, mature
    principal := m.principal
    shares := m.shares
    startHeight := number m.startHeight
    days := number m.days
    maturityHeight := maturityOf m
    claimable := mature && decide (today r height > matDayOf r m)
    goodAccounting := m.goodAccounting
    canArmGoodAccounting := (previewed m).canArmGoodAccounting current && !m.ended
    ended := m.ended
    pendingYield := if m.ended then 0 else accrued
    ifClaimedNow := view.toOwner
    slashedIfClaimedNow := view.toRewardPool
    bleedRemainingPct := (previewed m).bleedRemaining current }

/-- The mints of an account, in the order of their ids. -/
def accountMints (r : Rows) (account : String) (height : Nat) : List MintView :=
  (List.range (r.getU64 (.mintSeq account))).filterMap fun n =>
    (r.getMint account (n + 1)).map (mintView r height (n + 1))

/-- A view on the page is that of a stored mint. -/
theorem accountMints_mem {r : Rows} {account : String} {height : Nat} {view : MintView}
    (there : view ∈ accountMints r account height)
    : ∃ id m, r.getMint account id = some m ∧ view = mintView r height id m := by
  obtain ⟨n, -, shown⟩ := List.mem_filterMap.mp there
  obtain ⟨m, found, rfl⟩ := Option.map_eq_some_iff.mp shown
  exact ⟨n + 1, m, found, rfl⟩

-----------------------------------------------------------------------------------------
-- Safe heights
-----------------------------------------------------------------------------------------

/-- (Safe m height) says that the height and the end of the term are below 2^53, where a Number holds
every height.
-/
structure Safe (m : Mint) (height : Nat) : Prop where
  now : height < 2 ^ 53
  term : m.startHeight + m.days * heightsPerDay < (2 ^ 53 : Int)

section SafeHeights

variable {r : Rows} {m : Mint} {height : Nat}

theorem Safe.number_height (safe : Safe m height) : number height = height := by
  have := safe.now
  exact number_safe (abs_le.mpr (by omega))

/-- The page and the contract agree on when the term ends. -/
theorem Safe.maturityOf_eq (safe : Safe m height)
    : maturityOf m = m.maturityHeight ∧ m.maturityHeight < 2 ^ 53 := by
  have term := safe.term
  obtain ⟨lower, upper⟩ := m.days_mem
  unfold minMintDays at lower
  unfold maxMintDays at upper
  unfold maturityOf heightsPerDay at *
  rw [number_safe (n := m.days) (abs_le.mpr (by omega)),
    number_safe (n := m.days * (28800 : Nat)) (abs_le.mpr (by omega)),
    number_safe (n := m.startHeight) (abs_le.mpr (by omega)), number_safe (abs_le.mpr (by omega)),
    Mint.maturityHeight, toU64_of_nonneg (by omega) (by omega)]
  unfold u64 heightsPerDay
  omega

theorem Safe.matDayOf_today (safe : Safe m height) : matDayOf r m = today r m.maturityHeight := by
  obtain ⟨ends, small⟩ := safe.maturityOf_eq
  rw [matDayOf, ends, today, number_safe (n := m.maturityHeight) (abs_le.mpr (by omega))]

/-- They agree on the day too, unless the term ends before genesis. -/
theorem Safe.matDayOf_eq (safe : Safe m height) (begun : genesisHeight r ≤ m.maturityHeight)
    : matDayOf r m = maturityDay r m := by
  rw [safe.matDayOf_today]
  exact today_dayOf safe.maturityOf_eq.2 begun

/-- The engine settles the mint that it is handed as the contract settles the stored one. -/
theorem Safe.previewed_settle (safe : Safe m height) (accrued : Int)
    : (previewed m).settle (engineHeight (number height)) accrued = m.settle height accrued := by
  have now := safe.now
  have term := safe.term
  obtain ⟨lower, -⟩ := m.days_mem
  unfold minMintDays at lower
  unfold heightsPerDay at term
  have current : engineHeight (number height) = height := by
    rw [safe.number_height, engineHeight]
    omega
  have start : engineHeight (number m.startHeight) = m.startHeight := by
    rw [number_safe (abs_le.mpr (by omega)), engineHeight]
    omega
  have same : previewed m = { m with owner := "", ended := false, accStart := 0, expChunk := 0 } := by
    unfold previewed
    simp only [start]
  rw [same, current]
  rfl

end SafeHeights

-----------------------------------------------------------------------------------------
-- Readings
-----------------------------------------------------------------------------------------

section Readings

variable {r : Rows} {m : Mint} {height : Nat}

theorem readReading_lt (bits : Nat) : readReading bits < 2 ^ 63 := by
  have := (i64_mem bits).upper
  unfold readReading
  omega

/-- Reading bits that are negative as zero earns a position nothing, as they do. -/
theorem earned_readReading (shares : Int) {accStart : Int} (nonneg : 0 ≤ accStart) (bits : Nat)
    : earned shares accStart (readReading bits) = earned shares accStart (i64 bits) := by
  have same : max 0 (readReading bits - accStart) = max 0 (i64 bits - accStart) := by
    unfold readReading
    omega
  rw [earned, same, earned]

theorem shownEnd_lt (r : Rows) (m : Mint) (height : Nat) : shownEnd r m height < 2 ^ 63 := by
  unfold shownEnd
  split
  · cases matDayOf r m with
    | ofNat day => exact readReading_lt _
    | negSucc day => exact (by decide : (0 : Int) < 2 ^ 63)
  · exact readReading_lt _

theorem Safe.arrived (safe : Safe m height) (mature : m.isMature height = true)
    : maturityOf m ≤ number height := by
  rw [safe.maturityOf_eq.1, safe.number_height]
  exact Int.ofNat_le.mpr ((Mint.isMature_iff height).mp mature)

/-- The page tells as the contract does whether the maturity day is walked. -/
theorem Safe.passed_iff (safe : Safe m height) (begun : genesisHeight r ≤ m.maturityHeight)
    : matDayOf r m < number (accruedDays r) ↔ maturityDay r m < accruedDays r := by
  have day : maturityDay r m ≤ m.maturityHeight := dayOf_le r _
  have small := safe.maturityOf_eq.2
  rw [safe.matDayOf_eq begun, lt_number_iff (abs_lt.mpr (by omega)), Int.ofNat_lt]

/-- Once the maturity day is walked, the page reads its checkpoint. -/
theorem earned_shownEnd_walked (nonneg : 0 ≤ m.accStart) (safe : Safe m height)
    (mature : m.isMature height = true) (begun : genesisHeight r ≤ m.maturityHeight)
    (walked : maturityDay r m < accruedDays r)
    : earned m.shares m.accStart (shownEnd r m height)
      = earned m.shares m.accStart (i64 (r.getU64 (.accAt (maturityDay r m)))) := by
  unfold shownEnd
  rw [if_pos ⟨safe.arrived mature, (safe.passed_iff begun).mpr walked⟩, safe.matDayOf_eq begun]
  exact earned_readReading m.shares nonneg _

/-- What the page takes a matured position to have earned is no more than what it has earned once the
walk has caught up. By cases on whether the page reads the checkpoint: until it does, the live
accumulator is a floor of the checkpoint that the walk will write.
-/
theorem earned_shownEnd_le {A : Type} [Assets A] {w w₁ : World A}
    (lifted : Lifted (accPerShare w.rows) w w₁) (nonneg : 0 ≤ m.accStart)
    (safe : Safe m height) (mature : m.isMature height = true)
    (scheduled : accruedDays w.rows ≤ maturityDay w.rows m
      → 0 < w.rows.getAmount (.exp (maturityDay w.rows m)))
    (walked : maturityDay w.rows m < accruedDays w₁.rows)
    : earned m.shares m.accStart (shownEnd w.rows m height)
      ≤ earned m.shares m.accStart (i64 (w₁.rows.getU64 (.accAt (maturityDay w.rows m)))) := by
  by_cases begun : genesisHeight w.rows ≤ m.maturityHeight
  · by_cases passed : maturityDay w.rows m < accruedDays w.rows
    · rw [lifted.evolves.checkpoint _ passed]
      exact (earned_shownEnd_walked nonneg safe mature begun passed).le
    · unfold shownEnd
      rw [if_neg fun h => passed ((safe.passed_iff begun).mp h.2),
        earned_readReading m.shares nonneg]
      have ahead := not_lt.mp passed
      have due := lifted.due _ (.inr ⟨ahead, scheduled ahead⟩)
      exact earned_mono _ _ (due.resolve_right fun h => absurd walked (not_lt.mpr h.1))
  · have before : matDayOf w.rows m < 0 := by
      rw [safe.matDayOf_today]
      exact today_early safe.maturityOf_eq.2 (not_le.mp begun)
    have walk : 0 ≤ number (accruedDays w.rows) := le_number (by decide) (Int.natCast_nonneg _)
    unfold shownEnd
    rw [if_pos ⟨safe.arrived mature, before.trans_le walk⟩]
    obtain ⟨day, negative⟩ := Int.eq_negSucc_of_lt_zero before
    have nothing : earned m.shares m.accStart (readCheckpoint w.rows (matDayOf w.rows m)) = 0 := by
      rw [negative]
      change earned m.shares m.accStart 0 = 0
      have flat : max 0 (0 - m.accStart) = 0 := max_eq_left (by omega)
      rw [earned, flat, mul_zero, Int.zero_ediv]
    rw [nothing]
    exact earned_nonneg _ _ _

end Readings

-----------------------------------------------------------------------------------------
-- Settlements
-----------------------------------------------------------------------------------------

section Settlements

variable {m : Mint} {height : Nat}

/-- A position that is ended early is paid a part of its principal, whatever it has earned. -/
theorem settle_early (early : m.isMature height = false) (word : m.principal < 2 ^ 63)
    (accrued : Int)
    : (m.settle height accrued).toOwner = m.payout height 0 := by
  have settled := Mint.settle_eq (m := m) le_rfl (by simpa using word) height
  have paid : (m.settle height 0).toOwner = m.payout height 0 := congrArg Settlement.toOwner settled
  rw [← paid]
  simp only [Mint.settle, early, if_true]

/-- (Covered r r₁ m) says that a matured position is paid what it has earned in `r₁`, where the walk
of `r` has caught up: the shares of its maturity day are still to stop earning or have stopped, the
pool holds what it has earned, and that is a word with its principal.
-/
structure Covered (r r₁ : Rows) (m : Mint) : Prop where
  scheduled : accruedDays r ≤ maturityDay r m → 0 < r.getAmount (.exp (maturityDay r m))
  funded : earned m.shares m.accStart (i64 (r₁.getU64 (.accAt (maturityDay r m))))
    ≤ r₁.getAmount .poolLShare
  word : m.principal + earned m.shares m.accStart (i64 (r₁.getU64 (.accAt (maturityDay r m))))
    < 2 ^ 63

/-- A pool that holds what a position has earned pays it. -/
theorem accruedYield_covered {r : Rows} {accEnd : Int} (nonneg : 0 ≤ m.accStart)
    (word : accEnd < 2 ^ 63)
    (funded : earned m.shares m.accStart accEnd ≤ r.getAmount .poolLShare)
    (fits : m.principal + earned m.shares m.accStart accEnd < 2 ^ 63)
    : accruedYield r m accEnd = earned m.shares m.accStart accEnd := by
  have positive := m.principal_pos
  have small : earned m.shares m.accStart accEnd ≤ maxAmount := by
    unfold maxAmount
    omega
  unfold accruedYield
  dsimp only
  rw [entitlement_eq m.shares nonneg word, if_pos small, if_neg (not_lt.mpr funded)]

variable {A : Type} [Assets A] {w w₁ w' : World A} {ctx : Ctx} {id : Nat} {msg : String} {accEnd : Int}

/-- A matured position that is covered is paid what the page shows, or more; and just that where the
walk was current, unless its term ends before genesis.
-/
theorem covered_claim (readings : Readings w.rows) (lifted : Lifted (accPerShare w.rows) w w₁)
    (safe : Safe m ctx.height) (caught : CaughtUp ctx.height w₁)
    (claimed : MintClaimed ctx id w₁ w' msg m accEnd)
    (mature : m.isMature ctx.height = true) (covered : Covered w.rows w₁.rows m)
    : let shown := (mintView w.rows ctx.height id m).ifClaimedNow
      let paid := (settlementOf ctx w₁ m accEnd).toOwner
      shown ≤ paid ∧ 0 ≤ paid
        ∧ (w₁ = w → genesisHeight w.rows ≤ m.maturityHeight → shown = paid) := by
  have nonneg : 0 ≤ m.accStart := by
    refine readings.mint ctx.sender id m ?_
    rw [← claimed.found, Rows.getMint, Rows.getMint, lifted.mint]
  have sameDay : maturityDay w₁.rows m = maturityDay w.rows m := by
    rw [maturityDay, maturityDay, dayOf, dayOf, lifted.evolves.genesis]
  obtain ⟨walked, read⟩ : maturityDay w.rows m < accruedDays w₁.rows
      ∧ accEnd = i64 (w₁.rows.getU64 (.accAt (maturityDay w.rows m))) := by
    have reading := claimed.reading
    rw [caughtUp_current caught, accEndOf, if_pos ((Mint.isMature_iff _).mp mature), sameDay,
      accAtDay] at reading
    split at reading
    · cases reading
    · rename_i walked
      exact ⟨not_le.mp walked, (Option.some.inj reading).symm⟩
  have word : accEnd < 2 ^ 63 := accEndOf_word claimed.reading
  obtain ⟨scheduled, funded, small⟩ := covered
  have le := earned_shownEnd_le lifted nonneg safe mature scheduled walked
  rw [← read] at funded small le
  have positive := m.principal_pos
  have whole := earned_nonneg m.shares m.accStart (shownEnd w.rows m ctx.height)
  have accrued := accruedYield_covered nonneg word funded small
  have entitled := entitlement_eq m.shares nonneg (shownEnd_lt w.rows m ctx.height)
  have fit : earned m.shares m.accStart (shownEnd w.rows m ctx.height) ≤ maxAmount := by
    unfold maxAmount
    omega
  rw [if_pos fit] at entitled
  have shows : (mintView w.rows ctx.height id m).ifClaimedNow
      = m.payout ctx.height (earned m.shares m.accStart (shownEnd w.rows m ctx.height)) := by
    change ((previewed m).settle (engineHeight (number ctx.height)) (entitlement m.shares m.accStart
      (shownEnd w.rows m ctx.height))).toOwner = _
    rw [entitled, safe.previewed_settle, Mint.settle_eq whole (by omega)]
  have pays : (settlementOf ctx w₁ m accEnd).toOwner
      = m.payout ctx.height (earned m.shares m.accStart accEnd) := by
    rw [settlementOf, caughtUp_current caught, accrued, Mint.settle_eq (whole.trans le) small]
  rw [shows, pays]
  refine ⟨Mint.payout_le whole le _, (Mint.payout_bounds (whole.trans le) _).1, fun same begun => ?_⟩
  subst same
  rw [read, earned_shownEnd_walked nonneg safe mature begun walked]

end Settlements

-----------------------------------------------------------------------------------------
-- Every reachable state
-----------------------------------------------------------------------------------------

/-- After calls of `advance` at its height have caught the walk up, a claim that is accepted credits
at least what the page showed before them, and just that where the walk was current. Heights are
safe ones; a position that is ended early needs no more, a matured one is covered, and for equality
its term does not end before genesis.
-/
theorem page_never_overpromises {A : Type} [Assets A] (store : Store) (assets : A)
    (genesis : UInt64) (requests : List Request) (ctx : Ctx) (caps : List Int)
    (fresh : store.rows = .empty)
    : let w := after (initialised store assets genesis) requests
      let w₁ := walkAll w (caps.map (.accrueSteps ctx.height ·))
      CaughtUp ctx.height w₁ → ∀ view ∈ accountMints w.rows ctx.sender ctx.height,
        ∀ w' msg, (claimMint ctx view.id).run serve w₁ = (w', ok msg)
          → ∃ m accEnd, MintClaimed ctx view.id w₁ w' msg m accEnd
            ∧ (Safe m ctx.height → (m.isMature ctx.height = true → Covered w.rows w₁.rows m)
              → let paid := max 0 (settlementOf ctx w₁ m accEnd).toOwner
                view.ifClaimedNow ≤ paid
                  ∧ (CaughtUp ctx.height w
                    → (m.isMature ctx.height = true → genesisHeight w.rows ≤ m.maturityHeight)
                    → view.ifClaimedNow = paid)) := by
  intro w w₁ caught view there w' msg claims
  have readings : Readings w.rows := after_readings store assets genesis fresh requests
  have words : MintWords w.rows :=
    after_keep (I := fun w => MintWords w.rows) (fun _ q h => q.exec_mintWords h)
      (initialised_mintWords store assets genesis fresh) requests
  have within : ∀ call ∈ caps.map (WalkCall.accrueSteps ctx.height ·),
      call.toHeight ≤ ctx.height := by
    intro call member
    obtain ⟨cap, -, rfl⟩ := List.mem_map.mp member
    exact le_rfl
  have lifted : Lifted (accPerShare w.rows) w w₁ :=
    walkAll_lifted ctx.height_lt readings.acc le_rfl within
  obtain ⟨id, m, found, rfl⟩ := accountMints_mem there
  obtain ⟨m', accEnd, claimed⟩ := claimMint_claimed claims
  have same : m' = m := by
    have stored := claimed.found
    rw [Rows.getMint, lifted.mint, ← Rows.getMint] at stored
    exact Option.some.inj (stored.symm.trans found)
  subst same
  refine ⟨m', accEnd, claimed, fun safe covered => ?_⟩
  by_cases mature : m'.isMature ctx.height = true
  · obtain ⟨le, nonneg, equal⟩ :=
      covered_claim readings lifted safe caught claimed mature (covered mature)
    dsimp only
    rw [max_eq_right nonneg]
    exact ⟨le, fun current begun => equal (walkAll_idle current within) (begun mature)⟩
  · have early : m'.isMature ctx.height = false := Bool.eq_false_iff.mpr mature
    have word := words.principal _ _ m' found
    have shows : (mintView w.rows ctx.height id m').ifClaimedNow = m'.payout ctx.height 0 := by
      rw [← settle_early early word (entitlement m'.shares m'.accStart
        (shownEnd w.rows m' ctx.height)), ← safe.previewed_settle]
      rfl
    have pays : (settlementOf ctx w₁ m' accEnd).toOwner = m'.payout ctx.height 0 :=
      settle_early early word _
    have nonneg := (Mint.payout_bounds (m := m') le_rfl ctx.height).1
    dsimp only
    rw [shows, pays, max_eq_right nonneg]
    exact ⟨le_rfl, fun _ _ => rfl⟩

/-- A matured position whose page is read 29 days behind: one call catches the walk up, and its claim
credits more than the page showed.
-/
theorem page_behind_underpromises
    : let requests : List Request :=
        [⟨{ sender := "hive:owner", height := 1 }, .creditMigration "hive:a" 1000000000000 0, true⟩,
          ⟨{ sender := "hive:a", height := 2 }, .createMint 500000000000 30, true⟩,
          ⟨{ sender := "hive:a", height := 57601 }, .advance 0, true⟩]
      let w := after (initialised Store.newMem MemAssets.new 1) requests
      let ctx : Ctx := { sender := "hive:a", height := 892801 }
      let w₁ := walkAll w ([0].map (.accrueSteps ctx.height ·))
      ∃ view ∈ accountMints w.rows ctx.sender ctx.height, view.ifClaimedNow = 956620990399
        ∧ ∃ w' m accEnd, MintClaimed ctx view.id w₁ w' "claimed 7577625351189" m accEnd
          ∧ view.ifClaimedNow ≤ max 0 (settlementOf ctx w₁ m accEnd).toOwner := by
  intro requests w ctx w₁
  have caught : CaughtUp ctx.height w₁ := by decide +kernel
  have listed : (accountMints w.rows ctx.sender ctx.height).map
      (fun view => (view.id, view.ifClaimedNow)) = [(1, 956620990399)] := by decide +kernel
  have answered : ((claimMint ctx 1).run serve w₁).2 = ok "claimed 7577625351189" := by
    decide +kernel
  have covered : ((w₁.rows.getMint ctx.sender 1).all fun m => decide (
      m.startHeight + m.days * heightsPerDay < (2 ^ 53 : Int)
      ∧ (accruedDays w.rows ≤ maturityDay w.rows m
        → 0 < w.rows.getAmount (.exp (maturityDay w.rows m)))
      ∧ earned m.shares m.accStart (i64 (w₁.rows.getU64 (.accAt (maturityDay w.rows m))))
        ≤ w₁.rows.getAmount .poolLShare
      ∧ m.principal + earned m.shares m.accStart
        (i64 (w₁.rows.getU64 (.accAt (maturityDay w.rows m)))) < 2 ^ 63)) = true := by
    decide +kernel
  obtain ⟨view, there, shown⟩ : ∃ view ∈ accountMints w.rows ctx.sender ctx.height,
      (view.id, view.ifClaimedNow) = (1, 956620990399) :=
    List.mem_map.mp (listed ▸ .head _)
  obtain ⟨first, figure⟩ := Prod.mk.inj shown
  cases claims : (claimMint ctx 1).run serve w₁ with
  | mk w' res =>
  rw [claims] at answered
  obtain rfl : res = ok "claimed 7577625351189" := answered
  obtain ⟨m, accEnd, claimed, holds⟩ := page_never_overpromises Store.newMem MemAssets.new 1 requests
    ctx [0] rfl caught view there w' "claimed 7577625351189" (first ▸ claims)
  have found := claimed.found
  rw [first] at found
  rw [found, Option.all_some] at covered
  obtain ⟨term, scheduled, funded, word⟩ := of_decide_eq_true covered
  exact ⟨view, there, figure, w', m, accEnd, claimed,
    (holds ⟨by decide, term⟩ fun _ => ⟨scheduled, funded, word⟩).1⟩

/-- The sweep of a snapshot whose total is close to the largest word makes the pool wrap: the page
promises a position its principal with its yield, and its claim credits nothing.
-/
theorem page_overpromises_by_wrap
    : let requests : List Request :=
        [⟨{ sender := "hive:owner", height := 1 },
            .creditMigration "hive:a" 10000000000000 0, true⟩,
          ⟨{ sender := "hive:owner", height := 1 }, .setSnapshot
            "0000000000000000000000000000000000000000000000000000000000000000"
            9223362036854775807 0, true⟩,
          ⟨{ sender := "hive:a", height := 2 }, .createMint 10000000000000 200, true⟩,
          ⟨{ sender := "hive:b", height := 6048001 }, .sweepUnclaimed, true⟩]
      let w := after (initialised Store.newMem MemAssets.new 1) requests
      let ctx : Ctx := { sender := "hive:a", height := 6048001 }
      let claimed := (claimMint ctx 1).run serve w
      (results (initialised Store.newMem MemAssets.new 1) requests).all Result.ok = true
        ∧ CaughtUp ctx.height w
        ∧ (accountMints w.rows ctx.sender ctx.height).map
            (fun view => (view.id, view.ifClaimedNow)) = [(1, 55890409534478)]
        ∧ claimed.2 = ok "claimed -9223324091650783809"
        ∧ claimed.1.store.balance ctx.sender = w.store.balance ctx.sender := by
  decide +kernel

end LasseCash.Api
