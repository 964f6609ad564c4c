import LasseCash.Lib.DoubleRounding
import LasseCash.State.WalkProgress
import Mathlib.Algebra.Order.BigOperators.Group.Finset

/-! The catch-up that the site plans ahead of a mint or a claim, `api/src/client.ts`: from chunk
counts alone it sends as many `advance` calls as the walk needs. Heights, days and counts are Numbers
here, so doubles; they are exact up to 2^53.
-/

namespace LasseCash.Api

open DoubleRounding Engine MachineInt Program State

/-- A call as the site bundles it. -/
structure PlannedCall where
  entrypoint : String
  args : String
  deriving DecidableEq

/-- How many days' counts the client reads at most. -/
def catchUpDays : Nat := 64

/-- The days whose chunk counts are read, from `day` on and up to today. -/
def daysRead : Nat → Int → Int → List Int
  | 0, _, _ => []
  | room + 1, day, today =>
      if day ≤ today then day :: daysRead room (number (day + 1)) today else []

/-- The day that a height falls on; the quotient is floored. -/
def today (r : Rows) (height : Nat) : Int :=
  floorQuotient (number (number height - number (genesisHeight r))) heightsPerDay

/-- How many chunks are listed for the days to walk. -/
def chunks (r : Rows) (height : Nat) : Int :=
  let days := daysRead catchUpDays (number (accruedDays r)) (today r height)
  days.foldl (fun chunks day => number (chunks + number (r.getU64 (.explCount day.toNat)))) 0

/-- How many `advance` calls they ask for, without a bound. -/
def slices (r : Rows) (height : Nat) : Int :=
  let entries := number (chunks r height * expiryChunkSize)
  number (ceilQuotient entries maxRetirePerWalk + 1)

/-- The calls to send ahead, none when the walk is current or the contract has no genesis. -/
def readCatchUp (r : Rows) (height cap : Nat) : List PlannedCall :=
  if number (genesisHeight r) = 0 then []
  else if number (accruedDays r) ≥ today r height then []
  else .replicate (min (cap : Int) (max 1 (slices r height))).toNat ⟨"advance", ""⟩

-----------------------------------------------------------------------------------------
-- Days
-----------------------------------------------------------------------------------------

theorem today_dayOf {r : Rows} {height : Nat} (safe : height < 2 ^ 53)
    (later : genesisHeight r ≤ height)
    : today r height = dayOf r height := by
  have difference : (height : Int) - genesisHeight r = (height - genesisHeight r : Nat) :=
    (Int.ofNat_sub later).symm
  rw [today, number_safe (n := height) (abs_le.mpr (by omega)),
    number_safe (n := genesisHeight r) (abs_le.mpr (by omega)), difference,
    number_safe (abs_le.mpr (by omega)), floorQuotient_safe (by decide) (abs_lt.mpr (by omega)),
    dayOf]
  split
  · rename_i early
    rw [Nat.sub_eq_zero_of_le early]
    rfl
  · rfl

theorem dayOf_le (r : Rows) (height : Nat) : dayOf r height ≤ height := by
  unfold dayOf
  split
  · exact Nat.zero_le _
  · exact (Nat.div_le_self _ _).trans (Nat.sub_le _ _)

/-- A height before genesis is not ahead of any walk. -/
theorem today_early {r : Rows} {height : Nat} (safe : height < 2 ^ 53)
    (early : height < genesisHeight r)
    : today r height < 0 := by
  have first : ((height + 1 : Nat) : Int) ≤ number (genesisHeight r) :=
    le_number (abs_le.mpr (by omega)) (Int.ofNat_le.mpr early)
  refine floorQuotient_negative (by decide) ?_
  rw [number_safe (n := (height : Int)) (abs_le.mpr (by omega))]
  have := number_le (n := (height : Int) - number (genesisHeight r)) (m := -1) (by decide)
    (by push_cast at first; omega)
  omega

-----------------------------------------------------------------------------------------
-- Counts
-----------------------------------------------------------------------------------------

/-- Counts that are added up in Numbers fall short of no safe number that their sum reaches; by
induction on them.
-/
theorem le_foldl_number (counts : List Nat) {acc n : Int} (nonneg : 0 ≤ acc) (safe : n ≤ 2 ^ 53)
    (le : n ≤ acc + counts.sum)
    : n ≤ counts.foldl (fun acc (count : Nat) => number (acc + number count)) acc := by
  induction counts generalizing acc with
  | nil => simpa using le
  | cons count rest ih =>
      rw [List.sum_cons] at le
      have counted : min (2 ^ 53) (count : Int) ≤ number count :=
        le_number (abs_le.mpr (by omega)) (min_le_right _ _)
      have whole : 0 ≤ number (acc + number count) :=
        le_number (by decide) (by omega)
      have reached : n ≤ number (acc + number count) + rest.sum := by
        rcases le_or_gt n rest.sum with enough | more
        · omega
        · have := le_number (n := n - rest.sum) (m := acc + number count) (abs_le.mpr (by omega))
            (by omega)
          omega
      exact ih whole reached

theorem chunks_nonneg (r : Rows) (height : Nat) : 0 ≤ chunks r height := by
  have folded := le_foldl_number ((daysRead catchUpDays (number (accruedDays r)) (today r height)).map
    fun day => r.getU64 (.explCount day.toNat)) le_rfl (n := 0) (by decide)
    ((Int.natCast_nonneg _).trans_eq (zero_add _).symm)
  rwa [List.foldl_map] at folded

/-- At least one call is planned. -/
theorem one_le_slices (r : Rows) (height : Nat) : 1 ≤ slices r height := by
  have entries : 0 ≤ number (chunks r height * expiryChunkSize) :=
    le_number (by decide) (mul_nonneg (chunks_nonneg r height) (Int.natCast_nonneg _))
  have quotient := lt_ceilQuotient (k := -1) (n := number (chunks r height * expiryChunkSize))
    (d := maxRetirePerWalk) (by decide) (by decide)
    (le_trans (by decide) (mul_nonneg (by decide) entries))
  exact le_number (by decide) (by omega)

/-- The days read cover those that are left to walk, if there are not too many; by induction on
the room for them.
-/
theorem sum_daysRead (f : Nat → Nat) {room day : Nat} {last : Nat} (safe : last < 2 ^ 53)
    (enough : last ≤ day + room)
    : ∑ d ∈ Finset.Ico day last, f d ≤ ((daysRead room day last).map fun d => f d.toNat).sum := by
  induction room generalizing day with
  | zero => simp [Finset.Ico_eq_empty_of_le (show last ≤ day by omega)]
  | succ room ih =>
      unfold daysRead
      by_cases before : day < last
      · have next : number ((day : Int) + 1) = (day + 1 : Nat) :=
          number_safe (abs_le.mpr (by omega))
        rw [if_pos (Int.ofNat_le.mpr before.le), List.map_cons, List.sum_cons, next,
          Finset.sum_eq_sum_Ico_succ_bot before]
        exact Nat.add_le_add_left (ih (by omega)) _
      · simp [Finset.Ico_eq_empty_of_le (not_lt.mp before)]

/-- The chunks that are counted fall short of no safe number of those that are ahead. -/
theorem le_chunks {r : Rows} {height : Nat} (safe : height < 2 ^ 53)
    (later : genesisHeight r ≤ height) (behind : accruedDays r ≤ dayOf r height)
    (near : dayOf r height ≤ accruedDays r + 63) {n : Int} (exact : n ≤ 2 ^ 53)
    (le : n ≤ work r (accruedDays r) (dayOf r height))
    : n ≤ chunks r height := by
  have day := dayOf_le r height
  have listed : work r (accruedDays r) (dayOf r height)
      ≤ ((daysRead catchUpDays (accruedDays r) (dayOf r height)).map
        fun day => r.getU64 (.explCount day.toNat)).sum := by
    refine le_trans (Finset.sum_le_sum fun day _ => Nat.sub_le _ _) ?_
    exact sum_daysRead (fun day => r.getU64 (.explCount day)) (by omega)
      (near.trans (by simp [catchUpDays]))
  have rounded : number (accruedDays r) = accruedDays r := number_safe (abs_le.mpr (by omega))
  have folded := le_foldl_number _ le_rfl exact
    (le.trans ((Int.ofNat_le.mpr listed).trans_eq (zero_add _).symm))
  rw [List.foldl_map] at folded
  rw [chunks, today_dayOf safe later, rounded]
  exact folded

/-- Counts ask for a call for every two chunks that are ahead, and one more: with a chunk more the
quotient would be a half above, and ask for a call more.
-/
theorem work_le_slices {r : Rows} {height : Nat} (safe : height < 2 ^ 53)
    (later : genesisHeight r ≤ height) (behind : accruedDays r ≤ dayOf r height)
    (near : dayOf r height ≤ accruedDays r + 63) (few : 50 * slices r height ≤ 2 ^ 53)
    : (work r (accruedDays r) (dayOf r height) : Int) ≤ 2 * (slices r height - 1) := by
  by_contra short
  have planned := one_le_slices r height
  have counted := le_chunks safe later behind near (n := 2 * slices r height - 1) (by omega) (by omega)
  have size : (expiryChunkSize : Int) = 25 := rfl
  have entries : 50 * slices r height - 25 ≤ number (chunks r height * expiryChunkSize) := by
    refine le_number (abs_le.mpr (by omega)) ?_
    rw [size]
    omega
  have quotient : slices r height - 1
      < ceilQuotient (number (chunks r height * expiryChunkSize)) maxRetirePerWalk := by
    have budget : (maxRetirePerWalk : Int) = 50 := rfl
    refine lt_ceilQuotient (by decide) (abs_le.mpr (by omega)) ?_
    rw [budget]
    omega
  have more : slices r height + 1 ≤ slices r height :=
    le_number (abs_le.mpr (by omega)) (by omega)
  omega

-----------------------------------------------------------------------------------------
-- The plan is enough
-----------------------------------------------------------------------------------------

section Worlds

variable {A : Type} [Assets A]

/-- Initialising a fresh store at a height sets its genesis to it. -/
theorem initialised_genesis (store : Store) (assets : A) {genesis : UInt64}
    (fresh : store.rows = .empty) (named : genesis ≠ 0)
    : genesisHeight (initialised store assets genesis).rows = genesis.toNat := by
  have positive : genesis.toNat ≠ 0 := fun zero => named (UInt64.toNat_inj.mp zero)
  refine always_serve (w := ⟨store, assets⟩) (Q := fun _ r => genesisHeight r = genesis.toNat) ?_
  rw [World.rows, fresh]
  simp only [init, always_bind, always_rows, always_ite, always_pure, always_setRows]
  refine ⟨of_refused, fun _ => ⟨fun zero => absurd zero positive, fun _ => ?_⟩⟩
  simp [genesisHeight]

/-- Requests never move the genesis, by induction on them. -/
theorem after_genesis {w : World A} (settled : Settled w.rows) (requests : List Request)
    : genesisHeight (after w requests).rows = genesisHeight w.rows := by
  induction requests generalizing w with
  | nil => rfl
  | cons q rest ih =>
      exact (ih (Request.exec_settled settled)).trans
        (q.exec_effect w settled.words).evolves.genesis

/-- Where the walk to a day ends, that day has been reached. -/
theorem walkedTo_day {s : Store} {height : Nat} (word : height < 2 ^ 64)
    (behind : accruedDays s.rows ≤ dayOf s.rows height)
    : accruedDays (s.walkedTo (dayOf s.rows height)).rows = dayOf s.rows height := by
  rcases behind.eq_or_lt with current | behind
  · rw [Store.walkedTo_self current.ge, current]
  · rw [Store.walkedTo, if_neg behind.not_ge, Store.book_day]
    have start : (Walk.start s.rows 0).day = accruedDays s.rows := rfl
    have bound := dayOf_word (.inl word) behind
    obtain ⟨-, day⟩ := (Walk.start_along s.rows 0).fullDays
      (dayOf s.rows height - accruedDays s.rows) (by
        rw [start, Nat.add_sub_cancel' behind.le]
        exact bound)
    rw [day, start, Nat.add_sub_cancel' behind.le]

/-- The planned calls catch up, by cases on whether there is a day to walk. -/
theorem readCatchUp_caughtUp {w : World A} {height cap : Nat} (settled : Settled w.rows)
    (walkable : w.store.Walkable) (safe : height < 2 ^ 53)
    (genesis : genesisHeight w.rows ≠ 0)
    (behind : accruedDays w.rows ≤ dayOf w.rows height)
    (near : dayOf w.rows height ≤ accruedDays w.rows + 63) (uncut : slices w.rows height ≤ cap)
    (few : 50 * cap ≤ 2 ^ 53)
    : CaughtUp height
      (walkAll w ((readCatchUp w.rows height cap).map fun _ => .accrueSteps height 0)) := by
  have some_genesis : number (genesisHeight w.rows) ≠ 0 := by
    have := le_number (n := 1) (m := genesisHeight w.rows) (by decide) (by omega)
    omega
  rcases behind.eq_or_lt with current | behind
  · have none : readCatchUp w.rows height cap = [] := by
      unfold readCatchUp
      rw [if_neg some_genesis, if_pos]
      rcases lt_or_ge height (genesisHeight w.rows) with early | later
      · exact (today_early safe early).le.trans (le_number (by decide) (Int.natCast_nonneg _))
      · have day := dayOf_le w.rows height
        rw [today_dayOf safe later, ← current]
        exact (number_safe (abs_le.mpr (by omega))).ge
    rw [none]
    exact current.ge
  · have later : genesisHeight w.rows ≤ height := by
      by_contra early
      have first : dayOf w.rows height = 0 := if_pos (not_le.mp early).le
      omega
    have day := dayOf_le w.rows height
    have rounded : number (accruedDays w.rows) = accruedDays w.rows :=
      number_safe (abs_le.mpr (by omega))
    have some_planned := one_le_slices w.rows height
    obtain ⟨n, asked⟩ : ∃ n : Nat, slices w.rows height = (n + 1 : Nat) :=
      ⟨(slices w.rows height - 1).toNat, by omega⟩
    have planned : readCatchUp w.rows height cap = .replicate (n + 1) ⟨"advance", ""⟩ := by
      unfold readCatchUp
      rw [if_neg some_genesis, if_neg, max_eq_right some_planned, min_eq_right uncut, asked,
        Int.toNat_natCast]
      rw [today_dayOf safe later, rounded]
      exact (Int.ofNat_lt.mpr behind).not_ge
    have enough := work_le_slices safe later behind.le near (by omega)
    rw [planned, List.map_replicate]
    refine advances_enough settled walkable (safe.trans (by decide)) ?_ (by omega)
    exact near.trans (Nat.add_le_add_left (by decide) _)

/-- From every world reached from `Init`, on a token that works, at every safe height: where the walk
is at most 63 days behind, the planned calls, unless their bound cuts them, leave it current, so
that the user's own call is not refused for lag.
-/
theorem catch_up_enough (store : Store) (assets : A) (genesis : UInt64)
    (requests : List Request) (height cap : Nat)
    (fresh : store.rows = .empty) (named : genesis ≠ 0) (safe : height < 2 ^ 53)
    (few : 50 * cap ≤ 2 ^ 53)
    (works : (after (initialised store assets genesis) requests).Reliable)
    : let w := after (initialised store assets genesis) requests
      let calls := readCatchUp w.rows height cap
      let w' := walkAll w (calls.map fun _ => .accrueSteps height 0)
      accruedDays w.rows ≤ dayOf w.rows height
        → dayOf w.rows height ≤ accruedDays w.rows + 63
        → slices w.rows height ≤ cap
        → accruedDays w'.rows = dayOf w'.rows height
          ∧ ((accrue height).run serve w').2 = true := by
  intro w calls w' behind near uncut
  have word : height < 2 ^ 64 := safe.trans (by decide)
  have setUp := initialised_settled store assets genesis fresh
  have settled : Settled w.rows := after_settled setUp requests
  have walkable : w.store.Walkable := .inl works
  have there : genesisHeight w.rows ≠ 0 := by
    rw [after_genesis setUp, initialised_genesis store assets fresh named]
    exact fun zero => named (UInt64.toNat_inj.mp zero)
  have caught : CaughtUp height w' :=
    readCatchUp_caughtUp settled walkable safe there behind near uncut few
  have within : ∀ call ∈ calls.map fun _ => WalkCall.accrueSteps height 0,
      call.toHeight ≤ height := by
    intro call member
    obtain ⟨_, -, rfl⟩ := List.mem_map.mp member
    exact le_rfl
  refine ⟨?_, congrArg Prod.snd (accrueWalk_idle caught _ _)⟩
  have target := (walkAll_keeps settled walkable word within).target
  have ends := walkAll_caughtUp settled walkable word within caught
  rw [target]
  change accruedDays w'.rows = _
  rw [show w' = _ from ends]
  exact walkedTo_day word behind

end Worlds

/-- Three mints of one account, two of them maturing on the days to walk. -/
theorem catch_up_two_maturities
    : let w := after (initialised (Store.newMemToken "contract:self") MemAssets.new 1)
        [⟨{ sender := "hive:owner", height := 1 }, .creditMigration "hive:a" 500000000 0, false⟩,
          ⟨{ sender := "hive:a", height := 2 }, .createMint 100000000 1, false⟩,
          ⟨{ sender := "hive:a", height := 2 }, .createMint 100000000 2, false⟩,
          ⟨{ sender := "hive:a", height := 2 }, .createMint 100000000 9, false⟩]
      let w' := walkAll w ((readCatchUp w.rows 86402 8).map fun _ => .accrueSteps 86402 0)
      readCatchUp w.rows 86402 8 = .replicate 2 ⟨"advance", ""⟩
        ∧ accruedDays w'.rows = dayOf w'.rows 86402 ∧ ((accrue 86402).run serve w').2 = true :=
  ⟨by decide +kernel, catch_up_enough (Store.newMemToken "contract:self") MemAssets.new 1 _ 86402 8
    rfl (by decide) (by decide) (by decide) (fun t token => by
      have there := congrArg (Option.map (·.fail)) token
      exact Option.some.inj (there.symm.trans (by decide +kernel)))
    (by decide +kernel) (by decide +kernel) (by decide +kernel)⟩

/-- At heights that Numbers round, a day is missed: nothing is planned, and the walk stays a day
behind.
-/
theorem catch_up_rounded
    : let genesis : UInt64 := 576460752303423680
      let height := genesis.toNat + heightsPerDay
      let w := initialised Store.newMem MemAssets.new genesis
      let w' := walkAll w ((readCatchUp w.rows height 8).map fun _ => .accrueSteps height 0)
      dayOf w.rows height = accruedDays w.rows + 1 ∧ slices w.rows height ≤ 8
        ∧ dayOf w'.rows height = accruedDays w'.rows + 1 := by
  decide +kernel

end LasseCash.Api
