import LasseCash.State.StepSides

/-! What an accrual books: the calendar stays with the emission, and the liquidity and L-Share
pools receive a quarter of what is emitted each.
-/

namespace LasseCash.State

open Engine MachineInt

variable {r r' : Rows} {height : Nat}

/-- (Credited r r' x) says that four parts `x` were emitted, of which each of the two pools
received one.
-/
structure Credited (r r' : Rows) (x : Int) : Prop where
  nonneg : 0 ≤ x
  emitted : r'.getAmount .emitted = r.getAmount .emitted + 4 * x
  liquidity : r'.getAmount .poolLiquidity = r.getAmount .poolLiquidity ∧ x = 0
    ∨ r'.getAmount .poolLiquidity = i64 (r.getAmount .poolLiquidity + x)
  lshare : r'.getAmount .poolLShare = r.getAmount .poolLShare ∧ x = 0
    ∨ r'.getAmount .poolLShare = i64 (r.getAmount .poolLShare + x)

theorem Credited.none (emitted : r'.getAmount .emitted = r.getAmount .emitted)
    (liquidity : r'.getAmount .poolLiquidity = r.getAmount .poolLiquidity)
    (lshare : r'.getAmount .poolLShare = r.getAmount .poolLShare)
    : Credited r r' 0 :=
  ⟨le_rfl, by omega, .inl ⟨liquidity, rfl⟩, .inl ⟨lshare, rfl⟩⟩

/-- A calendar stands on the setup, the calendar and the emission alone. -/
theorem Touches.calendar {sides : List Side} (h : Touches sides r r') (c : Calendar r)
    (emitted : r'.getAmount .emitted = r.getAmount .emitted)
    (setup : sides.contains .setup = false)
    (away : sides.contains .calendar = false)
    : Calendar r' where
  settled := by
    rw [genesisHeight, accruedDays, h.count .settled away, h.count .genesis setup,
      h.count .accDay away]
    exact c.settled
  word := h.count .settled away ▸ c.word
  emitted := by
    rw [emitted, accruedDays, h.count .accDay away]
    exact c.emitted

/-- The pools that a walk credits. -/
theorem Walk.Along.credits {w : Walk} (along : w.Along r) (r₁ : Rows)
    : (w.creditPools r₁).getAmount .poolLiquidity
        = (addPool r₁ .poolLiquidity (w.totalEmitted / 4)).getAmount .poolLiquidity
      ∧ (w.creditPools r₁).getAmount .poolLShare
        = (addPool r₁ .poolLShare (w.totalEmitted / 4)).getAmount .poolLShare := by
  obtain ⟨nonneg, small, even, lshare⟩ := along.total
  obtain ⟨parts, liquidity⟩ := split_exact nonneg small even
  unfold Walk.creditPools
  rw [parts]
  dsimp only
  rw [liquidity, lshare]
  unfold addPool
  constructor <;> (repeat' split) <;> simp_all

/-- An accrual keeps the calendar and credits a quarter of its emission to each pool, by cases on
how it ended.
-/
theorem Accrues.credited (h : Accrues height r r') (word : height < 2 ^ 64) (c : Calendar r)
    : Calendar r' ∧ ∃ x, Credited r r' x := by
  have walk (maxDays : Int) (budget : Nat) (behind : accruedDays r < dayOf r height) :=
    callWalk_along word behind maxDays budget
  have reached {v : Walk} (behind : accruedDays r < dayOf r height) (le : v.day ≤ dayOf r height)
      : genesisHeight r + v.day * heightsPerDay < 2 ^ 64 :=
    (dayHeight_mono _ le).trans_lt (dayOf_word (.inl word) behind)
  cases h with
  | idle => exact ⟨c, 0, .none rfl rfl rfl⟩
  | stalled maxDays budget behind due =>
      have walked := callWalk_touches r height maxDays budget
      exact ⟨walked.calendar c (walked.amount .emitted rfl) rfl rfl, 0,
        .none (walked.amount .emitted rfl) (walked.amount .poolLiquidity rfl) (walked.amount .poolLShare rfl)⟩
  | booked maxDays budget behind due next sum =>
      obtain ⟨along, le⟩ := walk maxDays budget behind
      have walked := callWalk_touches r height maxDays budget
      generalize callWalk r height maxDays budget = v at *
      obtain ⟨nonneg, small, even, _⟩ := along.total
      have emitted := c.emitted
      have start := issuedAfter_le (accruedDays r * heightsPerDay)
      rw [walked.amount .emitted rfl] at sum
      obtain ⟨rfl, _⟩ := addAmount_eq_some (by omega) nonneg (by omega) (by omega) sum
      have booked := (along.aside.afterEmission (r.getAmount .emitted + v.totalEmitted)).creditPools v
      have steady := (Walk.commit_steady booked along.day_le (reached behind le) (by
        have := along.emitted
        intro _
        omega)).1
      obtain ⟨liquidity, lshare⟩ := along.credits
        (v.rows.setAmount .emitted (r.getAmount .emitted + v.totalEmitted))
      refine ⟨steady.evolves.calendar c, v.totalEmitted / 4, by omega, ?_, .inr ?_, .inr ?_⟩
      · have kept := (creditPools_touches v
          (v.rows.setAmount .emitted (r.getAmount .emitted + v.totalEmitted))).amount .emitted rfl
        have committed := (commit_touches v (v.creditPools
          (v.rows.setAmount .emitted (r.getAmount .emitted + v.totalEmitted)))).amount .emitted rfl
        rw [committed, kept]
        simp
        omega
      · rw [(commit_touches v _).amount .poolLiquidity (by rfl), liquidity, addPool, if_pos (by omega),
          ← walked.amount .poolLiquidity rfl]
        simp
      · rw [(commit_touches v _).amount .poolLShare (by rfl), lshare, addPool, if_pos (by omega),
          ← walked.amount .poolLShare rfl]
        simp
  | flat maxDays budget behind none_due =>
      obtain ⟨along, le⟩ := walk maxDays budget behind
      have walked := callWalk_touches r height maxDays budget
      generalize callWalk r height maxDays budget = v at *
      obtain ⟨nonneg, _⟩ := along.total
      have steady := (Walk.commit_steady along.aside.sameEmission along.day_le (reached behind le) (by
        have := along.emitted
        intro c
        have := c.emitted
        omega)).1
      refine ⟨steady.evolves.calendar c, 0, .none ?_ ?_ ?_⟩
      · rw [(commit_touches v _).amount .emitted (by rfl), walked.amount .emitted rfl]
      · rw [(commit_touches v _).amount .poolLiquidity (by rfl), walked.amount .poolLiquidity rfl]
      · rw [(commit_touches v _).amount .poolLShare (by rfl), walked.amount .poolLShare rfl]

end LasseCash.State
