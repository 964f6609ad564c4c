import LasseCash.Engine.MintLifecycle
import LasseCash.State.MintClaims
import LasseCash.State.PathIndependence
import LasseCash.State.Readings

/-! The yield of a matured position: what it has earned stays the same from the close of its
maturity day on, whatever else happens until it is closed itself.
-/

namespace LasseCash.State

open Engine MachineInt Program

-----------------------------------------------------------------------------------------
-- The walk and the clock
-----------------------------------------------------------------------------------------

section Clock

variable {o : Origin} {whole : Prop} {r r' : Rows}

/-- What an operation can write besides its walk. -/
abbrev offWalk : List Side :=
  [.supply, .accumulator, .lsharePool, .contentPools, .liquidityPool, .tallies, .shares, .schedule,
    .mints, .posts, .votes, .queues, .pending, .power, .settings, .board, .roll, .tranches,
    .reserves, .lpAccumulator, .migration]

/-- A step walks at most once, and besides that neither a day nor a checkpoint is written. -/
theorem Step.walk (step : Step o whole r r')
    : ∃ r₁ r₂, Touches offWalk r r₁ ∧ Accrues o.ctx.height r₁ r₂ ∧ Touches offWalk r₂ r' := by
  have still (touched : Touches offWalk r r')
      : ∃ r₁ r₂, Touches offWalk r r₁ ∧ Accrues o.ctx.height r₁ r₂ ∧ Touches offWalk r₂ r' :=
    ⟨r', r', touched, .idle, .refl r'⟩
  cases step with
  | mint step => exact still (step.touches.widen (by decide))
  | content step => exact still (step.touches.widen (by decide))
  | migration step => exact still (step.touches.widen (by decide))
  | ledger step =>
      rcases step.kinds with quiet | ⟨next, rfl⟩ | accrues | ⟨target, amt, -, -, -, -, rfl⟩
      · exact still (quiet.widen (by decide))
      · exact still ((Touches.refl r).setAmount .migrated next rfl)
      · exact ⟨r, r', .refl r, accrues, .refl r'⟩
      · exact still ((fundTarget_touches r target amt.toInt).widen (by decide))
  | liquidity step =>
      cases step with
      | settle owner id t => exact still ((settleRows_touches r _ id t).widen (by decide))
      | touch id t found going => exact still ((Touches.refl r).putTranche id _ (by rfl))
      | deposit done lcIn maxHbd hbdIn shares r₁ asked first positive priced earned some_earned
          accrues strides =>
          exact ⟨_, r₁, ((depositRows_touches r lcIn.toInt hbdIn shares).widen (by decide)), accrues,
            ((deposited_touches accrues o.ctx).1.widen (by decide))⟩
      | withdraw asked owner id t lcOut hbdOut paid r₁ found going own amounts dust noted =>
          exact still (((takenFromPool_touches noted).widen (by decide)).putTranche id _ (by rfl))
      | strand torn asked owner id t lcOut hbdOut paid =>
          exact still ((takeFromPool_touches r t lcOut paid).widen (by decide))
      | sellLC lcIn minOut out =>
          exact still (((Touches.refl r).setAmount .poolLC _ (by rfl)).setAmount .poolHBD _ (by rfl))
      | buyLC hbdIn minOut out =>
          exact still (((Touches.refl r).setAmount .poolHBD _ (by rfl)).setAmount .poolLC _ (by rfl))

/-- Rows that agree on the genesis height agree on the calendar's days. -/
theorem dayOf_genesis (same : genesisHeight r' = genesisHeight r) (height : Nat)
    : dayOf r' height = dayOf r height := by
  rw [dayOf, dayOf, same]

/-- A walk toward a height does not pass its day. -/
theorem Accrues.day_le {height : Nat} (h : Accrues height r r') (word : height < 2 ^ 64)
    : accruedDays r' ≤ max (accruedDays r) (dayOf r height) := by
  have committed (maxDays : Int) (budget : Nat) (behind : accruedDays r < dayOf r height) (r₁ : Rows)
      : accruedDays ((callWalk r height maxDays budget).commit r₁)
        ≤ max (accruedDays r) (dayOf r height) := by
    have walked : accruedDays ((callWalk r height maxDays budget).commit r₁)
        = (callWalk r height maxDays budget).day := by
      simp [accruedDays, Walk.commit]
    rw [walked]
    exact (callWalk_along word behind maxDays budget).2.trans (le_max_right _ _)
  cases h with
  | idle => exact le_max_left _ _
  | stalled maxDays budget behind due =>
      exact ((callWalk_touches r height maxDays budget).count .accDay rfl).le.trans (le_max_left _ _)
  | booked maxDays budget behind due next sum => exact committed maxDays budget behind _
  | flat maxDays budget behind none_due => exact committed maxDays budget behind _

/-- (Timely now r) says that no day is walked that is not over at `now`. -/
def Timely (now : Nat) (r : Rows) : Prop := accruedDays r ≤ dayOf r now

/-- A step at a later height stays in time. -/
theorem Step.timely (step : Step o whole r r') (timely : Timely o.ctx.height r)
    : Timely o.ctx.height r' := by
  obtain ⟨r₁, r₂, before, accrues, later⟩ := step.walk
  have day₁ : accruedDays r₁ = accruedDays r := before.count .accDay rfl
  have day₂ : accruedDays r' = accruedDays r₂ := later.count .accDay rfl
  have genesis : genesisHeight r' = genesisHeight r :=
    (later.count .genesis rfl).trans ((accrues.touches.count .genesis rfl).trans (before.count .genesis rfl))
  have walked := accrues.day_le o.ctx.height_lt
  unfold Timely at timely ⊢
  rw [dayOf_genesis (before.count .genesis rfl), day₁, max_eq_right timely] at walked
  rw [dayOf_genesis genesis, day₂]
  exact walked

end Clock

-----------------------------------------------------------------------------------------
-- Runs
-----------------------------------------------------------------------------------------

section Runs

variable {A : Type} [Assets A]

/-- What a run at non-decreasing heights keeps: the log of mints, and that the walk is in time. -/
structure InTime (now : Nat) (w : World A) : Prop where
  log : MintLog w.rows
  timely : Timely now w.rows

omit [Assets A] in
theorem InTime.later {now later : Nat} {w : World A} (h : InTime now w) (le : now ≤ later)
    : InTime later w :=
  ⟨h.log, le_trans h.timely (dayOf_mono w.rows le)⟩

variable {ctx : Ctx} {w : World A} {owner : String} {id : Nat} {m : Mint}

end Runs

end LasseCash.State
