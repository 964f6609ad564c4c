import LasseCash.State.Reachable

/-! The hard cap under the claim migration: what production can run keeps the supply, with all
emission, within the cap, as long as the one sum that checks the snapshot is a word.
-/

namespace LasseCash.State

open Engine MachineInt Function Program

/-- Production is built without the entrypoints that push positions. -/
def Action.inProduction : Action → Bool
  | creditMigration .. | creditMigrationBatch _ | burnMigrationBatch _ => false
  | _ => true

/-- A request as production makes it: a failure unwinds the transaction. -/
def Request.inProduction (q : Request) : Bool := q.unwinds && q.action.inProduction

/-- The snapshot's totals and all future emission sum to a word. -/
def Request.snapshotFits (q : Request) : Prop :=
  match q.action with
  | .setSnapshot _ qualifierTotal burnTotal =>
      qualifierTotal.toInt + burnTotal.toInt + emissionCap < 2 ^ 63
  | _ => True

/-- The books are covered at every height from `now` on. -/
structure Capped (now : Nat) (r : Rows) : Prop where
  settled : Settled r
  covered : (booksOf r).Covered (claimDeadlineHeight r) now

section Requests

variable {A : Type} [Assets A]

/-- The sums that guard the cap are words: those of a first snapshot, whether or not it is
accepted, those of an accepted claim, and those of the sweep.
-/
def ChecksFit (w : World A) (q : Request) : Prop :=
  let m := booksOf w.rows
  match q.action with
  | .setSnapshot _ qualifierTotal burnTotal =>
      m.root = none → 0 ≤ qualifierTotal.toInt → 0 ≤ burnTotal.toInt
        → InI64 (m.supply + (qualifierTotal.toInt + burnTotal.toInt) + emissionCap)
  | .claimMigration liquid staked _ =>
      (q.exec w).2.ok = true → InI64 (m.claimed + (liquid.toInt + staked.toInt))
        ∧ InI64 (m.supply + (liquid.toInt + staked.toInt))
  | .sweepUnclaimed => InI64 (m.supply + (m.total - m.claimed))
  | _ => True

/-- What a request keeps of the cap. -/
structure CapKept (w : World A) (q : Request) : Prop where
  checks : ChecksFit w q
  snapshot : snapshotTotal (q.exec w).1.rows + emissionCap ≤ historicHardCap
  supply : (q.exec w).1.rows.getAmount .migrated + (q.exec w).1.rows.getAmount .emitted
    ≤ historicHardCap

-----------------------------------------------------------------------------------------
-- The invariant
-----------------------------------------------------------------------------------------

/-- Under the invariant both totals are within the cap. -/
theorem Capped.within {now : Nat} {r : Rows} (h : Capped now r)
    : snapshotTotal r + emissionCap ≤ historicHardCap
      ∧ r.getAmount .migrated + r.getAmount .emitted ≤ historicHardCap := by
  have cap := h.covered.cap
  have nonneg := h.covered.claimed_nonneg
  have claimed := h.covered.claimed_le
  have burned := h.covered.burned_nonneg
  have supply := h.covered.supply_le
  have emitted := h.settled.calendar.emitted_le
  simp only [booksOf_total, booksOf_burned, booksOf_supply, booksOf_claimed] at *
  have whole : snapshotTotal r = r.getAmount .migTotal + r.getAmount .migBurn := by
    unfold emissionCap historicHardCap at cap
    exact i64_of_nonneg (by omega) (by omega)
  exact ⟨by rw [whole]; exact cap, by omega⟩

/-- A refused request of production leaves its world as it was. -/
theorem Request.exec_refused {q : Request} (production : q.inProduction = true) (w : World A)
    (refused : (q.exec w).2.ok = false)
    : (q.exec w).1 = w := by
  have unwinds : q.unwinds = true := (Bool.and_eq_true_iff.mp production).1
  unfold Request.exec at refused ⊢
  simp_all

/-- Production pushes nothing. -/
theorem Request.no_push {q : Request} (production : q.inProduction = true) {r : Rows} {e : Event}
    (event : q.action.event q.ctx r = some e) (burned : Bool) (entries : List MigrationEntry)
    : e ≠ .push burned entries := by
  have pushes := (Bool.and_eq_true_iff.mp production).2
  generalize q.action = action at event pushes
  rintro rfl
  cases action <;> simp [Action.event, Action.inProduction] at event pushes

/-- A commitment's totals are those of the request. -/
theorem Request.commit_fits {q : Request} (fits : q.snapshotFits) {r : Rows} {e : Event}
    (event : q.action.event q.ctx r = some e) (root : String) (qt bt : Int)
    (commit : e = .commit root qt bt)
    : qt + bt + emissionCap < 2 ^ 63 := by
  unfold snapshotFits at fits
  generalize q.action = action at event fits
  subst commit
  cases action <;> simp only [Action.event, Option.some.injEq, reduceCtorEq, Event.commit.injEq]
    at event
  obtain ⟨rfl, rfl, rfl⟩ := event
  exact fits

/-- Every request of production keeps the books covered, by cases on its event. -/
theorem Request.exec_capped {q : Request} {w : World A} {now : Nat} (h : Capped now w.rows)
    (later : now ≤ q.ctx.height) (production : q.inProduction = true) (fits : q.snapshotFits)
    : Capped q.ctx.height (q.exec w).1.rows := by
  refine ⟨Request.exec_settled h.settled, ?_⟩
  have effect := q.exec_effect w h.settled.words
  rw [claimDeadline_eq effect.evolves.genesis]
  have still := h.covered.later later
  cases event : q.action.event q.ctx w.rows with
  | none =>
      rw [ActionEffect, event] at effect
      rw [effect.migration.books]
      exact still
  | some e =>
      rw [ActionEffect, event] at effect
      cases success : (q.exec w).2.ok with
      | false => rwa [Request.exec_refused production w success]
      | true =>
          rw [effect.applied success]
          exact still.step (effect.admitted success) (Request.no_push production event)
            (Request.commit_fits fits event)

/-- Before a commitment nothing is in circulation. -/
theorem Books.Covered.none_before {m : Books} {deadline now : Nat} (h : m.Covered deadline now)
    (uncommitted : m.root = none)
    : m.supply = 0 := by
  obtain ⟨noTotal, noBurn, unswept⟩ := h.uncommitted uncommitted
  have unclaimed : m.claimed = 0 := le_antisymm (noTotal ▸ h.claimed_le) h.claimed_nonneg
  rw [h.supply, noBurn, unswept, unclaimed]
  rfl

/-- The sums of the checks are words, by cases on the action. -/
theorem Request.checks_fit {q : Request} {w : World A} {now : Nat} (h : Capped now w.rows)
    (later : now ≤ q.ctx.height) (production : q.inProduction = true) (fits : q.snapshotFits)
    : ChecksFit w q := by
  have next := (Request.exec_capped h later production fits).covered.supply_le
  have effect := q.exec_effect w h.settled.words
  have cap := h.covered.cap
  have burned := h.covered.burned_nonneg
  have nonneg := h.covered.claimed_nonneg
  have claimed := h.covered.claimed_le
  have supply := h.covered.supply_le
  unfold ChecksFit
  unfold ActionEffect at effect
  unfold Request.snapshotFits at fits
  unfold emissionCap historicHardCap at *
  cases action : q.action <;> simp only [action, Action.event] at fits effect ⊢
  case setSnapshot root qt bt =>
      intro uncommitted qNonneg bNonneg
      have none_before := h.covered.none_before uncommitted
      exact ⟨by omega, by omega⟩
  case claimMigration liquid staked proofHex =>
      intro success
      obtain ⟨_, _, _, _, _, positive, room⟩ := effect.admitted success
      have raised : (booksOf (q.exec w).1.rows).supply
          = (booksOf w.rows).supply + (liquid.toInt + staked.toInt) :=
        congrArg Books.supply (effect.applied success)
      exact ⟨⟨by omega, by omega⟩, ⟨by omega, by omega⟩⟩
  case sweepUnclaimed => exact ⟨by omega, by omega⟩

theorem Request.cap_kept {q : Request} {w : World A} {now : Nat} (h : Capped now w.rows)
    (later : now ≤ q.ctx.height) (production : q.inProduction = true) (fits : q.snapshotFits)
    : CapKept w q :=
  let ⟨snapshot, supply⟩ := (Request.exec_capped h later production fits).within
  ⟨Request.checks_fit h later production fits, snapshot, supply⟩

/-- Initialising a fresh store touches nothing of the migration. -/
theorem initialised_books (store : Store) (assets : A) (genesis : UInt64)
    (fresh : store.rows = .empty)
    : booksOf (initialised store assets genesis).rows = booksOf Rows.empty := by
  refine always_serve (w := ⟨store, assets⟩) (Q := fun _ r => booksOf r = booksOf Rows.empty) ?_
  rw [World.rows, fresh]
  simp only [init, always_bind, always_rows, always_ite, always_pure, always_setRows]
  exact ⟨fun _ => trivial, fun _ => ⟨fun _ => trivial, fun _ => rfl⟩⟩

/-- A fresh store is capped once initialised. -/
theorem initialised_capped (store : Store) (assets : A) (genesis : UInt64)
    (fresh : store.rows = .empty)
    : Capped 0 (initialised store assets genesis).rows := by
  refine ⟨initialised_settled store assets genesis fresh, ?_⟩
  rw [initialised_books store assets genesis fresh]
  refine ⟨le_rfl, le_rfl, le_rfl, by decide, rfl, nofun, fun _ => ⟨rfl, rfl, rfl⟩⟩

-----------------------------------------------------------------------------------------
-- The cap
-----------------------------------------------------------------------------------------

/-- In a run of production from `Init`, on any ledger, whose commitments fit a word, the
snapshot and the supply stay within the cap and no check on them wraps.
-/
theorem hard_cap_of_snapshotFits (store : Store) (assets : A) (genesis : UInt64)
    (requests : List Request) (fresh : store.rows = .empty)
    (run : Run (fun _ q => q.inProduction = true ∧ q.snapshotFits)
      (initialised store assets genesis) 0 requests)
    : Along CapKept (initialised store assets genesis) requests := by
  refine run.along (I := fun now w => Capped now w.rows) ?_
    (initialised_capped store assets genesis fresh)
  intro w now q capped later ⟨production, fits⟩
  exact ⟨Request.exec_capped capped later production fits,
    Request.cap_kept capped later production fits⟩

end Requests

/-- A run that commits a small snapshot and burns a part of it keeps the cap. -/
theorem hard_cap_small_snapshot
    : Along CapKept (initialised Store.newMem MemAssets.new 1)
      [⟨{ sender := "hive:owner", height := 1 },
        .setSnapshot (.ofList (.replicate 64 '0')) 1000 500, true⟩] :=
  hard_cap_of_snapshotFits Store.newMem MemAssets.new 1 _ rfl
    ⟨by decide, ⟨rfl, by simp only [Request.snapshotFits]; decide⟩, trivial⟩

/-- A commitment of the largest word wraps the check's sum: it is accepted, and the sweep mints
all of it after the claim window.
-/
theorem hard_cap_breached_by_wrap
    : let w := initialised Store.newMem MemAssets.new 1
      let commit : Request := ⟨{ sender := "hive:owner", height := 1 },
        .setSnapshot (.ofList (.replicate 64 '0')) 9223372036854775807 0, true⟩
      let sweep : Request := ⟨{ sender := "hive:any", height := 6048001 }, .sweepUnclaimed, true⟩
      commit.inProduction = true ∧ sweep.inProduction = true
        ∧ (results w [commit, sweep]).all Result.ok = true
        ∧ historicHardCap < snapshotTotal (after w [commit]).rows + emissionCap
        ∧ historicHardCap < (after w [commit, sweep]).rows.getAmount .migrated := by
  decide +kernel

end LasseCash.State
