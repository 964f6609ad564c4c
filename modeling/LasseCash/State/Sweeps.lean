import LasseCash.Engine.MintLifecycle
import LasseCash.State.MintTerms

/-! What a sweep can take: a position whose payout to its owner is nothing. That is one which the
bleed has reached, a locked one of a single base unit, or one whose value is no positive word.
-/

namespace LasseCash.Engine

open MachineInt

variable (m : Mint)

-----------------------------------------------------------------------------------------
-- What a position pays its owner
-----------------------------------------------------------------------------------------

/-- (m.Abandoned height) says that the grace after maturity is over. -/
def Mint.Abandoned (height : Nat) : Prop :=
  m.maturityHeight + m.graceDaysFor * heightsPerDay < height

instance (height : Nat) : Decidable (m.Abandoned height) :=
  inferInstanceAs (Decidable (_ < _))

/-- A locked position pays its owner nothing exactly when it is one base unit. -/
theorem Mint.settle_locked {height : Nat} {accrued : Int} (locked : m.isMature height = false)
    (word : m.principal < 2 ^ 63)
    : (m.settle height accrued).toOwner ≤ 0 ↔ m.principal = 1 := by
  obtain ⟨half, less⟩ := Mint.earlyEndRecovery_bounds locked
  have positive := m.principal_pos
  simp only [settle, locked, if_true]
  generalize m.earlyEndRecovery height = frac at *
  simp only [minEarlyEndRecovery, multScale] at half less
  norm_num at half
  have floor : m.principal * frac / multScale ≤ maxAmount := by
    refine Int.ediv_le_of_le_mul (by decide) ?_
    simp only [multScale, maxAmount]
    nlinarith
  rw [mulDiv_of_fits positive.le (by omega) (by decide) floor, Option.getD_some]
  simp only [multScale]
  constructor
  · intro none_left
    by_contra more
    have two : 1 * 100000000 ≤ m.principal * frac := by nlinarith [(by omega : 2 ≤ m.principal)]
    have paid := Int.le_ediv_of_mul_le (by decide : (0 : Int) < 100000000) two
    omega
  · rintro one
    rw [one]
    omega

/-- A position in its grace pays its owner nothing exactly when its value is not positive. -/
theorem Mint.settle_grace {height : Nat} {accrued : Int} (mature : m.isMature height = true)
    (grace : ¬m.Abandoned height)
    : (m.settle height accrued).toOwner ≤ 0 ↔ i64 (m.principal + accrued) ≤ 0 := by
  have whole : m.bleedRemaining height = multScale := by
    simp only [Mint.Abandoned] at grace
    simp only [bleedRemaining]
    split
    · rfl
    · rw [if_pos (by omega)]
  simp only [settle, mature, whole, Bool.true_eq_false, if_false]
  have word := i64_mem (m.principal + accrued)
  generalize i64 (m.principal + accrued) = total at *
  rcases lt_or_ge 0 total with positive | none_left
  · have back : total * multScale / multScale = total := Int.mul_ediv_cancel _ (by decide)
    have fits : total * multScale / multScale ≤ maxAmount := by
      have := word.upper
      simp only [back, maxAmount]
      omega
    simp [mulDiv_of_fits positive.le (by decide) (by decide) fits, back]
  · exact iff_of_true (mulDiv_nonpos none_left (by decide) (by decide)) none_left

end LasseCash.Engine

namespace LasseCash.State

open Engine MachineInt Program

section Worlds

variable {A : Type} [Assets A] {w : World A}

/-- The rows once a request of this height has booked the emission. -/
def accruedAt (w : World A) (height : Nat) : Rows := ((accrue height).run serve w).1.rows

/-- A sweep succeeds on an open position that has a reading and pays its owner nothing. -/
theorem sweepMint_ok (ctx : Ctx) (owner : String) (id : Nat)
    : ((sweepMint ctx owner id).run serve w).2.ok = true
      ↔ w.rows.init = true ∧ ∃ m, w.rows.getMint owner id = some m ∧ m.ended = false
        ∧ ∃ acc, accEndOf (accruedAt w ctx.height) m ctx.height = some acc
          ∧ (m.settle ctx.height (accruedYield (accruedAt w ctx.height) m acc)).toOwner ≤ 0 := by
  cases started : w.store.rows.init with
  | false => simp [sweepMint, endMint, rows, serve, started, World.rows, fail]
  | true =>
      cases found : w.store.rows.getMint owner id with
      | none => simp [sweepMint, endMint, rows, serve, started, found, World.rows, fail]
      | some m =>
          cases going : m.ended with
          | true => simp [sweepMint, endMint, rows, serve, started, found, going, World.rows, fail]
          | false =>
              cases reading : accEndOf (accruedAt w ctx.height) m ctx.height with
              | none =>
                  have read := reading
                  simp only [accruedAt, World.rows] at read
                  simp [sweepMint, endMint, rows, serve, started, found, going, World.rows, fail,
                    reading, read]
              | some acc =>
                  simp only [accruedAt, World.rows] at reading
                  by_cases owed : (m.settle ctx.height
                    (accruedYield (accruedAt w ctx.height) m acc)).toOwner ≤ 0
                  · simp only [accruedAt, World.rows] at owed
                    simp [sweepMint, endMint, endMint.payOwner, rows, setRows, modify, serve, started,
                      found, going, World.rows, ok, reading, owed, accruedAt, not_lt.mpr owed]
                  · simp only [accruedAt, World.rows] at owed
                    simp [sweepMint, endMint, rows, serve, started, found, going, World.rows, fail,
                      reading, owed, accruedAt, not_le.mp owed]

/-- (TakesEarly w height m) says what a sweep takes before the grace is over: a locked position of
one base unit, or a mature one, once its day has closed, whose principal and yield make no
positive word.
-/
def TakesEarly (w : World A) (height : Nat) (m : Mint) : Prop :=
  w.rows.init = true ∧ m.ended = false
    ∧ (m.isMature height = false ∧ m.principal = 1
      ∨ m.isMature height = true ∧ ∃ acc, accEndOf (accruedAt w height) m height = some acc
        ∧ i64 (m.principal + accruedYield (accruedAt w height) m acc) ≤ 0)

/-- A sweep takes no position before its grace is over, unless it is one of these. -/
theorem sweepMint_abandoned (ctx : Ctx) {owner : String} {id : Nat} {m : Mint}
    (found : w.rows.getMint owner id = some m) (word : m.principal < 2 ^ 63)
    : (((sweepMint ctx owner id).run serve w).2.ok = true → m.Abandoned ctx.height)
      ↔ m.Abandoned ctx.height ∨ ¬TakesEarly w ctx.height m := by
  by_cases abandoned : m.Abandoned ctx.height
  · exact iff_of_true (fun _ => abandoned) (.inl abandoned)
  simp only [abandoned, false_or, imp_false]
  refine not_congr ?_
  rw [sweepMint_ok, TakesEarly]
  refine and_congr_right fun _ => ?_
  simp only [found, Option.some.injEq, exists_eq_left']
  refine and_congr_right fun _ => ?_
  cases lock : m.isMature ctx.height with
  | false =>
      have reading : accEndOf (accruedAt w ctx.height) m ctx.height
          = some (accPerShare (accruedAt w ctx.height)) := by
        have before : ctx.height < m.maturityHeight := by simpa [Mint.isMature] using lock
        rw [accEndOf, if_neg (not_le.mpr before)]
      simp [reading, m.settle_locked lock word]
  | true => simp [m.settle_grace lock abandoned]

/-- In every world that a run from `Init` reaches, on any ledger and assets: a sweep takes only a
position whose grace is over, if and only if it is not of one base unit and still locked, and its
principal and yield make a positive word.
-/
theorem sweep_abandoned_iff (store : Store) (assets : A) (genesis : UInt64)
    (requests : List Request) (fresh : store.rows = .empty)
    (run : Run (fun _ _ => True) (initialised store assets genesis) 0 requests)
    : Along (fun w q => ∀ owner id m, q.action = .sweepMint owner id
        → w.rows.getMint owner id.toNat = some m
        → (((q.exec w).2.ok = true → m.Abandoned q.ctx.height)
          ↔ m.Abandoned q.ctx.height ∨ ¬TakesEarly w q.ctx.height m))
      (initialised store assets genesis) requests := by
  refine run.along (I := fun _ w => MintWords w.rows) ?_
    (initialised_mintWords store assets genesis fresh)
  intro w now q words later _
  refine ⟨q.exec_mintWords words, fun owner id m asked found => ?_⟩
  have result : (q.exec w).2 = ((sweepMint q.ctx owner id.toNat).run serve w).2 := by
    rw [Request.exec, Action.exec_of_program (p := sweepMint q.ctx owner id.toNat)
      (by rw [asked]; rfl)]
  rw [result]
  exact sweepMint_abandoned q.ctx found (words.principal owner id.toNat m found)

end Worlds

/-- Somebody else's migrated position of one base unit is swept a height after it was credited. -/
def earlySweep : List Request :=
  [⟨.of "hive:owner" 1, .creditMigration "hive:a" 0 1, true⟩,
    ⟨.of "hive:b" 2, .sweepMint "hive:a" 1, true⟩]

theorem sweep_abandoned_small
    : Along (fun w q => ∀ owner id m, q.action = .sweepMint owner id
        → w.rows.getMint owner id.toNat = some m
        → (((q.exec w).2.ok = true → m.Abandoned q.ctx.height)
          ↔ m.Abandoned q.ctx.height ∨ ¬TakesEarly w q.ctx.height m))
      (initialised Store.newMem MemAssets.new 1) earlySweep :=
  sweep_abandoned_iff Store.newMem MemAssets.new 1 earlySweep rfl
    ⟨by decide, trivial, by decide, trivial, trivial⟩

theorem sweep_of_one_unit
    : ¬∀ (requests : List Request),
        Run (fun _ _ => True) (initialised Store.newMem MemAssets.new 1) 0 requests
        → Along (fun w q => ∀ owner id m, q.action = .sweepMint owner id
            → w.rows.getMint owner id.toNat = some m → (q.exec w).2.ok = true
            → m.Abandoned q.ctx.height)
          (initialised Store.newMem MemAssets.new 1) requests := by
  intro always
  have held := always earlySweep ⟨by decide, trivial, by decide, trivial, trivial⟩
  have locked : ((after (initialised Store.newMem MemAssets.new 1) (earlySweep.take 1)).rows.getMint
      "hive:a" 1).any (fun m => ¬m.Abandoned 2) = true := by decide +kernel
  obtain ⟨m, found, early⟩ := (Option.any_eq_true _ _).mp locked
  have abandoned := held.2.1 "hive:a" 1 m rfl found (by decide +kernel)
  exact of_decide_eq_true early abandoned

end LasseCash.State
