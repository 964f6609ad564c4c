import LasseCash.State.Migration

/-! What the migration is for, apart from how it is stored: figures and receipts that move by
five events. The supply counter follows the events exactly, and no event without its guard
takes place; the operations are shown to implement them later on.
-/

namespace LasseCash.State

open Engine MachineInt Function

/-- The figures and the receipts of the migration. -/
structure Books where
  supply : Int
  total : Int
  claimed : Int
  burned : Int
  done : String → Option MigrationRecord
  root : Option String
  swept : Bool

/-- What happens in a migration: positions are pushed to their accounts or to null, a snapshot
is committed, a position is claimed or its burn recorded, and the remainder is swept.
-/
inductive Event
  | push (burned : Bool) (entries : List MigrationEntry)
  | commit (root : String) (qualifierTotal burnTotal : Int)
  | claim (account : String) (liquid staked : Int)
  | record (account : String) (liquid staked : Int)
  | sweep

/-- The whole of a position. -/
def MigrationEntry.amount (e : MigrationEntry) : Int := e.liquid + e.staked

/-- The sum of the positions. -/
def pushed (entries : List MigrationEntry) : Int := (entries.map MigrationEntry.amount).sum

/-- The receipt of a pushed position. -/
def MigrationEntry.receipt (burned : Bool) (e : MigrationEntry) : MigrationRecord :=
  if burned then .burned e.liquid e.staked else .migrated e.liquid e.staked

/-- Files the receipts of pushed positions. -/
def fileReceipts (burned : Bool) (done : String → Option MigrationRecord)
    (entries : List MigrationEntry)
    : String → Option MigrationRecord :=
  entries.foldl (fun done e => update done e.account (some (e.receipt burned))) done

/-- The books after an event. -/
def Books.apply (m : Books) : Event → Books
  | .push burned entries =>
      { m with
        supply := m.supply + pushed entries
        done := fileReceipts burned m.done entries }
  | .commit root qualifierTotal burnTotal =>
      { m with
        root := some root
        total := qualifierTotal
        burned := burnTotal
        supply := m.supply + burnTotal }
  | .claim account liquid staked =>
      { m with
        supply := m.supply + (liquid + staked)
        claimed := m.claimed + (liquid + staked)
        done := update m.done account (some (.migrated liquid staked)) }
  | .record account liquid staked =>
      { m with done := update m.done account (some (.burned liquid staked)) }
  | .sweep => { m with supply := m.supply + (m.total - m.claimed), swept := true }

/-- The guard of an event at height `now`. The cap check of a push and of a commitment is the
source's sum on words, which may wrap.
-/
def Books.Admits (m : Books) (deadline now : Nat) : Event → Prop
  | .push _ entries =>
      (entries.map MigrationEntry.account).Nodup
        ∧ (∀ e ∈ entries, m.done e.account = none ∧ 0 ≤ e.liquid ∧ 0 ≤ e.staked ∧ 0 < e.amount)
        ∧ breachesCap (m.supply + pushed entries) = false
  | .commit _ qualifierTotal burnTotal =>
      m.root = none ∧ 0 ≤ qualifierTotal ∧ 0 ≤ burnTotal ∧ 0 < qualifierTotal + burnTotal
        ∧ breachesCap (i64 (m.supply + (qualifierTotal + burnTotal))) = false
  | .claim account liquid staked =>
      m.root ≠ none ∧ now < deadline ∧ m.done account = none ∧ 0 ≤ liquid ∧ 0 ≤ staked
        ∧ 0 < liquid + staked ∧ m.claimed + (liquid + staked) ≤ m.total
  | .record account _ _ => m.root ≠ none ∧ m.done account = none
  | .sweep => m.root ≠ none ∧ deadline ≤ now ∧ m.swept = false

-----------------------------------------------------------------------------------------
-- The cap when positions are only claimed
-----------------------------------------------------------------------------------------

/-- (m.Covered deadline now) says that the committed snapshot fits under the cap with all
future emission, and that the supply is the part of it that was burned, claimed or swept.
-/
structure Books.Covered (m : Books) (deadline now : Nat) : Prop where
  claimed_nonneg : 0 ≤ m.claimed
  claimed_le : m.claimed ≤ m.total
  burned_nonneg : 0 ≤ m.burned
  cap : m.total + m.burned + emissionCap ≤ historicHardCap
  supply : m.supply = m.burned + if m.swept then m.total else m.claimed
  swept : m.swept = true → deadline ≤ now
  uncommitted : m.root = none → m.total = 0 ∧ m.burned = 0 ∧ m.swept = false

/-- Later the books are still covered. -/
theorem Books.Covered.later {m : Books} {deadline now later : Nat} (h : m.Covered deadline now)
    (le : now ≤ later)
    : m.Covered deadline later :=
  { h with swept := fun swept => (h.swept swept).trans le }

/-- Supply under the cap, from the parts of the snapshot. -/
theorem Books.Covered.supply_le {m : Books} {deadline now : Nat} (h : m.Covered deadline now)
    : 0 ≤ m.supply ∧ m.supply + emissionCap ≤ historicHardCap := by
  have := h.claimed_nonneg
  have := h.claimed_le
  have := h.burned_nonneg
  have := h.cap
  have supply := h.supply
  cases swept : m.swept <;> simp only [swept, if_true, Bool.false_eq_true, if_false] at supply
  all_goals omega

/-- The cap check decides the exact sum wherever that is a word. -/
theorem breachesCap_of_fits {next : Int} (lower : 0 ≤ next) (fits : next + emissionCap < 2 ^ 63)
    : breachesCap next = decide (historicHardCap < next + emissionCap) := by
  unfold breachesCap
  rw [i64_of_nonneg (by unfold emissionCap; omega) fits]

/-- Every event but a push keeps the books covered, if the sum that a commitment checks is a
word; by cases on the event.
-/
theorem Books.Covered.step {m : Books} {deadline now : Nat} {e : Event}
    (h : m.Covered deadline now) (admitted : m.Admits deadline now e)
    (claimed : ∀ burned entries, e ≠ .push burned entries)
    (fits : ∀ root q b, e = .commit root q b → q + b + emissionCap < 2 ^ 63)
    : (m.apply e).Covered deadline now := by
  cases e with
  | push burned entries => exact absurd rfl (claimed burned entries)
  | commit root q b =>
      obtain ⟨none, qNonneg, bNonneg, _, cap⟩ := admitted
      have fit := fits root q b rfl
      obtain ⟨noTotal, noBurn, unswept⟩ := h.uncommitted none
      have nonneg := h.claimed_nonneg
      have unclaimed : m.claimed = 0 := le_antisymm (noTotal ▸ h.claimed_le) nonneg
      have supply : m.supply = 0 := by
        rw [h.supply, noBurn, unswept, unclaimed]
        rfl
      have whole : q + b < 2 ^ 63 := by
        unfold emissionCap at fit
        omega
      rw [supply, zero_add, i64_of_nonneg (by omega) whole, breachesCap_of_fits (by omega) fit]
        at cap
      have within := of_decide_eq_false cap
      refine ⟨nonneg, ?_, bNonneg, not_lt.mp within, ?_, h.swept, nofun⟩
      · simpa only [Books.apply, unclaimed] using qNonneg
      · simp only [Books.apply, supply, unswept, unclaimed]
        simp
  | claim account liquid staked =>
      obtain ⟨committed, early, _, _, _, pos, room⟩ := admitted
      have unswept : m.swept = false := by
        by_contra swept
        exact absurd (h.swept (by simpa using swept)) (not_le.mpr early)
      have nonneg := h.claimed_nonneg
      have supply := h.supply
      rw [unswept] at supply
      refine ⟨by dsimp only [Books.apply]; omega, room, h.burned_nonneg, h.cap, ?_, h.swept,
        fun none => absurd none committed⟩
      simp only [Books.apply, supply, unswept, Bool.false_eq_true, if_false]
      omega
  | record account liquid staked => exact { h with }
  | sweep =>
      obtain ⟨committed, late, unswept⟩ := admitted
      have supply := h.supply
      rw [unswept] at supply
      refine ⟨h.claimed_nonneg, h.claimed_le, h.burned_nonneg, h.cap, ?_, fun _ => late,
        fun none => absurd none committed⟩
      simp only [Books.apply, supply, Bool.false_eq_true, if_false, if_true]
      omega

end LasseCash.State
