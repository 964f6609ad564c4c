import LasseCash.Lib.FiniteSum
import Mathlib.Algebra.Order.BigOperators.Group.Finset
import Mathlib.Tactic.Ring
import Mathlib.Tactic.Linarith

/-! Paying many positions out of one pool by weight: an accumulator counts what one unit of weight
has earned, and a position is due its weight times what the accumulator rose since its last
payment. Whoever raises the accumulator only by what an inflow covers can always pay what is due.
-/

namespace RewardAccumulator

open Function FiniteSum

variable {ι R : Type*} [CommRing R]

/-- A position: its weight, and the reading it was last paid at. -/
structure Position (R : Type*) where
  weight : R
  start : R

/-- No position at all. -/
def Position.vacant : Position R := ⟨0, 0⟩

/-- What is due to a position at the reading `acc`, in the accumulator's scale. -/
def Position.due (acc : R) (p : Position R) : R := p.weight * (acc - p.start)

@[simp]
theorem Position.vacant_due (acc : R) : (vacant : Position R).due acc = 0 := by
  simp [vacant, due]

/-- A position that has just been paid is due nothing. -/
@[simp]
theorem Position.due_self (weight acc : R) : (⟨weight, acc⟩ : Position R).due acc = 0 := by
  simp [due]

/-- Positions of which all but finitely many are vacant. -/
def Few (positions : ι → Position R) : Prop := {i | positions i ≠ .vacant}.Finite

/-- The weight that shares in a raise. -/
noncomputable def totalWeight (positions : ι → Position R) : R := ∑ᶠ i, (positions i).weight

/-- What is due to all of them. -/
noncomputable def totalDue (acc : R) (positions : ι → Position R) : R :=
  ∑ᶠ i, (positions i).due acc

variable {positions : ι → Position R}

theorem Few.weight (few : Few positions) : (support fun i => (positions i).weight).Finite :=
  Set.Finite.subset few fun i there same => there (by simp [same, Position.vacant])

theorem Few.due (few : Few positions) (acc : R)
    : (support fun i => (positions i).due acc).Finite :=
  Set.Finite.subset few fun i there same => there (by simp [same])

/-- A raise is due to every unit of weight. -/
theorem totalDue_raise (few : Few positions) (acc rise : R)
    : totalDue (acc + rise) positions = totalDue acc positions + rise * totalWeight positions := by
  have split (i : ι) : (positions i).due (acc + rise)
      = (positions i).due acc + rise * (positions i).weight := by
    simp only [Position.due]
    ring
  have raised : (support fun i => rise * (positions i).weight).Finite :=
    few.weight.subset fun i there same => there (by simp [same])
  simp only [totalDue, totalWeight, split]
  rw [finsum_add_distrib (few.due acc) raised, mul_finsum' _ rise few.weight]

section Update

variable [DecidableEq ι]

theorem Few.update (few : Few positions) (i : ι) (p : Position R)
    : Few (update positions i p) := by
  refine Set.Finite.subset (Set.Finite.insert i few) fun j there => ?_
  by_cases same : j = i
  · exact .inl same
  · exact .inr (by simpa [same] using there)

/-- The weight after one position changes. -/
theorem totalWeight_update (few : Few positions) (i : ι) (p : Position R)
    : totalWeight (Function.update positions i p)
      = totalWeight positions - (positions i).weight + p.weight := by
  rw [totalWeight, totalWeight, ← finsum_update few.weight i p.weight]
  congr 1
  funext j
  by_cases same : j = i
  · subst same
    simp
  · simp [same]

/-- What is due after one position changes. -/
theorem totalDue_update (few : Few positions) (acc : R) (i : ι) (p : Position R)
    : totalDue acc (Function.update positions i p)
      = totalDue acc positions - (positions i).due acc + p.due acc := by
  rw [totalDue, totalDue, ← finsum_update (few.due acc) i (p.due acc)]
  congr 1
  funext j
  by_cases same : j = i
  · subst same
    simp
  · simp [same]

end Update

-----------------------------------------------------------------------------------------
-- Solvency
-----------------------------------------------------------------------------------------

variable [LinearOrder R]

/-- (Solvent scale acc held fund positions) says that a fund covers what is due at `acc` and the
part `held` that nobody has been assigned.
-/
def Solvent (scale acc held fund : R) (positions : ι → Position R) : Prop :=
  totalDue acc positions + scale * held ≤ scale * fund

/-- Every position has a non-negative weight and was paid at a reading of the past. -/
def Past (acc : R) (positions : ι → Position R) : Prop :=
  ∀ i, 0 ≤ (positions i).weight ∧ (0 < (positions i).weight → (positions i).start ≤ acc)

variable {scale acc held fund : R}

theorem Past.mono {acc' : R} (past : Past acc positions) (later : acc ≤ acc')
    : Past acc' positions :=
  fun i => ⟨(past i).1, fun some => ((past i).2 some).trans later⟩

variable [IsStrictOrderedRing R]

theorem Past.due_nonneg (past : Past acc positions) (i : ι) : 0 ≤ (positions i).due acc := by
  obtain ⟨nonneg, earlier⟩ := past i
  rcases nonneg.eq_or_lt with none | some
  · simp [Position.due, ← none]
  · exact mul_nonneg nonneg (sub_nonneg.mpr (earlier some))

theorem Past.weight_nonneg (past : Past acc positions) : 0 ≤ totalWeight positions :=
  finsum_nonneg fun i => (past i).1

/-- No position weighs more than all of them. -/
theorem Past.weight_le (past : Past acc positions) (few : Few positions) (i : ι)
    : (positions i).weight ≤ totalWeight positions :=
  single_le_finsum i few.weight fun j => (past j).1

theorem Past.due_le (past : Past acc positions) (few : Few positions) (i : ι)
    : (positions i).due acc ≤ totalDue acc positions :=
  single_le_finsum i (few.due acc) past.due_nonneg

theorem Past.totalDue_nonneg (past : Past acc positions) : 0 ≤ totalDue acc positions :=
  finsum_nonneg past.due_nonneg

/-- An inflow may be held. -/
theorem Solvent.hold (solvent : Solvent scale acc held fund positions) (inflow : R)
    : Solvent scale acc (held + inflow) (fund + inflow) positions := by
  unfold Solvent at *
  linarith

/-- An inflow, with what was held before, may be assigned by a raise that it covers. -/
theorem Solvent.raise (solvent : Solvent scale acc held fund positions) (few : Few positions)
    {inflow rise : R} (covered : rise * totalWeight positions ≤ (held + inflow) * scale)
    : Solvent scale (acc + rise) 0 (fund + inflow) positions := by
  unfold Solvent at *
  rw [totalDue_raise few]
  linarith

/-- All the payments that are due fit into the fund. -/
theorem Solvent.covers (solvent : Solvent scale acc held fund positions) (few : Few positions)
    {owed : ι → R} (due : ∀ i, owed i * scale ≤ (positions i).due acc)
    (vacant : ∀ i, positions i = .vacant → owed i = 0)
    : (∑ᶠ i, owed i + held) * scale ≤ fund * scale := by
  have supported : (support owed).Finite :=
    Set.Finite.subset few fun i there empty => there (vacant i empty)
  have scaled : (support fun i => owed i * scale).Finite :=
    supported.subset fun i there same => there (by simp [same])
  have sum : (∑ᶠ i, owed i) * scale ≤ totalDue acc positions := by
    rw [finsum_mul' _ scale supported]
    exact finsum_le_finsum' scaled (few.due acc) due
  unfold Solvent at solvent
  linarith

-----------------------------------------------------------------------------------------
-- One position changes
-----------------------------------------------------------------------------------------

section Change

variable [DecidableEq ι]

omit [IsStrictOrderedRing R] in
theorem Past.update (past : Past acc positions) (i : ι) {p : Position R} (nonneg : 0 ≤ p.weight)
    (earlier : 0 < p.weight → p.start ≤ acc)
    : Past acc (Function.update positions i p) := by
  intro j
  by_cases same : j = i
  · subst same
    simpa using ⟨nonneg, earlier⟩
  · simpa [same] using past j

/-- A position may be paid what it is due and replaced by one that is due nothing. -/
theorem Solvent.pay (solvent : Solvent scale acc held fund positions) (few : Few positions)
    (i : ι) {p : Position R} (paid : p.due acc = 0) {owed : R}
    (covered : owed * scale ≤ (positions i).due acc)
    : Solvent scale acc held (fund - owed) (update positions i p) := by
  unfold Solvent at *
  rw [totalDue_update few, paid]
  linarith

/-- A position may be given up. -/
theorem Solvent.leave (solvent : Solvent scale acc held fund positions) (few : Few positions)
    (past : Past acc positions) (i : ι)
    : Solvent scale acc held fund (update positions i .vacant) := by
  have left := past.due_nonneg i
  unfold Solvent at *
  rw [totalDue_update few, Position.vacant_due]
  linarith

end Change

-----------------------------------------------------------------------------------------
-- Since a reading
-----------------------------------------------------------------------------------------

/-- A position as if it had been paid at the reading `base`, if it was last paid before. -/
def Position.since (base : R) (p : Position R) : Position R :=
  if p.weight = 0 then .vacant else ⟨p.weight, max p.start base⟩

omit [IsStrictOrderedRing R] in
@[simp]
theorem Position.since_weight (base : R) (p : Position R) : (p.since base).weight = p.weight := by
  unfold Position.since
  split
  · rename_i weightless
    rw [weightless]
    rfl
  · rfl

omit [IsStrictOrderedRing R] in
theorem Position.since_due (base acc : R) (p : Position R)
    : (p.since base).due acc = p.weight * (acc - max p.start base) := by
  unfold Position.since
  split
  · rename_i weightless
    simp [weightless]
  · rfl

omit [IsStrictOrderedRing R] in
theorem Few.since (few : Few positions) (base : R) : Few (Position.since base ∘ positions) := by
  refine Set.Finite.subset few fun i there same => there ?_
  rw [Function.comp_apply, same]
  exact if_pos rfl

omit [IsStrictOrderedRing R] in
theorem totalWeight_since (base : R) (positions : ι → Position R)
    : totalWeight (Position.since base ∘ positions) = totalWeight positions := by
  simp [totalWeight]

omit [IsStrictOrderedRing R] in
/-- Positions of the past are due nothing for the time since now. -/
theorem Past.due_since_now (past : Past acc positions) (i : ι)
    : ((positions i).since acc).due acc = 0 := by
  obtain ⟨nonneg, earlier⟩ := past i
  rw [Position.since_due]
  rcases nonneg.eq_or_lt with none | some
  · rw [← none, zero_mul]
  · rw [max_eq_right (earlier some), sub_self, mul_zero]

end RewardAccumulator
