import Mathlib.Algebra.BigOperators.Finprod
import Mathlib.Tactic.Abel

/-! Sums over the finitely many places where a function does not vanish, and how they follow one
write: books whose total is such a sum are kept by adding up what the writes change.
-/

namespace FiniteSum

open Function

variable {ι M : Type*} [DecidableEq ι] [AddCommGroup M] {f : ι → M}

/-- A write is the addition of its difference. -/
theorem update_eq_add (f : ι → M) (i : ι) (v : M)
    : update f i v = f + Pi.single i (v - f i) := by
  funext j
  by_cases same : j = i
  · subst same
    simp
  · simp [same]

/-- A write leaves all but finitely many places at zero. -/
theorem finite_update (finite : (support f).Finite) (i : ι) (v : M)
    : (support (update f i v)).Finite := by
  refine (finite.insert i).subset fun j there => ?_
  by_cases same : j = i
  · exact .inl same
  · exact .inr (by simpa [same] using there)

/-- The sum after a write. -/
theorem finsum_update (finite : (support f).Finite) (i : ι) (v : M)
    : finsum (update f i v) = finsum f - f i + v := by
  have single : finsum (Pi.single i (v - f i)) = v - f i := by
    rw [finsum_eq_single _ i fun j away => Pi.single_eq_of_ne away _, Pi.single_eq_same]
  have few : (support (Pi.single i (v - f i))).Finite :=
    (Set.finite_singleton i).subset Pi.support_single_subset
  rw [update_eq_add]
  change finsum (fun j => f j + (Pi.single i (v - f i) : ι → M) j) = _
  rw [finsum_add_distrib finite few]
  change finsum f + finsum (Pi.single i (v - f i)) = _
  rw [single]
  abel

/-- The sum over finitely many places after a change in one of them. -/
theorem sum_write {s : Finset ι} {g : ι → M} {i : ι} (mem : i ∈ s)
    (others : ∀ j ∈ s, j ≠ i → g j = f j)
    : s.sum g = s.sum f - f i + g i := by
  have rest : (s.erase i).sum g = (s.erase i).sum f :=
    Finset.sum_congr rfl fun j there =>
      others j (Finset.mem_of_mem_erase there) (Finset.ne_of_mem_erase there)
  rw [← Finset.add_sum_erase s f mem, ← Finset.add_sum_erase s g mem, rest]
  abel

end FiniteSum
