import Mathlib.Data.List.Sort

/-! The lower median of a list of values: the middle one in ascending order, and the lower of the
two middle ones of an even number. It does not depend on the order of the list, and what a majority
agrees on holds of it.
-/

namespace Median

variable {α : Type*} [LinearOrder α]

/-- The lower median, or a default where there are no values. -/
def lower (values : List α) (default : α) : α :=
  (values.mergeSort (· ≤ ·)).getD ((values.length - 1) / 2) default

/-- A list in ascending order is the sort of any of its permutations. -/
theorem eq_mergeSort {sorted values : List α} (same : sorted.Perm values)
    (ascends : sorted.Pairwise (· ≤ ·))
    : values.mergeSort (· ≤ ·) = sorted := by
  have ascends' := List.pairwise_mergeSort' (· ≤ ·) values
  refine ((List.mergeSort_perm values _).trans same.symm).eq_of_pairwise ?_ ascends' ascends
  intro a b _ _ first second
  exact first.antisymm second

/-- The lower median can be read off any ascending list of the values. -/
theorem lower_eq {sorted values : List α} (same : sorted.Perm values)
    (ascends : sorted.Pairwise (· ≤ ·)) (default : α)
    : lower values default = sorted.getD ((sorted.length - 1) / 2) default := by
  rw [lower, eq_mergeSort same ascends, same.length_eq]

theorem lower_perm {values others : List α} (same : others.Perm values) (default : α)
    : lower others default = lower values default := by
  have ascends := List.pairwise_mergeSort' (· ≤ ·) values
  have sort := List.mergeSort_perm values (fun a b => decide (a ≤ b))
  rw [lower_eq (sort.trans same.symm) ascends, lower_eq sort ascends]

/-- Where more than half of the values lie in an interval, so does the lower median: each side of
it, together with the median, makes half of the values.
-/
theorem lower_majority {values : List α} {a b : α}
    (more : values.length < 2 * values.countP (fun v => a ≤ v ∧ v ≤ b)) (default : α)
    : a ≤ lower values default ∧ lower values default ≤ b := by
  have sort := List.mergeSort_perm values (fun a b => decide (a ≤ b))
  have ascends := List.pairwise_mergeSort' (· ≤ ·) values
  rw [lower_eq sort ascends default]
  rw [← sort.length_eq, ← sort.countP_eq] at more
  generalize values.mergeSort (· ≤ ·) = sorted at ascends more
  have inside := List.countP_le_length (p := fun v => decide (a ≤ v ∧ v ≤ b)) (l := sorted)
  have middle : (sorted.length - 1) / 2 < sorted.length := by omega
  rw [← List.getElem_eq_getD (h := middle)]
  have order := List.pairwise_iff_getElem.mp ascends
  generalize here : (sorted.length - 1) / 2 = i at middle
  constructor
  · by_contra low
    have before : (sorted.take (i + 1)).countP (fun v => decide (a ≤ v ∧ v ≤ b)) = 0 := by
      refine List.countP_eq_zero.mpr fun v there => ?_
      obtain ⟨j, bound, rfl⟩ := List.mem_take_iff_getElem.mp there
      have below : sorted[j] ≤ sorted[i] := by
        rcases Nat.lt_or_eq_of_le (by omega : j ≤ i) with less | rfl
        · exact order j i _ middle less
        · exact le_rfl
      simp only [decide_eq_true_eq, not_and]
      exact fun above => absurd (above.trans below) low
    have rest := List.countP_le_length (p := fun v => decide (a ≤ v ∧ v ≤ b))
      (l := sorted.drop (i + 1))
    rw [← List.take_append_drop (i + 1) sorted, List.countP_append, before,
      List.length_append] at more
    simp only [List.length_drop, List.length_take] at more rest
    omega
  · by_contra high
    have behind : (sorted.drop i).countP (fun v => decide (a ≤ v ∧ v ≤ b)) = 0 := by
      refine List.countP_eq_zero.mpr fun v there => ?_
      obtain ⟨j, bound, rfl⟩ := List.mem_drop_iff_getElem.mp there
      have above : sorted[i] ≤ sorted[i + j] := by
        rcases Nat.eq_zero_or_pos j with rfl | positive
        · exact le_rfl
        · exact order i (i + j) middle _ (by omega)
      simp only [decide_eq_true_eq, not_and]
      exact fun _ within => absurd (above.trans within) high
    have rest := List.countP_le_length (p := fun v => decide (a ≤ v ∧ v ≤ b))
      (l := sorted.take i)
    rw [← List.take_append_drop i sorted, List.countP_append, behind, List.length_append] at more
    simp only [List.length_drop, List.length_take] at more rest
    omega

end Median
