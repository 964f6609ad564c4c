import Mathlib.Algebra.Ring.Nat
import Mathlib.Data.List.Nodup

/-! Positions in a list and in what is left of it: which elements a filter leaves where they were,
and what falls to each of several consumers that cut a list in turn.
-/

namespace Positions

variable {α κ : Type}

-----------------------------------------------------------------------------------------
-- Filters
-----------------------------------------------------------------------------------------

/-- An element that a filter keeps stands behind those kept before it, by induction on the list. -/
theorem filter_position {p : α → Bool} {l : List α} {i : ℕ} {a : α} (at_i : l[i]? = some a)
    (kept : p a = true)
    : (l.filter p)[(l.take i).countP p]? = some a := by
  induction l generalizing i with
  | nil => cases at_i
  | cons b rest ih =>
      cases i with
      | zero =>
          obtain rfl := Option.some.inj at_i
          rw [List.take_zero, List.countP_nil, List.filter_cons_of_pos kept]
          rfl
      | succ i =>
          have later := ih at_i
          rw [List.take_succ_cons]
          by_cases first : p b = true
          · rwa [List.countP_cons_of_pos first, List.filter_cons_of_pos first]
          · rwa [List.countP_cons_of_neg first, List.filter_cons_of_neg first]

/-- Two positions of one element are the same where no element stands twice. -/
theorem position_unique {l : List α} (nodup : l.Nodup) {i j : ℕ} {a : α} (at_i : l[i]? = some a)
    (at_j : l[j]? = some a)
    : i = j :=
  (List.getElem?_inj (List.getElem?_eq_some_iff.mp at_i).1 nodup).mp (at_i.trans at_j.symm)

/-- A filter leaves an element where it was just if it keeps all those before. -/
theorem filter_stays_iff {p : α → Bool} {l : List α} (nodup : l.Nodup) {i : ℕ} {a : α}
    (at_i : l[i]? = some a) (kept : p a = true)
    : (l.filter p)[i]? = some a ↔ ∀ b ∈ l.take i, p b = true := by
  have inside := (List.getElem?_eq_some_iff.mp at_i).1
  have length : (l.take i).length = i := by rw [List.length_take, Nat.min_eq_left (Nat.le_of_lt inside)]
  have stands := filter_position at_i kept
  rw [← List.countP_eq_length, length]
  constructor
  · intro stays
    exact position_unique (nodup.filter p) stands stays
  · intro all
    rwa [all] at stands

/-- A filter leaves all that it keeps where it was just if it drops nothing before it. -/
theorem filter_stays_all_iff {p : α → Bool} {l : List α} (nodup : l.Nodup)
    : (∀ (i : ℕ) a, l[i]? = some a → p a = true → (l.filter p)[i]? = some a)
      ↔ l.Pairwise fun a b => p b = true → p a = true := by
  rw [List.pairwise_iff_getElem]
  constructor
  · intro stays i j hi hj before kept
    have at_j := List.getElem?_eq_getElem hj
    refine (filter_stays_iff nodup at_j kept).mp (stays j _ at_j kept) _ ?_
    exact List.mem_take_iff_getElem.mpr ⟨i, Nat.lt_min.mpr ⟨before, hi⟩, rfl⟩
  · intro before i a at_i kept
    refine (filter_stays_iff nodup at_i kept).mpr fun b there => ?_
    obtain ⟨j, inside, rfl⟩ := List.mem_take_iff_getElem.mp there
    obtain ⟨hi, rfl⟩ := List.getElem?_eq_some_iff.mp at_i
    exact before j i _ hi (Nat.lt_min.mp inside).1 kept

-----------------------------------------------------------------------------------------
-- Slices
-----------------------------------------------------------------------------------------

/-- Every consumer in turn takes as many as it asks for. -/
def slices : List (κ × ℕ) → List α → List (κ × List α)
  | [], _ => []
  | (k, n) :: rest, l => (k, l.take n) :: slices rest (l.drop n)

/-- Nobody is left out. -/
theorem slices_keys (entries : List (κ × ℕ)) (l : List α)
    : (slices entries l).map Prod.fst = entries.map Prod.fst := by
  induction entries generalizing l with
  | nil => rfl
  | cons entry rest ih => exact congrArg _ (ih _)

/-- A consumer's slice begins where those before it have ended, by induction on them. -/
theorem slices_append (before after : List (κ × ℕ)) (k : κ) (n : ℕ) (l : List α)
    : ∃ firsts lasts : List (κ × List α),
      slices (before ++ (k, n) :: after) l
        = firsts ++ (k, (l.drop (before.map Prod.snd).sum).take n) :: lasts
      ∧ firsts.map Prod.fst = before.map Prod.fst ∧ lasts.map Prod.fst = after.map Prod.fst := by
  induction before generalizing l with
  | nil => exact ⟨[], slices after (l.drop n), by simp [slices], rfl, slices_keys _ _⟩
  | cons entry rest ih =>
      obtain ⟨firsts, lasts, cut, first_keys, last_keys⟩ := ih (l.drop entry.2)
      refine ⟨(entry.1, l.take entry.2) :: firsts, lasts, ?_, congrArg _ first_keys, last_keys⟩
      rw [List.cons_append, slices, cut, List.drop_drop]
      rfl

end Positions
