import Mathlib.Algebra.Order.BigOperators.Group.List
import Mathlib.Algebra.Order.Ring.Int
import Mathlib.Data.List.Forall2
import Mathlib.Tactic.Ring
import Mathlib.Tactic.Linarith

/-! Floored parts of a pot by weight, and claims that burn down the pot together with the total of
the weights: every floor favours those still waiting, so that no order of the claims pays anyone
less than the part of the first pot.
-/

namespace ProRata

/-- The floored part of a pot that a weight out of a total is due. -/
def part (pot weight total : Int) : Int := pot * weight / total

section Part

variable {pot weight total : Int}

theorem part_nonneg (pot_nonneg : 0 ≤ pot) (weight_nonneg : 0 ≤ weight) (total_nonneg : 0 ≤ total)
    : 0 ≤ part pot weight total :=
  Int.ediv_nonneg (mul_nonneg pot_nonneg weight_nonneg) total_nonneg

/-- A part of at most the whole weight is at most the pot. -/
theorem part_le (pot_nonneg : 0 ≤ pot) (le : weight ≤ total) (total_pos : 0 < total)
    : part pot weight total ≤ pot :=
  Int.ediv_le_of_le_mul total_pos (mul_le_mul_of_nonneg_left le pot_nonneg)

/-- A part of at least the whole weight is at least the pot. -/
theorem le_part (pot_nonneg : 0 ≤ pot) (le : total ≤ weight) (total_pos : 0 < total)
    : pot ≤ part pot weight total :=
  (Int.le_ediv_iff_mul_le total_pos).mpr (mul_le_mul_of_nonneg_left le pot_nonneg)

/-- The part of a lesser weight leaves something in the pot. -/
theorem part_lt (pot_pos : 0 < pot) (lt : weight < total) (total_pos : 0 < total)
    : part pot weight total < pot :=
  (Int.ediv_lt_iff_lt_mul total_pos).mpr (mul_lt_mul_of_pos_left lt pot_pos)

theorem part_whole (total_pos : 0 < total) : part pot total total = pot :=
  Int.mul_ediv_cancel pot total_pos.ne'

/-- A part grows with the pot and with the weight. -/
theorem part_mono {more heavier : Int} (pot_nonneg : 0 ≤ pot) (weight_nonneg : 0 ≤ weight)
    (total_pos : 0 < total) (pots : pot ≤ more) (weights : weight ≤ heavier)
    : part pot weight total ≤ part more heavier total :=
  Int.ediv_le_ediv total_pos
    (mul_le_mul pots weights weight_nonneg (pot_nonneg.trans pots))

/-- A part shrinks as the total grows. -/
theorem part_anti {greater : Int} (pot_nonneg : 0 ≤ pot) (weight_nonneg : 0 ≤ weight)
    (total_pos : 0 < total) (totals : total ≤ greater)
    : part pot weight greater ≤ part pot weight total := by
  refine (Int.le_ediv_iff_mul_le total_pos).mpr ?_
  have floored := Int.ediv_mul_le (pot * weight) (total_pos.trans_le totals).ne'
  have shrunk := mul_le_mul_of_nonneg_left totals
    (part_nonneg pot_nonneg weight_nonneg (total_pos.le.trans totals))
  exact shrunk.trans floored

/-- The parts of two pots are at most the part of both together. -/
theorem part_add_le (first second : Int) (total_pos : 0 < total)
    : part first weight total + part second weight total ≤ part (first + second) weight total := by
  refine (Int.le_ediv_iff_mul_le total_pos).mpr ?_
  have left := Int.ediv_mul_le (first * weight) total_pos.ne'
  have right := Int.ediv_mul_le (second * weight) total_pos.ne'
  unfold part
  rw [add_mul, add_mul]
  exact add_le_add left right

end Part

-----------------------------------------------------------------------------------------
-- Burning down a fund
-----------------------------------------------------------------------------------------

/-- A pot, and the total of the weights that share it. -/
structure Fund where
  pot : Int
  total : Int

namespace Fund

/-- What is left when a weight has been paid its part. -/
def take (f : Fund) (weight : Int) : Fund :=
  ⟨f.pot - part f.pot weight f.total, f.total - weight⟩

/-- (Covers later first) says that a unit of weight is due as much from the later fund as from the
first.
-/
def Covers (later first : Fund) : Prop := first.pot * later.total ≤ later.pot * first.total

variable {first f later : Fund}

theorem Covers.refl (f : Fund) : f.Covers f := le_refl (f.pot * f.total)

/-- Cover is transitive through a fund that still has weights, by cross multiplication. -/
theorem Covers.trans (onward : later.Covers f) (before : f.Covers first) (middle : 0 < f.total)
    (first_nonneg : 0 ≤ first.total) (later_nonneg : 0 ≤ later.total)
    : later.Covers first := by
  have left := mul_le_mul_of_nonneg_right before later_nonneg
  have right := mul_le_mul_of_nonneg_right onward first_nonneg
  refine le_of_mul_le_mul_right (a := f.total) ?_ middle
  linarith only [left, right]

/-- Paying a part keeps what a unit of weight is due, as the part floors. -/
theorem take_covers (f : Fund) {weight : Int} (total_pos : 0 < f.total)
    : (f.take weight).Covers f := by
  have floored := Int.ediv_mul_le (f.pot * weight) total_pos.ne'
  unfold Covers take part
  simp only
  rw [mul_sub, sub_mul]
  exact sub_le_sub_left floored _

/-- A fund that covers another pays every weight at least as much. -/
theorem Covers.part_le (covers : later.Covers first) {weight : Int} (weight_nonneg : 0 ≤ weight)
    (first_pos : 0 < first.total) (later_pos : 0 < later.total)
    : part first.pot weight first.total ≤ part later.pot weight later.total := by
  refine (Int.le_ediv_iff_mul_le later_pos).mpr ?_
  have floored := mul_le_mul_of_nonneg_right
    (Int.ediv_mul_le (first.pot * weight) first_pos.ne') later_pos.le
  have crossed := mul_le_mul_of_nonneg_right covers weight_nonneg
  refine le_of_mul_le_mul_right (a := first.total) ?_ first_pos
  unfold part
  linarith only [floored, crossed]

/-- What a list of weights is paid, in turn. -/
def pays : Fund → List Int → List Int
  | _, [] => []
  | f, weight :: rest => part f.pot weight f.total :: pays (f.take weight) rest

/-- The fund after a list of weights has been paid. -/
def after : Fund → List Int → Fund
  | f, [] => f
  | f, weight :: rest => after (f.take weight) rest

/-- The payments come out of the pot. -/
theorem pays_sum (f : Fund) (weights : List Int)
    : (f.pays weights).sum + (f.after weights).pot = f.pot := by
  induction weights generalizing f with
  | nil => simp [pays, after]
  | cons weight rest ih =>
      have paid := ih (f.take weight)
      simp only [pays, after, List.sum_cons, take] at paid ⊢
      omega

/-- The pot is never overdrawn, by induction on the weights still to be paid. -/
theorem after_nonneg {weights : List Int} (pot_nonneg : 0 ≤ f.pot)
    (positive : ∀ weight ∈ weights, 0 < weight) (within : weights.sum ≤ f.total)
    : 0 ≤ (f.after weights).pot := by
  induction weights generalizing f with
  | nil => exact pot_nonneg
  | cons weight rest ih =>
      have first := positive weight (List.mem_cons_self ..)
      have others : ∀ w ∈ rest, 0 < w := fun w there => positive w (List.mem_cons_of_mem _ there)
      have rest_nonneg := List.sum_nonneg fun w there => (others w there).le
      rw [List.sum_cons] at within
      have bounded : part f.pot weight f.total ≤ f.pot :=
        part_le pot_nonneg (by omega) (by omega)
      exact ih (sub_nonneg.mpr bounded) others (by simp only [take]; omega)

/-- Every weight is paid at least its part of any fund that the present one covers; by induction
on the weights, as the fund left over covers it again.
-/
theorem Covers.pays_fair {weights : List Int} (covers : f.Covers first)
    (first_pos : 0 < first.total) (positive : ∀ weight ∈ weights, 0 < weight)
    (within : weights.sum ≤ f.total)
    : List.Forall₂ (fun weight paid => part first.pot weight first.total ≤ paid)
        weights (f.pays weights) := by
  induction weights generalizing f with
  | nil => exact .nil
  | cons weight rest ih =>
      have head := positive weight (List.mem_cons_self ..)
      have others : ∀ w ∈ rest, 0 < w := fun w there => positive w (List.mem_cons_of_mem _ there)
      have rest_nonneg := List.sum_nonneg fun w there => (others w there).le
      rw [List.sum_cons] at within
      have total_pos : 0 < f.total := by omega
      refine .cons (covers.part_le head.le first_pos total_pos) ?_
      refine ih ((take_covers f total_pos).trans covers total_pos first_pos.le ?_) others ?_
      · simp only [take]
        omega
      · simp only [take]
        omega

/-- When the weights are the whole total, the last of them takes the rest of the pot. -/
theorem after_all {weights : List Int} (some : weights ≠ [])
    (positive : ∀ weight ∈ weights, 0 < weight) (whole : weights.sum = f.total)
    : f.after weights = ⟨0, 0⟩ := by
  induction weights generalizing f with
  | nil => exact absurd rfl some
  | cons weight rest ih =>
      have head := positive weight (List.mem_cons_self ..)
      rw [List.sum_cons] at whole
      cases rest with
      | nil =>
          have last : weight = f.total := by simpa using whole
          subst last
          simp only [after, take, part_whole head, sub_self]
      | cons next rest =>
          refine ih (List.cons_ne_nil _ _) (fun w there => positive w ?_) ?_
          · exact List.mem_cons_of_mem _ there
          · simp only [take]
            omega

end Fund

end ProRata
