import LasseCash.Lib.ProRata
import Mathlib.Data.List.Pairwise

/-! A bucket that refills at a steady rate up to its capacity, computed from the time of the last
draw only: whatever draws are made at whatever times, together they take at most one capacity and
what flows in between the first and the last of them.
-/

namespace TokenBucket

open ProRata

/-- What a bucket held when it was last drawn from, and when that was. -/
structure Bucket where
  tokens : Int
  since : Nat

section

variable (capacity period : Int)

/-- What can be drawn at a time: the inflow since the last draw floors, and the capacity cuts it. -/
def Bucket.available (b : Bucket) (time : Nat) : Int :=
  min capacity (b.tokens + part (time - b.since : Nat) capacity period)

/-- (Draws capacity period b draws) says that each of the draws, given by its time and its amount,
found what it took.
-/
def Draws : Bucket → List (Nat × Int) → Prop
  | _, [] => True
  | b, (time, amount) :: rest =>
      amount ≤ b.available capacity period time
        ∧ Draws ⟨b.available capacity period time - amount, time⟩ rest

end

variable {capacity period : Int} {b : Bucket} {draws : List (Nat × Int)}

theorem available_le (time : Nat) : b.available capacity period time ≤ capacity :=
  min_le_left _ _

/-- Draws after the last one take no more than what was left then and what flows in until the end.
By induction on the draws: the inflows between them floor apart, and so to no more than together.
-/
theorem Draws.total_le (drawn : Draws capacity period b draws) (capacity_nonneg : 0 ≤ capacity)
    (period_pos : 0 < period) {stop : Nat} (ordered : (draws.map Prod.fst).Pairwise (· ≤ ·))
    (begun : ∀ d ∈ draws, b.since ≤ d.1) (until_stop : ∀ d ∈ draws, d.1 ≤ stop)
    (tokens_nonneg : 0 ≤ b.tokens)
    : (draws.map Prod.snd).sum ≤ b.tokens + part (stop - b.since : Nat) capacity period := by
  induction draws generalizing b with
  | nil =>
      have inflow : 0 ≤ part (stop - b.since : Nat) capacity period :=
        part_nonneg (Int.natCast_nonneg _) capacity_nonneg period_pos.le
      exact add_nonneg tokens_nonneg inflow
  | cons d rest ih =>
      obtain ⟨time, amount⟩ := d
      obtain ⟨covered, later⟩ := drawn
      obtain ⟨after, sorted⟩ := List.pairwise_cons.mp ordered
      have start := begun (time, amount) (List.mem_cons_self ..)
      have ending := until_stop (time, amount) (List.mem_cons_self ..)
      simp only at start ending
      have rest_le := ih later sorted
        (fun d there => after d.1 (List.mem_map_of_mem there))
        (fun d there => until_stop d (List.mem_cons_of_mem _ there)) (sub_nonneg.mpr covered)
      have held : b.available capacity period time
          ≤ b.tokens + part (time - b.since : Nat) capacity period := min_le_right _ _
      have inflow : part (time - b.since : Nat) capacity period
            + part (stop - time : Nat) capacity period
          ≤ part ((time - b.since : Nat) + (stop - time : Nat)) capacity period :=
        part_add_le _ _ period_pos
      have span : ((time - b.since : Nat) : Int) + ((stop - time : Nat) : Int)
          = (stop - b.since : Nat) := by omega
      rw [span] at inflow
      simp only [List.map_cons, List.sum_cons] at rest_le ⊢
      omega

/-- Draws between two times take at most one capacity and the inflow between the times, whatever
the bucket held at first.
-/
theorem Draws.total_le_capacity (drawn : Draws capacity period b draws)
    (capacity_nonneg : 0 ≤ capacity) (period_pos : 0 < period) {start stop : Nat}
    (ordered : (draws.map Prod.fst).Pairwise (· ≤ ·))
    (between : ∀ d ∈ draws, start ≤ d.1 ∧ d.1 ≤ stop)
    : (draws.map Prod.snd).sum ≤ capacity + part (stop - start : Nat) capacity period := by
  cases draws with
  | nil =>
      exact add_nonneg capacity_nonneg
        (part_nonneg (Int.natCast_nonneg _) capacity_nonneg period_pos.le)
  | cons d rest =>
      obtain ⟨time, amount⟩ := d
      obtain ⟨covered, later⟩ := drawn
      obtain ⟨after, sorted⟩ := List.pairwise_cons.mp ordered
      have begun := (between (time, amount) (List.mem_cons_self ..)).1
      simp only at begun
      have rest_le := later.total_le capacity_nonneg period_pos sorted
        (fun d there => after d.1 (List.mem_map_of_mem there))
        (fun d there => (between d (List.mem_cons_of_mem _ there)).2) (sub_nonneg.mpr covered)
      have full : b.available capacity period time ≤ capacity := available_le time
      have inflow : part (stop - time : Nat) capacity period
          ≤ part (stop - start : Nat) capacity period :=
        part_mono (Int.natCast_nonneg _) capacity_nonneg period_pos (by omega) le_rfl
      simp only [List.map_cons, List.sum_cons] at rest_le ⊢
      omega

end TokenBucket
