import LasseCash.Engine.ProofOfBrain
import LasseCash.Lib.ProRata

/-! Posts that claim the rewards of one window, one after the other: no order of the claims pays a
post less than its floored part of the pool, and the last claim empties it.
-/

namespace LasseCash.Engine

open MachineInt ProRata

namespace Pool

/-- The pool as a pot that is shared by rshares. -/
def fund (p : Pool) : Fund := ⟨p.balance, p.rshares⟩

/-- What posts of these rshares are paid in turn, and the pool after them. -/
def claimAll : Pool → List Int → List Int × Pool
  | p, [] => ([], p)
  | p, postRshares :: rest =>
      let (out, p) := p.claim postRshares
      let (outs, p) := claimAll p rest
      (out :: outs, p)

/-- A stocked pool pays a post its floored part: the multiply-divide is never refused and neither
clamp ever acts.
-/
theorem claim_eq {p : Pool} {postRshares : Int} (stocked : 0 < p.balance)
    (balance_word : p.balance < 2 ^ 63) (rshares_word : p.rshares < 2 ^ 63)
    (positive : 0 < postRshares) (within : postRshares ≤ p.rshares)
    : p.claim postRshares
      = (part p.balance postRshares p.rshares,
        ⟨p.balance - part p.balance postRshares p.rshares, p.rshares - postRshares⟩) := by
  have total_pos : 0 < p.rshares := by omega
  have nonneg := part_nonneg stocked.le positive.le total_pos.le
  have le := part_le stocked.le within total_pos
  have quotient : mulDiv p.balance postRshares p.rshares
      = some (part p.balance postRshares p.rshares) :=
    mulDiv_of_fits stocked.le positive.le total_pos (by
      change part p.balance postRshares p.rshares ≤ maxAmount
      unfold maxAmount
      omega)
  have bounded : ¬part p.balance postRshares p.rshares > p.balance := not_lt.mpr le
  have open_ : ¬(postRshares ≤ 0 ∨ p.rshares ≤ 0 ∨ p.balance ≤ 0) := by omega
  simp only [claim, open_, if_false, not_lt.mpr within, quotient, bounded]
  rw [i64_of_nonneg (by omega) (by omega), i64_of_nonneg (by omega) (by omega)]

/-- The claims burn down the pool as a fund. By induction on the posts: a post that is not the
last leaves something for the next.
-/
theorem claimAll_eq {p : Pool} {posts : List Int} (stocked : 0 < p.balance)
    (balance_word : p.balance < 2 ^ 63) (rshares_word : p.rshares < 2 ^ 63)
    (positive : ∀ r ∈ posts, 0 < r) (within : posts.sum ≤ p.rshares)
    : (p.claimAll posts).1 = p.fund.pays posts
      ∧ (p.claimAll posts).2.fund = p.fund.after posts := by
  induction posts generalizing p with
  | nil => exact ⟨rfl, rfl⟩
  | cons postRshares rest ih =>
      have head := positive postRshares (List.mem_cons_self ..)
      have others : ∀ r ∈ rest, 0 < r := fun r there => positive r (List.mem_cons_of_mem _ there)
      have rest_nonneg := List.sum_nonneg fun r there => (others r there).le
      rw [List.sum_cons] at within
      have paid := claim_eq stocked balance_word rshares_word head (by omega)
      have nonneg := part_nonneg stocked.le head.le (show 0 ≤ p.rshares by omega)
      rcases rest with _ | ⟨next, rest⟩
      · simp only [claimAll, paid]
        exact ⟨rfl, rfl⟩
      · have more := others next (List.mem_cons_self ..)
        have later := List.sum_nonneg fun r there => (others r (List.mem_cons_of_mem _ there)).le
        rw [List.sum_cons] at within rest_nonneg
        have left := part_lt stocked (show postRshares < p.rshares by omega) (by omega)
        have run := ih (p := ⟨p.balance - part p.balance postRshares p.rshares,
          p.rshares - postRshares⟩) (by simp only; omega) (by simp only; omega)
          (by simp only; omega) others (by simp only [List.sum_cons]; omega)
        simp only [claimAll, paid, fund, Fund.pays, Fund.after] at run ⊢
        exact ⟨congrArg _ run.1, run.2⟩

/-- In any order of the posts, each is paid at least its floored part of the first pool, all of
them together are paid at most the pool, and the last claim leaves nothing of it.
-/
theorem claimAll_fair {ι : Type} {rshares : ι → Int} {posts order : List ι} {p : Pool}
    (stocked : 0 < p.balance) (balance_word : p.balance < 2 ^ 63)
    (rshares_word : p.rshares < 2 ^ 63) (positive : ∀ i ∈ posts, 0 < rshares i)
    (whole : (posts.map rshares).sum = p.rshares) (shuffled : order.Perm posts)
    : List.Forall₂ (fun i paid => p.balance * rshares i / p.rshares ≤ paid)
        order (p.claimAll (order.map rshares)).1
      ∧ (p.claimAll (order.map rshares)).1.sum ≤ p.balance
      ∧ (posts ≠ [] → (p.claimAll (order.map rshares)).2 = ⟨0, 0⟩) := by
  have sum : (order.map rshares).sum = p.fund.total :=
    (shuffled.map rshares).sum_eq.trans whole
  have weights : ∀ r ∈ order.map rshares, 0 < r := by
    intro r there
    obtain ⟨i, listed, rfl⟩ := List.mem_map.mp there
    exact positive i (shuffled.mem_iff.mp listed)
  obtain ⟨outs, rest⟩ := claimAll_eq stocked balance_word rshares_word weights sum.le
  rw [outs]
  refine ⟨?_, ?_, ?_⟩
  · rcases eq_or_ne order [] with rfl | some
    · exact .nil
    · have total_pos : 0 < p.fund.total := by
        rw [← sum]
        exact List.sum_pos _ weights (by simpa using some)
      have fair := (Fund.Covers.refl p.fund).pays_fair total_pos weights sum.le
      exact (List.forall₂_map_left_iff (f := rshares)).mp fair
  · have kept := p.fund.pays_sum (order.map rshares)
    have left := Fund.after_nonneg (f := p.fund) stocked.le weights sum.le
    change _ ≤ p.fund.pot
    omega
  · intro some
    have listed : order.map rshares ≠ [] := by
      intro empty
      rw [List.map_eq_nil_iff.mp empty] at shuffled
      exact some shuffled.nil_eq.symm
    rw [Fund.after_all listed weights sum] at rest
    have balance := congrArg Fund.pot rest
    have total := congrArg Fund.total rest
    cases last : (p.claimAll (order.map rshares)).2
    rw [last] at balance total
    exact congrArg₂ Pool.mk balance total

/-- Three posts of one, two and four rshares, the largest first. -/
theorem claimAll_three
    : (⟨10, 7⟩ : Pool).claimAll [4, 1, 2] = ([5, 1, 4], ⟨0, 0⟩)
      ∧ ((⟨10, 7⟩ : Pool).claimAll ([4, 1, 2].map id)).1.sum ≤ 10 :=
  ⟨by decide, (@claimAll_fair Int id [1, 2, 4] [4, 1, 2] ⟨10, 7⟩ (by decide) (by decide)
    (by decide) (by decide) (by decide) (by decide)).2.1⟩

end Pool

end LasseCash.Engine
