import LasseCash.Engine.Governance
import LasseCash.Lib.Ranking
import Mathlib.Data.Prod.Lex
import Mathlib.Data.String.Basic

/-! The consensus group is the first ten of the holders with a positive share count, ranked. -/

namespace LasseCash.Engine

open Ranking

/-- A holder's rank: the more shares the lower, and ties go by account name. -/
def Holder.rank (h : Holder) : Int ×ₗ String := toLex (-h.shares, h.account)

theorem Holder.rank_injective : Function.Injective Holder.rank := by
  rintro ⟨account, shares⟩ ⟨account', shares'⟩ same
  obtain ⟨shares_eq, account_eq⟩ := Prod.mk.inj (toLex.injective same)
  exact congrArg₂ Holder.mk account_eq (neg_inj.mp shares_eq)

theorem betterThan_iff (a b : Holder) : betterThan a b = true ↔ ¬Weaker Holder.rank a b := by
  rw [Weaker, not_le]
  unfold betterThan Holder.rank
  rw [Prod.Lex.toLex_lt_toLex]
  by_cases same : a.shares = b.shares <;> simp [same]

/-- The shifting loop is a sorted insertion, by induction on the window. -/
theorem insertSeat_eq (h : Holder) (window : List Holder)
    : insertSeat h window = window.orderedInsert (Weaker Holder.rank) h := by
  induction window with
  | nil => rfl
  | cons last rest ih =>
      unfold insertSeat
      by_cases better : betterThan h last = true
      · have ahead := (betterThan_iff h last).mp better
        rw [if_pos better, List.orderedInsert_of_not_le _ rest ahead, ih]
      · have behind : Weaker Holder.rank h last :=
          not_not.mp fun ahead => better ((betterThan_iff h last).mpr ahead)
        rw [if_neg better, List.orderedInsert_cons_of_le _ rest behind]

/-- A round of the selection keeps the window of ten. -/
theorem seatHolder_eq {window : List Holder} (few : window.length ≤ consensusSize) (h : Holder)
    : seatHolder window h
      = if h.shares ≤ 0 then window else keep Holder.rank consensusSize window h := by
  unfold seatHolder keep
  rw [← insertSeat_eq]
  split
  · rfl
  split
  · rename_i full
    rw [full, Nat.add_sub_cancel_left]
    cases window with
    | nil => cases full
    | cons last rest =>
        simp only [insertSeat]
        by_cases better : betterThan h last = true
        · rw [if_pos better, if_pos better]
          rfl
        · rw [if_neg better, if_neg better]
          rfl
  · rw [Nat.sub_eq_zero_of_le (by omega), List.drop_zero]

/-- The selection ranks the holders with a positive share count and keeps the first ten. -/
theorem consensusGroup_ranked (holders : List Holder)
    : ∃ ranked : List Holder, ranked.Perm (holders.filter (0 < ·.shares))
      ∧ ranked.Pairwise (Holder.rank · ≤ Holder.rank ·)
      ∧ consensusGroup holders = ranked.take consensusSize := by
  have rounds (window : List Holder) (few : window.length ≤ consensusSize)
      : holders.foldl seatHolder window
        = (holders.filter (0 < ·.shares)).foldl (keep Holder.rank consensusSize) window := by
    induction holders generalizing window with
    | nil => rfl
    | cons h rest ih =>
        rw [List.foldl_cons, seatHolder_eq few]
        by_cases positive : 0 < h.shares
        · rw [if_neg (not_le.mpr positive), List.filter_cons_of_pos (by simpa using positive),
            List.foldl_cons]
          refine ih _ ?_
          rw [keep, List.length_drop, List.orderedInsert_length]
          omega
        · rw [if_pos (not_lt.mp positive), List.filter_cons_of_neg (by simpa using positive)]
          exact ih window few
  obtain ⟨ranked, same, sorted, window⟩ :=
    foldl_keep Holder.rank consensusSize (holders.filter (0 < ·.shares))
  refine ⟨ranked, same, sorted, ?_⟩
  rw [consensusGroup, rounds [] (Nat.zero_le _), window]

/-- The order of a full sort: more shares first, then the lower account name. -/
def seatsBefore (a b : Holder) : Bool :=
  a.shares > b.shares || (a.shares == b.shares && a.account ≤ b.account)

theorem seatsBefore_iff (a b : Holder) : seatsBefore a b = true ↔ a.rank ≤ b.rank := by
  unfold seatsBefore Holder.rank
  rw [Prod.Lex.toLex_le_toLex]
  simp

/-- A sorted list of holders is the sort of any of its permutations. -/
theorem eq_mergeSort {ranked holders : List Holder} (same : ranked.Perm holders)
    (sorted : ranked.Pairwise (Holder.rank · ≤ Holder.rank ·))
    : ranked = holders.mergeSort seatsBefore := by
  have total (a b : Holder) : (seatsBefore a b || seatsBefore b a) = true := by
    rw [Bool.or_eq_true, seatsBefore_iff, seatsBefore_iff]
    exact le_total a.rank b.rank
  have trans (a b c : Holder) (first : seatsBefore a b = true) (second : seatsBefore b c = true)
      : seatsBefore a c = true := by
    rw [seatsBefore_iff] at *
    exact first.trans second
  have sorted' := List.pairwise_mergeSort trans total holders
  refine (same.trans (List.mergeSort_perm holders seatsBefore).symm).eq_of_pairwise ?_ sorted
    (sorted'.imp fun before => (seatsBefore_iff _ _).mp before)
  intro a b _ _ first second
  exact Holder.rank_injective (first.antisymm second)

/-- The selection equals a full sort of the holders with a positive share count, cut after ten
seats, and so does not depend on the order in which the holders arrive.
-/
theorem consensusGroup_sorted (holders : List Holder)
    : consensusGroup holders
        = ((holders.filter (0 < ·.shares)).mergeSort seatsBefore).take
          (min consensusSize (holders.countP (0 < ·.shares)))
      ∧ ∀ others : List Holder, others.Perm holders
        → consensusGroup others = consensusGroup holders := by
  obtain ⟨ranked, same, sorted, selected⟩ := consensusGroup_ranked holders
  refine ⟨?_, fun others arrival => ?_⟩
  · have length : ranked.length = holders.countP (0 < ·.shares) := by
      rw [same.length_eq, List.countP_eq_length_filter]
    rw [selected, ← eq_mergeSort same sorted, ← length, ← List.take_eq_take_min]
  · obtain ⟨ranked', same', sorted', selected'⟩ := consensusGroup_ranked others
    have fewer := same'.trans ((arrival.filter _).trans same.symm)
    have equal := (eq_mergeSort (fewer.trans same) sorted').trans (eq_mergeSort same sorted).symm
    rw [selected, selected', equal]

/-- A tie of shares goes by the account name, whoever arrives first. -/
theorem consensusGroup_tie
    : consensusGroup [⟨"hive:b", 5⟩, ⟨"hive:a", 5⟩, ⟨"hive:c", 0⟩]
      = consensusGroup [⟨"hive:a", 5⟩, ⟨"hive:c", 0⟩, ⟨"hive:b", 5⟩] :=
  (consensusGroup_sorted [⟨"hive:a", 5⟩, ⟨"hive:c", 0⟩, ⟨"hive:b", 5⟩]).2 _ (by decide)

end LasseCash.Engine
