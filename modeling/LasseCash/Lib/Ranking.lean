import Mathlib.Data.Finite.Defs
import Mathlib.Data.List.Sort
import Mathlib.Data.Set.Finite.Basic

/-! Selecting the entries that rank first: by a window of bounded size that an insertion loop
keeps sorted, and by a board of bounded size that need not be sorted at all. The lower of two ranks
comes first.
-/

namespace Ranking

variable {α β : Type} [LinearOrder β] (rank : α → β)

-----------------------------------------------------------------------------------------
-- A bounded window
-----------------------------------------------------------------------------------------

/-- (Weaker rank a b) says that `a` ranks no better than `b`. -/
abbrev Weaker (a b : α) : Prop := rank b ≤ rank a

instance : IsTrans α (Weaker rank) := ⟨fun _ _ _ first second => le_trans second first⟩

instance : Std.Total (Weaker rank) := ⟨fun a b => le_total (rank b) (rank a)⟩

/-- One entry enters a window that is held weakest first and keeps at most `n` of them. -/
def keep (n : Nat) (window : List α) (a : α) : List α :=
  (window.orderedInsert (Weaker rank) a).drop (window.length + 1 - n)

variable {rank}

/-- What is cut off a sorted list does not matter to what stays of it after an insertion, by
induction on the cut.
-/
theorem drop_orderedInsert {l : List α} (sorted : l.Pairwise (Weaker rank)) (a : α) (cut : Nat)
    : ((l.drop cut).orderedInsert (Weaker rank) a).drop 1
      = (l.orderedInsert (Weaker rank) a).drop (cut + 1) := by
  induction cut generalizing l with
  | zero => rfl
  | succ cut ih =>
      cases l with
      | nil => simp
      | cons first rest =>
          obtain ⟨least, sorted⟩ := List.pairwise_cons.mp sorted
          by_cases weaker : Weaker rank a first
          · rw [List.orderedInsert_cons_of_le _ rest weaker]
            simp only [List.drop_succ_cons]
            cases kept : rest.drop cut with
            | nil => rfl
            | cons b later =>
                have there : b ∈ rest := List.mem_of_mem_drop (kept ▸ List.mem_cons_self)
                have weaker' : Weaker rank a b := le_trans (least b there) weaker
                rw [List.orderedInsert_cons_of_le _ later weaker']
                rfl
          · rw [List.orderedInsert_of_not_le _ rest weaker]
            exact ih sorted

/-- The window of a sorted list follows it through an insertion. -/
theorem keep_window {l : List α} (sorted : l.Pairwise (Weaker rank)) (n : Nat) (a : α)
    : keep rank n (l.drop (l.length - n)) a
      = (l.orderedInsert (Weaker rank) a).drop (l.length + 1 - n) := by
  unfold keep
  by_cases full : n ≤ l.length
  · have one : (l.drop (l.length - n)).length + 1 - n = 1 := by
      rw [List.length_drop]
      omega
    rw [one, drop_orderedInsert sorted, Nat.sub_add_comm full]
  · rw [Nat.sub_eq_zero_of_le (by omega : l.length ≤ n), List.drop_zero]

variable (rank) in
/-- The window keeps the `n` entries that rank first, by induction on the entries that come. -/
theorem foldl_keep (n : Nat) (entries : List α)
    : ∃ ranked : List α, ranked.Perm entries ∧ ranked.Pairwise (rank · ≤ rank ·)
      ∧ (entries.foldl (keep rank n) []).reverse = ranked.take n := by
  have windows (seen : List α) (sorted : seen.Pairwise (Weaker rank))
      : ∃ weakest : List α, weakest.Perm (entries ++ seen) ∧ weakest.Pairwise (Weaker rank)
        ∧ entries.foldl (keep rank n) (seen.drop (seen.length - n))
          = weakest.drop (weakest.length - n) := by
    induction entries generalizing seen with
    | nil => exact ⟨seen, .refl seen, sorted, rfl⟩
    | cons a rest ih =>
        obtain ⟨weakest, same, ordered, window⟩ :=
          ih (seen.orderedInsert (Weaker rank) a) (sorted.orderedInsert a seen)
        refine ⟨weakest, ?_, ordered, ?_⟩
        · refine same.trans ?_
          exact ((List.perm_orderedInsert _ a seen).append_left rest).trans List.perm_middle
        · rw [List.foldl_cons, keep_window sorted, ← window, List.orderedInsert_length]
  obtain ⟨weakest, same, ordered, window⟩ := windows [] .nil
  rw [List.append_nil] at same
  refine ⟨weakest.reverse, weakest.reverse_perm.trans same, List.pairwise_reverse.mpr ordered, ?_⟩
  rw [List.take_reverse, ← window, List.drop_nil]

-----------------------------------------------------------------------------------------
-- The first entries of all
-----------------------------------------------------------------------------------------

/-- (Leads rank fit n order) says that `order` lists, in some order, the at most `n` fit entries
that rank first.
-/
structure Leads (rank : α → β) (fit : α → Prop) (n : Nat) (order : List α) : Prop where
  apart : order.Nodup
  few : order.length ≤ n
  able : ∀ a ∈ order, fit a
  rest : ∀ b ∉ order, fit b → order.length = n ∧ ∀ a ∈ order, rank a < rank b

variable {fit : α → Prop} {n : Nat} {order : List α}

/-- Of finitely many fit entries some lead: the first `n` of them, ranked. -/
theorem exists_leads (inj : Function.Injective rank) (finite : {a | fit a}.Finite) (n : Nat)
    : ∃ order, Leads rank fit n order := by
  have listed (a : α) : a ∈ finite.toFinset.toList ↔ fit a := by simp
  obtain ⟨ranked, same, sorted, -⟩ := foldl_keep rank n finite.toFinset.toList
  have apart : ranked.Nodup := same.nodup_iff.mpr finite.toFinset.nodup_toList
  have able (a : α) : a ∈ ranked ↔ fit a := same.mem_iff.trans (listed a)
  have split := List.take_append_drop n ranked
  have both := List.pairwise_append.mp (split.symm ▸ sorted)
  have disjoint := (List.nodup_append.mp (split.symm ▸ apart)).2.2
  refine ⟨ranked.take n, apart.sublist (List.take_sublist n ranked), List.length_take_le n ranked,
    fun a there => (able a).mp (List.mem_of_mem_take there), fun b outside fits => ?_⟩
  have member := (able b).mpr fits
  rw [← split] at member
  have dropped := (List.mem_append.mp member).resolve_left outside
  have long : n < ranked.length := by
    have some_left := List.length_pos_of_mem dropped
    rw [List.length_drop] at some_left
    omega
  refine ⟨List.length_take_of_le long.le, fun a there => ?_⟩
  exact (both.2.2 a there b dropped).lt_of_ne fun tie => disjoint a there b dropped (inj tie)

/-- The first `n` of a ranked list of fit entries are those that lead, if it lists all of them. -/
theorem Leads.take_perm (leads : Leads rank fit n order) {ranked : List α}
    (apart : ranked.Nodup) (sorted : ranked.Pairwise (rank · ≤ rank ·))
    (able : ∀ a ∈ ranked, fit a) (all : order ⊆ ranked)
    : (ranked.take n).Perm order := by
  have split : (ranked.take n ++ ranked.drop n).Pairwise (rank · ≤ rank ·) := by
    rw [List.take_append_drop]
    exact sorted
  have before : ∀ x ∈ ranked.take n, ∀ y ∈ ranked.drop n, rank x ≤ rank y :=
    (List.pairwise_append.mp split).2.2
  have cut : (ranked.take n).Nodup := apart.sublist (List.take_sublist n ranked)
  have leading : ranked.take n ⊆ order := by
    intro x first
    by_contra outside
    obtain ⟨full, ahead⟩ := leads.rest x outside (able x (List.mem_of_mem_take first))
    -- all that lead stand before `x`, so there are too many of them
    have inside : order ⊆ ranked.take n := by
      intro a there
      by_contra behind
      have member := all there
      rw [← List.take_append_drop n ranked] at member
      have dropped := (List.mem_append.mp member).resolve_left behind
      exact absurd (ahead a there) (before x first a dropped).not_gt
    have more : (x :: order).length ≤ (ranked.take n).length :=
      (List.subperm_of_subset (List.nodup_cons.mpr ⟨outside, leads.apart⟩)
        (List.cons_subset.mpr ⟨first, inside⟩)).length_le
    rw [List.length_cons, full, List.length_take] at more
    omega
  have enough : order.length ≤ ranked.length :=
    (List.subperm_of_subset leads.apart all).length_le
  refine (List.subperm_of_subset cut leading).perm_of_length_le ?_
  rw [List.length_take]
  exact le_min leads.few enough

/-- Where whatever ranks before a fit entry is fit, fewer than `n` entries rank before one that
leads.
-/
theorem Leads.before_lt (leads : Leads rank fit n order)
    (upward : ∀ {a b : α}, fit a → rank b < rank a → fit b) {a : α} (here : a ∈ order)
    {front : List α} (apart : front.Nodup) (before : ∀ b ∈ front, rank b < rank a)
    : front.length < n := by
  have outside : a ∉ front := fun there => lt_irrefl _ (before a there)
  have inside : front ⊆ order := by
    intro b there
    by_contra trailing
    have late := leads.rest b trailing (upward (leads.able a here) (before b there))
    exact absurd (late.2 a here) (before b there).not_gt
  have fewer : (a :: front).length ≤ order.length :=
    (List.subperm_of_subset (List.nodup_cons.mpr ⟨outside, apart⟩)
      (List.cons_subset.mpr ⟨here, inside⟩)).length_le
  exact lt_of_lt_of_le (Nat.lt_of_succ_le fewer) leads.few

-----------------------------------------------------------------------------------------
-- A bounded board
-----------------------------------------------------------------------------------------

/-- (Fronted rank board a) says that `a` is on the board and nothing before it ranks after it. -/
inductive Fronted (rank : α → β) : List α → α → Prop
  | first {a : α} {back : List α} : Fronted rank (a :: back) a
  | next {a b : α} {back : List α} (before : rank b ≤ rank a) (later : Fronted rank back a)
      : Fronted rank (b :: back) a

theorem fronted_iff {board : List α} {a : α}
    : Fronted rank board a
      ↔ ∃ front back, board = front ++ a :: back ∧ ∀ b ∈ front, rank b ≤ rank a := by
  constructor
  · intro h
    induction h with
    | first => exact ⟨[], _, rfl, nofun⟩
    | @next a b back before later ih =>
        obtain ⟨front, back, rfl, ahead⟩ := ih
        exact ⟨b :: front, back, rfl, List.forall_mem_cons.mpr ⟨before, ahead⟩⟩
  · rintro ⟨front, back, rfl, ahead⟩
    induction front with
    | nil => exact .first
    | cons b front ih =>
        obtain ⟨before, ahead⟩ := List.forall_mem_cons.mp ahead
        exact .next before (ih ahead)

variable (rank) in
/-- An entry that is inserted before the first one it ranks before is fronted, by induction on the
board.
-/
theorem fronted_inserted (board : List α) (a : α)
    : Fronted rank (board.orderedInsert (rank · < rank ·) a) a := by
  induction board with
  | nil => exact .first
  | cons b rest ih =>
      by_cases ahead : rank a < rank b
      · rw [List.orderedInsert_cons, if_pos ahead]
        exact .first
      · rw [List.orderedInsert_cons, if_neg ahead]
        exact .next (not_lt.mp ahead) ih

/-- Such an insertion keeps the others fronted, by induction on what stands before them. -/
theorem Fronted.insert {board : List α} {a : α} (h : Fronted rank board a) (b : α)
    : Fronted rank (board.orderedInsert (rank · < rank ·) b) a := by
  induction h with
  | @first a back =>
      by_cases ahead : rank b < rank a
      · rw [List.orderedInsert_cons, if_pos ahead]
        exact .next ahead.le .first
      · rw [List.orderedInsert_cons, if_neg ahead]
        exact .first
  | @next a c back before later ih =>
      by_cases ahead : rank b < rank c
      · rw [List.orderedInsert_cons, if_pos ahead]
        exact .next (ahead.le.trans before) (.next before later)
      · rw [List.orderedInsert_cons, if_neg ahead]
        exact .next before ih

/-- So does dropping entries, by induction on what stands before them. -/
theorem Fronted.filter {board : List α} {a : α} (h : Fronted rank board a) {p : α → Bool}
    (stays : p a = true)
    : Fronted rank (board.filter p) a := by
  induction h with
  | first =>
      rw [List.filter_cons_of_pos stays]
      exact .first
  | next before later ih =>
      rw [List.filter_cons]
      split
      · exact .next before (ih stays)
      · exact ih stays

/-- A fronted entry that leads is among the first `n` of a board, so no cut at `n` or later loses
it.
-/
theorem Fronted.take (inj : Function.Injective rank) (leads : Leads rank fit n order)
    (upward : ∀ {a b : α}, fit a → rank b < rank a → fit b) {board : List α} {a : α}
    (h : Fronted rank board a) (here : a ∈ order) (apart : board.Nodup) {size : Nat}
    (room : n ≤ size)
    : Fronted rank (board.take size) a := by
  obtain ⟨front, back, rfl, ahead⟩ := fronted_iff.mp h
  obtain ⟨apartFront, -, disjoint⟩ := List.nodup_append.mp apart
  have before : ∀ b ∈ front, rank b < rank a := fun b there =>
    (ahead b there).lt_of_ne fun same => disjoint b there a List.mem_cons_self (inj same)
  have short := leads.before_lt upward here apartFront before
  refine fronted_iff.mpr ⟨front, back.take (size - front.length - 1), ?_, ahead⟩
  obtain ⟨left, rfl⟩ : ∃ left, size = front.length + (left + 1) :=
    ⟨size - front.length - 1, by omega⟩
  rw [List.take_length_add_append, List.take_succ_cons]
  simp

/-- Entries that a filter drops leave room on what is left of a list. -/
theorem filter_room {l dropped : List α} (apart : l.Nodup) {p : α → Bool} (alone : dropped.Nodup)
    (inside : dropped ⊆ l) (fails : ∀ a ∈ dropped, p a = false)
    : dropped.length + (l.filter p).length ≤ l.length := by
  have together : (dropped ++ l.filter p).Nodup := by
    refine List.nodup_append.mpr ⟨alone, apart.filter p, ?_⟩
    rintro a there b kept rfl
    have holds := (List.mem_filter.mp kept).2
    rw [fails a there] at holds
    cases holds
  have all : dropped ++ l.filter p ⊆ l :=
    List.append_subset.mpr ⟨inside, List.filter_subset_self l⟩
  rw [← List.length_append]
  exact (List.subperm_of_subset together all).length_le

end Ranking
