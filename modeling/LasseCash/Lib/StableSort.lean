import Mathlib.Data.List.Nodup
import Mathlib.Data.List.Sort

/-! Sorting by a key that keeps the order of what shares one, and when a list that is sorted so begins
another that is in order.
-/

namespace StableSort

variable {α β κ : Type} [LinearOrder κ] {key : α → κ} {l : List α}

/-- Elements in the order of their keys; those of one key stay as they are. -/
def byKey (key : α → κ) (l : List α) : List α := l.mergeSort fun a b => key a ≤ key b

theorem byKey_perm (key : α → κ) (l : List α) : (byKey key l).Perm l := List.mergeSort_perm _ _

theorem byKey_sorted (key : α → κ) (l : List α)
    : (byKey key l).Pairwise fun a b => key a ≤ key b := by
  have sorted : (byKey key l).Pairwise fun a b => decide (key a ≤ key b) = true :=
    List.pairwise_mergeSort (fun _ _ _ first next => decide_eq_true
        ((of_decide_eq_true first).trans (of_decide_eq_true next)))
      (fun a b => by simpa using le_total (key a) (key b)) l
  exact sorted.imp of_decide_eq_true

/-- What has one key stays as it is. -/
theorem byKey_filter_key (key : α → κ) (l : List α) (k : κ)
    : (byKey key l).filter (key · = k) = l.filter (key · = k) := by
  have alike : (l.filter (key · = k)).Pairwise fun a b => decide (key a ≤ key b) = true := by
    refine List.pairwise_of_forall_mem_list fun a there b there' => decide_eq_true ?_
    rw [of_decide_eq_true (List.mem_filter.mp there).2,
      of_decide_eq_true (List.mem_filter.mp there').2]
  have kept := List.sublist_mergeSort (fun _ _ _ first next => decide_eq_true
      ((of_decide_eq_true first).trans (of_decide_eq_true next)))
    (fun a b => by simpa using le_total (key a) (key b)) alike List.filter_sublist
  have inside := kept.filter (key · = k)
  simp only [List.filter_filter, Bool.and_self] at inside
  exact (inside.eq_of_length ((byKey_perm key l).filter _).length_eq.symm).symm

/-- Sorted lists are the same if they are for every key, by induction on the first. -/
theorem eq_of_keys {l l' : List α} (sorted : l.Pairwise fun a b => key a ≤ key b)
    (sorted' : l'.Pairwise fun a b => key a ≤ key b)
    (same : ∀ k, l.filter (key · = k) = l'.filter (key · = k))
    : l = l' := by
  induction l generalizing l' with
  | nil =>
      cases l' with
      | nil => rfl
      | cons b rest => simpa using same (key b)
  | cons a rest ih =>
      have among : a ∈ l' := by
        have there : a ∈ l'.filter (key · = key a) := same (key a) ▸ by simp
        exact (List.mem_filter.mp there).1
      cases l' with
      | nil => cases among
      | cons b rest' =>
          have among' : b ∈ a :: rest := by
            have there : b ∈ (a :: rest).filter (key · = key b) := same (key b) ▸ by simp
            exact (List.mem_filter.mp there).1
          have first : key a = key b := by
            refine le_antisymm ?_ ?_
            · rcases List.mem_cons.mp among' with rfl | later
              · exact le_rfl
              · exact (List.pairwise_cons.mp sorted).1 b later
            · rcases List.mem_cons.mp among with rfl | later
              · exact le_rfl
              · exact (List.pairwise_cons.mp sorted').1 a later
          obtain rfl : a = b := by
            have heads := same (key a)
            rw [List.filter_cons_of_pos (by simp), List.filter_cons_of_pos (by simp [first])]
              at heads
            exact (List.cons.inj heads).1
          congr 1
          refine ih sorted.of_cons sorted'.of_cons fun k => ?_
          have group := same k
          rw [List.filter_cons, List.filter_cons] at group
          split at group
          · exact (List.cons.inj group).2
          · exact group

/-- Filtering before the sort is as good as after it. -/
theorem byKey_filter (key : α → κ) (l : List α) (p : α → Bool)
    : (byKey key l).filter p = byKey key (l.filter p) := by
  refine eq_of_keys ((byKey_sorted key l).filter p) (byKey_sorted key _) fun k => ?_
  rw [byKey_filter_key, List.filter_comm, byKey_filter_key, List.filter_comm]

/-- What is sorted stays as it is. -/
theorem byKey_of_sorted (sorted : l.Pairwise fun a b => key a ≤ key b) : byKey key l = l :=
  eq_of_keys (byKey_sorted key l) sorted (byKey_filter_key key l)

/-- Elements that come with their parts are sorted with them. -/
theorem byKey_flatMap {key' : β → κ} {f : α → List β} (alike : ∀ a, ∀ b ∈ f a, key' b = key a)
    : byKey key' (l.flatMap f) = (byKey key l).flatMap f := by
  have parts (a : α) (k : κ) : (f a).filter (key' · = k) = if key a = k then f a else [] := by
    split
    · rename_i same
      exact List.filter_eq_self.mpr fun b there => decide_eq_true ((alike a b there).trans same)
    · rename_i other
      refine List.filter_eq_nil_iff.mpr fun b there => ?_
      rw [decide_eq_true_iff, alike a b there]
      exact other
  have groups (l : List α) (k : κ)
      : (l.flatMap f).filter (key' · = k) = (l.filter (key · = k)).flatMap f := by
    induction l with
    | nil => rfl
    | cons a rest ih =>
        rw [List.flatMap_cons, List.filter_append, ih, parts, List.filter_cons]
        by_cases same : key a = k
        · rw [if_pos same, if_pos (decide_eq_true same), List.flatMap_cons]
        · rw [if_neg same, if_neg (by simpa using same), List.nil_append]
  refine eq_of_keys (byKey_sorted key' _) ?_ fun k => ?_
  · refine List.pairwise_flatMap.mpr ⟨fun a _ => ?_, (byKey_sorted key l).imp fun le b hb c hc => ?_⟩
    · exact List.pairwise_of_forall_mem_list fun b hb c hc =>
        ((alike a b hb).trans (alike a c hc).symm).le
    · rw [alike _ b hb, alike _ c hc]
      exact le
  · rw [byKey_filter_key, groups, groups, byKey_filter_key]

-----------------------------------------------------------------------------------------
-- Beginnings
-----------------------------------------------------------------------------------------

/-- A list without repetition has one order. -/
theorem sublist_antisymm (nodup : l.Nodup) {a b : α} (first : [a, b].Sublist l)
    (back : [b, a].Sublist l)
    : a = b := by
  induction l with
  | nil => cases first
  | cons c rest ih =>
      obtain ⟨absent, nodup⟩ := List.nodup_cons.mp nodup
      cases first with
      | cons _ first =>
          cases back with
          | cons _ back => exact ih nodup first back
          | cons_cons _ back =>
              exact (absent (first.subset (by simp))).elim
      | cons_cons _ first =>
          cases back with
          | cons _ back => exact (absent (back.subset (by simp))).elim
          | cons_cons _ back => rfl

/-- The order of two elements is kept by a filter that keeps both. -/
theorem pair_sublist_filter {p : α → Bool} {a b : α}
    : [a, b].Sublist (l.filter p) ↔ [a, b].Sublist l ∧ p a = true ∧ p b = true := by
  constructor
  · intro before
    have kept (c : α) (there : c ∈ [a, b]) : p c = true :=
      (List.mem_filter.mp (before.subset there)).2
    exact ⟨before.trans List.filter_sublist, kept a (by simp), kept b (by simp)⟩
  · rintro ⟨before, first, second⟩
    have kept := before.filter p
    rwa [List.filter_cons_of_pos first, List.filter_cons_of_pos second, List.filter_nil] at kept

/-- It is kept by a function that tells both from all others. -/
theorem pair_sublist_map {β : Type*} {f : α → β} {a b : α}
    (apart : ∀ c ∈ l, (f c = f a → c = a) ∧ (f c = f b → c = b))
    : [f a, f b].Sublist (l.map f) ↔ [a, b].Sublist l := by
  refine ⟨fun before => ?_, fun before => before.map f⟩
  obtain ⟨pair, taken, images⟩ := List.sublist_map_iff.mp before
  obtain ⟨c, rest, rfl, first, rest_images⟩ := List.map_eq_cons_iff.mp images.symm
  obtain ⟨d, rest, rfl, second, rest_images⟩ := List.map_eq_cons_iff.mp rest_images
  obtain rfl := List.map_eq_nil_iff.mp rest_images
  rwa [(apart c (taken.subset (by simp))).1 first, (apart d (taken.subset (by simp))).2 second]
    at taken

/-- What is kept of a list begins it if nothing is dropped before something that is kept. -/
theorem filter_prefix {p : α → Bool} (closed : l.Pairwise fun a b => p b = true → p a = true)
    : l.filter p <+: l := by
  induction l with
  | nil => exact List.prefix_rfl
  | cons a rest ih =>
      obtain ⟨first, later⟩ := List.pairwise_cons.mp closed
      by_cases kept : p a = true
      · rw [List.filter_cons_of_pos kept]
        exact List.cons_prefix_cons.mpr ⟨rfl, ih later⟩
      · rw [List.filter_cons_of_neg kept, List.filter_eq_nil_iff.mpr fun b there kept' =>
          kept (first b there kept')]
        exact List.nil_prefix

/-- Two elements of a list are in one order or the other. -/
theorem sublist_or {a b : α} (here : a ∈ l) (there : b ∈ l) (differ : a ≠ b)
    : [a, b].Sublist l ∨ [b, a].Sublist l := by
  obtain ⟨before, after, rfl⟩ := List.append_of_mem here
  rcases List.mem_append.mp there with first | last
  · exact .inr ((List.singleton_sublist.mpr first).append
      (List.singleton_sublist.mpr List.mem_cons_self))
  · have later : b ∈ after := (List.mem_cons.mp last).resolve_left differ.symm
    exact .inl ((((List.singleton_sublist.mpr later).cons_cons a)).trans
      (List.sublist_append_right before _))

/-- Some elements of a list that is in order begin it when they are sorted, exactly if every element
before one of them is among them too, and those that share a key are in the order of the list.
-/
theorem byKey_prefix_iff {whole part : List α} (sorted : whole.Pairwise fun a b => key a ≤ key b)
    (nodup : whole.Nodup) (once : part.Nodup) (among : ∀ a ∈ part, a ∈ whole)
    : byKey key part <+: whole
      ↔ ∀ a b, [a, b].Sublist whole → b ∈ part
          → a ∈ part ∧ (key a = key b → [a, b].Sublist part) := by
  have sorted_once : (byKey key part).Nodup := (byKey_perm key part).nodup_iff.mpr once
  constructor
  · rintro ⟨rest, rfl⟩ a b before there
    have there' : b ∈ byKey key part := (byKey_perm key part).mem_iff.mpr there
    have absent : b ∉ rest := fun later =>
      (List.disjoint_of_nodup_append nodup) there' later
    have before' : [a, b].Sublist (byKey key part) := by
      obtain ⟨l₁, l₂, split, first, last⟩ := List.sublist_append_iff.mp before
      rcases List.eq_nil_or_concat l₂ with rfl | ⟨front, c, rfl⟩
      · rw [List.append_nil] at split
        exact split ▸ first
      · rw [List.concat_eq_append, ← List.append_assoc] at split
        obtain ⟨-, final⟩ := List.append_inj' (show [a] ++ [b] = _ from split) rfl
        obtain rfl := (List.cons.inj final).1
        exact absurd (last.subset (by simp)) absent
    refine ⟨(byKey_perm key part).mem_iff.mp (before'.subset (by simp)), fun same => ?_⟩
    have group := before'.filter (key · = key b)
    rw [List.filter_cons_of_pos (by simpa using same), List.filter_cons_of_pos (by simp),
      List.filter_nil, byKey_filter_key] at group
    exact group.trans List.filter_sublist
  · intro closed
    have order : (byKey key part).Pairwise fun a b => [a, b].Sublist whole := by
      refine List.pairwise_iff_forall_sublist.mpr fun {a b} before => ?_
      have members (c : α) (there : c ∈ [a, b]) : c ∈ part :=
        (byKey_perm key part).mem_iff.mp (before.subset there)
      have differ : a ≠ b := by simpa using sorted_once.sublist before
      rcases sublist_or (among a (members a (by simp))) (among b (members b (by simp))) differ
        with right | back
      · exact right
      · have le : key a ≤ key b :=
          List.pairwise_iff_forall_sublist.mp (byKey_sorted key part) before
        have ge : key b ≤ key a := List.pairwise_iff_forall_sublist.mp sorted back
        have same := le_antisymm le ge
        have group := before.filter (key · = key b)
        rw [List.filter_cons_of_pos (by simpa using same), List.filter_cons_of_pos (by simp),
          List.filter_nil, byKey_filter_key] at group
        have back' := (closed b a back (members a (by simp))).2 same.symm
        exact absurd (sublist_antisymm once (group.trans List.filter_sublist) back') differ
    classical
    have kept : whole.filter (fun a => decide (a ∈ part)) = byKey key part := by
      have order' : (whole.filter fun a => decide (a ∈ part)).Pairwise
          fun a b => [a, b].Sublist whole :=
        List.pairwise_iff_forall_sublist.mpr fun before => before.trans List.filter_sublist
      refine List.Perm.eq_of_pairwise ?_ order' order ?_
      · intro a b _ _ first back
        exact sublist_antisymm nodup first back
      · refine (List.perm_ext_iff_of_nodup (nodup.filter _) sorted_once).mpr fun a => ?_
        rw [List.mem_filter, (byKey_perm key part).mem_iff, decide_eq_true_iff]
        exact ⟨fun both => both.2, fun there => ⟨among a there, there⟩⟩
    rw [← kept]
    refine filter_prefix (List.pairwise_iff_forall_sublist.mpr fun {a b} before there => ?_)
    rw [decide_eq_true_iff] at there ⊢
    exact (closed a b before there).1

-----------------------------------------------------------------------------------------
-- Repetitions
-----------------------------------------------------------------------------------------

/-- Lists are told apart by how often their elements are repeated in turn, by induction on the first:
where every element stands once at least, one begins the other if its repetitions do.
-/
theorem prefix_of_replicate {n : α → ℕ} {l l' : List α} (positive : ∀ a ∈ l, 0 < n a)
    (positive' : ∀ a ∈ l', 0 < n a)
    (begins : (l.flatMap fun a => List.replicate (n a) a)
      <+: l'.flatMap fun a => List.replicate (n a) a)
    : l <+: l' := by
  induction l generalizing l' with
  | nil => exact List.nil_prefix
  | cons a rest ih =>
      obtain ⟨m, some_a⟩ := Nat.exists_eq_succ_of_ne_zero (positive a List.mem_cons_self).ne'
      cases l' with
      | nil =>
          rw [List.flatMap_cons, some_a, List.replicate_succ, List.flatMap_nil] at begins
          exact absurd (List.prefix_nil.mp begins) (List.cons_ne_nil _ _)
      | cons b rest' =>
          obtain ⟨m', some_b⟩ := Nat.exists_eq_succ_of_ne_zero
            (positive' b List.mem_cons_self).ne'
          obtain rfl : a = b := by
            rw [List.flatMap_cons, List.flatMap_cons, some_a, some_b, List.replicate_succ,
              List.replicate_succ, List.cons_append, List.cons_append] at begins
            exact (List.cons_prefix_cons.mp begins).1
          rw [List.flatMap_cons, List.flatMap_cons, List.prefix_append_right_inj] at begins
          refine List.cons_prefix_cons.mpr ⟨rfl, ih ?_ ?_ begins⟩
          · exact fun b there => positive b (List.mem_cons_of_mem _ there)
          · exact fun b there => positive' b (List.mem_cons_of_mem _ there)

end StableSort
