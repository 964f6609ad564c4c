import LasseCash.Engine.Governance
import LasseCash.Lib.Median

/-! The value in force of a parameter is the lower median of what the members prefer, each preference
clamped into the parameter's bounds: no order of the members and no entry of anybody else matters,
and a majority of the members who prefer something cannot be outvoted by the rest.
-/

namespace LasseCash.Engine

-----------------------------------------------------------------------------------------
-- The votes
-----------------------------------------------------------------------------------------

/-- The clamped preferences of the members who set one. -/
def clampedVotes (p : Param) (prefs : String → Option Int) (members : List Holder) : List Int :=
  members.filterMap fun m => (prefs m.account).map (clamp · p.min p.max)

/-- Insertion adds the vote to the others, by induction on them. -/
theorem insertVote_perm (v : Int) (votes : List Int) : (insertVote v votes).Perm (v :: votes) := by
  induction votes with
  | nil => exact .refl [v]
  | cons x rest ih =>
      unfold insertVote
      split
      · exact .refl _
      · exact (ih.cons x).trans (.swap v x rest)

/-- Insertion keeps the votes in ascending order, by induction on them. -/
theorem insertVote_ascends (v : Int) {votes : List Int} (ascends : votes.Pairwise (· ≤ ·))
    : (insertVote v votes).Pairwise (· ≤ ·) := by
  induction votes with
  | nil => exact List.pairwise_singleton _ v
  | cons x rest ih =>
      obtain ⟨least, later⟩ := List.pairwise_cons.mp ascends
      unfold insertVote
      split
      · rename_i above
        refine List.pairwise_cons.mpr ⟨fun y there => ?_, ascends⟩
        rcases List.mem_cons.mp there with rfl | there
        · exact above.le
        · exact above.le.trans (least y there)
      · rename_i reached
        refine List.pairwise_cons.mpr ⟨fun y there => ?_, ih later⟩
        rcases mem_insertVote.mp there with rfl | there
        · exact not_lt.mp reached
        · exact least y there

/-- One step of the insertion loop. -/
def collectVote (p : Param) (prefs : String → Option Int) (votes : List Int) (m : Holder)
    : List Int :=
  (prefs m.account).elim votes fun v =>
    if votes.length = consensusSize then votes else insertVote (clamp v p.min p.max) votes

theorem sortedVotes_eq (p : Param) (prefs : String → Option Int) (members : List Holder)
    : sortedVotes p prefs members = members.foldl (collectVote p prefs) [] := by
  unfold sortedVotes
  congr
  funext votes m
  unfold collectVote
  cases prefs m.account <;> rfl

/-- The insertion loop collects the clamped preferences in ascending order; a group of at most ten
fits the window. By induction on the members.
-/
theorem sortedVotes_spec (p : Param) (prefs : String → Option Int) {members : List Holder}
    (few : members.length ≤ consensusSize)
    : (sortedVotes p prefs members).Perm (clampedVotes p prefs members)
      ∧ (sortedVotes p prefs members).Pairwise (· ≤ ·) := by
  suffices loop : ∀ votes : List Int, members.length + votes.length ≤ consensusSize
      → votes.Pairwise (· ≤ ·)
      → (members.foldl (collectVote p prefs) votes).Perm
          (votes ++ clampedVotes p prefs members)
        ∧ (members.foldl (collectVote p prefs) votes).Pairwise (· ≤ ·) by
    rw [sortedVotes_eq]
    exact loop [] (by simpa using few) .nil
  clear few
  induction members with
  | nil =>
      intro votes _ ascends
      rw [clampedVotes, List.filterMap_nil, List.append_nil]
      exact ⟨.refl votes, ascends⟩
  | cons m rest ih =>
      intro votes room ascends
      rw [List.length_cons] at room
      rw [List.foldl_cons, collectVote, clampedVotes, List.filterMap_cons]
      cases pref : prefs m.account with
      | none =>
          simp only [Option.map_none, Option.elim_none]
          exact ih votes (by omega) ascends
      | some v =>
          have inserted := insertVote_perm (clamp v p.min p.max) votes
          have longer := inserted.length_eq
          rw [List.length_cons] at longer
          have room' : ¬votes.length = consensusSize := by omega
          simp only [Option.map_some, Option.elim_some, if_neg room']
          obtain ⟨same, sorted⟩ := ih (insertVote (clamp v p.min p.max) votes) (by omega)
            (insertVote_ascends _ ascends)
          refine ⟨same.trans ?_, sorted⟩
          exact (inserted.append_right _).trans List.perm_middle.symm

-----------------------------------------------------------------------------------------
-- The value in force
-----------------------------------------------------------------------------------------

/-- The value in force is the lower median of the clamped preferences. -/
theorem effectiveValue_median (p : Param) (prefs : String → Option Int) {members : List Holder}
    (few : members.length ≤ consensusSize)
    : effectiveValue p members prefs = Median.lower (clampedVotes p prefs members) p.value := by
  obtain ⟨same, ascends⟩ := sortedVotes_spec p prefs few
  exact (Median.lower_eq same ascends p.value).symm

/-- How many members prefer a value in an interval. -/
def preferring (prefs : String → Option Int) (members : List Holder) (a b : Int) : Nat :=
  members.countP fun m => (prefs m.account).any fun v => a ≤ v ∧ v ≤ b

/-- How many members prefer anything. -/
def participating (prefs : String → Option Int) (members : List Holder) : Nat :=
  members.countP fun m => (prefs m.account).isSome

/-- A preference that lies in an interval within the bounds is clamped to itself, by induction on
the members.
-/
theorem preferring_le (p : Param) (prefs : String → Option Int) (members : List Holder)
    {a b : Int} (lower : p.min ≤ a) (upper : b ≤ p.max)
    : preferring prefs members a b
      ≤ (clampedVotes p prefs members).countP (fun v => a ≤ v ∧ v ≤ b) := by
  induction members with
  | nil => exact le_rfl
  | cons m rest ih =>
      rw [preferring, clampedVotes] at *
      rw [List.countP_cons, List.filterMap_cons]
      cases prefs m.account with
      | none => simpa using ih
      | some v =>
          simp only [Option.map_some, List.countP_cons, Option.any_some]
          refine Nat.add_le_add ih ?_
          by_cases within : a ≤ v ∧ v ≤ b
          · have unchanged : clamp v p.min p.max = v := by
              rw [clamp, if_neg (by omega), if_neg (by omega)]
            rw [unchanged]
          · rw [if_neg (by simpa using within)]
            exact Nat.zero_le _

theorem length_clampedVotes (p : Param) (prefs : String → Option Int) (members : List Holder)
    : (clampedVotes p prefs members).length = participating prefs members := by
  induction members with
  | nil => rfl
  | cons m rest ih =>
      rw [clampedVotes, participating] at *
      rw [List.filterMap_cons, List.countP_cons]
      cases prefs m.account with
      | none => simpa using ih
      | some v => simpa using ih

/-- The value in force lies within the bounds, is the lower median of the clamped preferences,
depends neither on the order of the members nor on anybody else, and stays in every interval within
the bounds that more than half of the participating members prefer.
-/
theorem effectiveValue_robust (k : ParamKey) (prefs : String → Option Int) (members : List Holder)
    (few : members.length ≤ consensusSize)
    : (k.param.min ≤ effectiveValue k.param members prefs
        ∧ effectiveValue k.param members prefs ≤ k.param.max)
      ∧ effectiveValue k.param members prefs
        = Median.lower (clampedVotes k.param prefs members) k.param.value
      ∧ (∀ others : List Holder, others.Perm members
        → effectiveValue k.param others prefs = effectiveValue k.param members prefs)
      ∧ (∀ prefs' : String → Option Int, (∀ m ∈ members, prefs' m.account = prefs m.account)
        → effectiveValue k.param members prefs' = effectiveValue k.param members prefs)
      ∧ ∀ a b : Int, k.param.min ≤ a → b ≤ k.param.max
        → participating prefs members < 2 * preferring prefs members a b
        → a ≤ effectiveValue k.param members prefs
          ∧ effectiveValue k.param members prefs ≤ b := by
  have median := effectiveValue_median k.param prefs few
  refine ⟨effectiveValue_bounds k members prefs, median, fun others order => ?_,
    fun prefs' alike => ?_, fun a b lower upper most => ?_⟩
  · have votes : (clampedVotes k.param prefs others).Perm (clampedVotes k.param prefs members) :=
      order.filterMap _
    rw [effectiveValue_median k.param prefs (order.length_eq.trans_le few), median]
    exact Median.lower_perm votes k.param.value
  · have votes : clampedVotes k.param prefs' members = clampedVotes k.param prefs members :=
      List.filterMap_congr fun m there => by rw [alike m there]
    rw [effectiveValue_median k.param prefs' few, median, votes]
  · have agree := preferring_le k.param prefs members lower upper
    rw [median]
    refine Median.lower_majority ?_ k.param.value
    rw [length_clampedVotes]
    omega

/-- Two of three members hold the promotion burn at two hundred against one extreme. -/
theorem effectiveValue_outvoted
    : effectiveValue ParamKey.promoteMinBurn.param
        [⟨"hive:a", 3⟩, ⟨"hive:b", 2⟩, ⟨"hive:c", 1⟩]
        (fun account => some (if account = "hive:a" then 2 ^ 62 else lc 200)) = lc 200 := by
  have held := (effectiveValue_robust .promoteMinBurn
    (fun account => some (if account = "hive:a" then 2 ^ 62 else lc 200))
    [⟨"hive:a", 3⟩, ⟨"hive:b", 2⟩, ⟨"hive:c", 1⟩] (by decide)).2.2.2.2 (lc 200) (lc 200)
    (by decide) (by decide) (by decide)
  exact held.2.antisymm held.1

end LasseCash.Engine
