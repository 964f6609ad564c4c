import Mathlib.Data.Set.BooleanAlgebra
import Mathlib.Order.CompletePartialOrder
import Mathlib.Order.Bounds.Basic
import Mathlib.Order.Monotone.Basic

/-! Growing a set by passes over a list of candidates until a pass adds nothing. A candidate is added
as soon as what is there pulls it in; what results is the least closed set, whatever the order of
the candidates.
-/

namespace Growth

variable {ι α : Type} [DecidableEq α]

-----------------------------------------------------------------------------------------
-- Passes
-----------------------------------------------------------------------------------------

section Passes

variable (key : ι → α) (pulls : List α → ι → Bool)

/-- One pass: each candidate is looked at once, against what the pass has added so far. The flag
tells whether anything was added.
-/
def pass : List ι → List α → List α × Bool
  | [], seen => (seen, false)
  | i :: rest, seen =>
      if key i ∈ seen then pass rest seen
      else if pulls seen i then ((pass rest (key i :: seen)).1, true)
      else pass rest seen

/-- Passes until one adds nothing; `none` where that takes more than `fuel` of them. -/
def grow (candidates : List ι) : Nat → List α → Option (List α)
  | 0, _ => none
  | fuel + 1, seen =>
      match pass key pulls candidates seen with
      | (grown, true) => grow candidates fuel grown
      | (grown, false) => some grown

end Passes

/-- (Closed key pulls start candidates T) says that `T` holds the start and every candidate that it
pulls in.
-/
structure Closed (key : ι → α) (pulls : Set α → ι → Prop) (start : Set α) (candidates : Set ι)
    (T : Set α) : Prop where
  start : start ⊆ T
  pulled : ∀ i ∈ candidates, pulls T i → key i ∈ T

-----------------------------------------------------------------------------------------
-- The least closed set
-----------------------------------------------------------------------------------------

section Closure

variable {key : ι → α} {test : List α → ι → Bool} {pulls : Set α → ι → Prop}
  (tests : ∀ seen i, test seen i = true ↔ pulls {a | a ∈ seen} i)
  (monotone : ∀ i, Monotone fun T => pulls T i)

/-- A pass only adds. -/
theorem pass_subset {candidates : List ι} {seen : List α} {a : α} (there : a ∈ seen)
    : a ∈ (pass key test candidates seen).1 := by
  induction candidates generalizing seen with
  | nil => exact there
  | cons i rest ih =>
      unfold pass
      split
      · exact ih there
      split
      · exact ih (.tail _ there)
      · exact ih there

/-- A pass that adds nothing leaves everything as it was, and no candidate is pulled in. -/
theorem pass_still {candidates : List ι} {seen : List α}
    (still : (pass key test candidates seen).2 = false)
    : (pass key test candidates seen).1 = seen
      ∧ ∀ i ∈ candidates, key i ∉ seen → test seen i = false := by
  induction candidates with
  | nil => exact ⟨rfl, nofun⟩
  | cons i rest ih =>
      unfold pass at still ⊢
      split at still
      · rename_i known
        obtain ⟨same, none_pulled⟩ := ih still
        rw [if_pos known]
        refine ⟨same, fun j there fresh => ?_⟩
        rcases List.mem_cons.mp there with rfl | later
        · exact absurd known fresh
        · exact none_pulled j later fresh
      · rename_i unknown
        split at still
        · cases still
        · rename_i untouched
          obtain ⟨same, none_pulled⟩ := ih still
          rw [if_neg unknown, if_neg untouched]
          refine ⟨same, fun j there fresh => ?_⟩
          rcases List.mem_cons.mp there with rfl | later
          · exact Bool.eq_false_iff.mpr untouched
          · exact none_pulled j later fresh

include tests monotone in
/-- A pass from within a closed set stays within it. -/
theorem pass_within {candidates : List ι} {seen : List α} {T : Set α}
    (pulled : ∀ i ∈ candidates, pulls T i → key i ∈ T) (within : {a | a ∈ seen} ⊆ T)
    : {a | a ∈ (pass key test candidates seen).1} ⊆ T := by
  induction candidates generalizing seen with
  | nil => exact within
  | cons i rest ih =>
      have later := fun j there => pulled j (.tail _ there)
      unfold pass
      split
      · exact ih later within
      split
      · rename_i pull
        have inside := pulled i (.head _) (monotone i within ((tests seen i).mp pull))
        refine ih later fun a there => ?_
        rcases List.mem_cons.mp there with rfl | before
        · exact inside
        · exact within before
      · exact ih later within

/-- How many candidates are not there yet. -/
def missing (key : ι → α) (candidates : List ι) (seen : List α) : Nat :=
  (candidates.filter fun i => key i ∉ seen).length

/-- Adding the key of a candidate that is missing leaves fewer. -/
theorem missing_cons {all : List ι} {seen : List α} {i : ι} (there : i ∈ all) (fresh : key i ∉ seen)
    : missing key all (key i :: seen) < missing key all seen := by
  have narrowed : (all.filter fun j => key j ∉ key i :: seen)
      = (all.filter fun j => key j ∉ seen).filter fun j => key j ≠ key i := by
    rw [List.filter_filter]
    refine List.filter_congr fun j _ => ?_
    simp only [List.mem_cons, not_or, Bool.decide_and]
  rw [missing, missing, narrowed]
  refine List.length_filter_lt_length_iff_exists.mpr ⟨i, ?_, by simp⟩
  exact List.mem_filter.mpr ⟨there, decide_eq_true fresh⟩

/-- A pass leaves no more candidates missing, and fewer where it adds one. -/
theorem missing_pass (all candidates : List ι) (seen : List α) (part : ∀ i ∈ candidates, i ∈ all)
    : missing key all (pass key test candidates seen).1
        + (if (pass key test candidates seen).2 then 1 else 0)
      ≤ missing key all seen := by
  induction candidates generalizing seen with
  | nil => simp [pass]
  | cons i rest ih =>
      have later := fun j there => part j (.tail _ there)
      unfold pass
      split
      · exact ih seen later
      split
      · rename_i unknown _
        have rest_le := ih (key i :: seen) later
        have fewer := missing_cons (part i (.head _)) unknown
        dsimp only
        rw [if_pos rfl]
        omega
      · exact ih seen later

/-- One more pass than there are candidates missing is enough. -/
theorem grow_ends {candidates : List ι} {fuel : Nat} {seen : List α}
    (enough : missing key candidates seen < fuel)
    : ∃ grown, grow key test candidates fuel seen = some grown := by
  induction fuel generalizing seen with
  | zero => exact absurd enough (Nat.not_lt_zero _)
  | succ fuel ih =>
      have less : missing key candidates (pass key test candidates seen).1
          + (if (pass key test candidates seen).2 then 1 else 0) ≤ missing key candidates seen :=
        missing_pass candidates candidates seen fun _ => id
      unfold grow
      split
      · rename_i grown passed
        rw [passed] at less
        exact ih (by simp only [if_true] at less; omega)
      · exact ⟨_, rfl⟩

/-- The passes keep what they start from, and end where no candidate is pulled in. -/
theorem grow_still {candidates : List ι} {fuel : Nat} {start grown : List α}
    (grows : grow key test candidates fuel start = some grown)
    : (∀ a ∈ start, a ∈ grown) ∧ ∀ i ∈ candidates, key i ∉ grown → test grown i = false := by
  induction fuel generalizing start with
  | zero => cases grows
  | succ fuel ih =>
      have kept : ∀ a ∈ start, a ∈ (pass key test candidates start).1 := fun _ => pass_subset
      unfold grow at grows
      split at grows
      · rename_i more passed
        rw [passed] at kept
        obtain ⟨subset, none_pulled⟩ := ih grows
        exact ⟨fun a there => subset a (kept a there), none_pulled⟩
      · rename_i more passed
        obtain rfl := Option.some.inj grows
        obtain ⟨same, none_pulled⟩ := pass_still (congrArg Prod.snd passed)
        rw [passed] at same
        obtain rfl : more = start := same
        exact ⟨fun _ => id, none_pulled⟩

include tests monotone in
/-- The passes stay within any closed set; by induction on them. -/
theorem grow_within {candidates : List ι} {fuel : Nat} {start grown : List α} {T : Set α}
    (grows : grow key test candidates fuel start = some grown)
    (pulled : ∀ i ∈ candidates, pulls T i → key i ∈ T) (within : {a | a ∈ start} ⊆ T)
    : {a | a ∈ grown} ⊆ T := by
  induction fuel generalizing start with
  | zero => cases grows
  | succ fuel ih =>
      have inside := pass_within tests monotone pulled within
      unfold grow at grows
      split at grows
      · rename_i more passed
        rw [passed] at inside
        exact ih grows inside
      · rename_i more passed
        rw [passed] at inside
        obtain rfl := Option.some.inj grows
        exact inside

include tests monotone in
/-- What the passes end in is the least closed set. -/
theorem grow_least {candidates : List ι} {fuel : Nat} {start grown : List α}
    (grows : grow key test candidates fuel start = some grown)
    : IsLeast {T | Closed key pulls {a | a ∈ start} {i | i ∈ candidates} T} {a | a ∈ grown} := by
  obtain ⟨subset, none_pulled⟩ := grow_still grows
  constructor
  · refine ⟨subset, fun i there pull => ?_⟩
    by_contra fresh
    have untouched := none_pulled i there fresh
    rw [(tests grown i).mpr pull] at untouched
    cases untouched
  · intro T closed
    exact grow_within tests monotone grows closed.pulled closed.start

end Closure

end Growth
