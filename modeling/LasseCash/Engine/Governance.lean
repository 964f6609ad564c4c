import LasseCash.Engine.ProofOfBrain

/-! The bounded parameter registry and the consensus group of `engine/governance.go`. -/

namespace LasseCash.Engine

/-- The governable parameters of the genesis registry. -/
inductive ParamKey
  | volumeStart
  | volumeEnd
  | postThresholdViral
  | postThresholdDeep
  | postThresholdComment
  | promoteMinBurn
  deriving DecidableEq

/-- The registry's name of a parameter, as it stands in preference rows. -/
def ParamKey.name : ParamKey → String
  | .volumeStart => "mint.volume_start"
  | .volumeEnd => "mint.volume_end"
  | .postThresholdViral => "post.threshold_viral"
  | .postThresholdDeep => "post.threshold_deep"
  | .postThresholdComment => "post.threshold_comment"
  | .promoteMinBurn => "promote.min_burn"

/-- One governable value between bounds that no vote can move. -/
structure Param where
  value : Int
  min : Int
  max : Int

def Param.inBounds (p : Param) (v : Int) : Bool := v ≥ p.min && v ≤ p.max

/-- The genesis registry: defaults and hardcoded bounds. -/
def ParamKey.param : ParamKey → Param
  | .volumeStart => ⟨lc 1000, lc 100, lc 50000⟩
  | .volumeEnd => ⟨lc 50000, lc 1000, lc 5000000⟩
  | .postThresholdViral => ⟨1000 * shareUnit, shareUnit, 10000 * shareUnit⟩
  | .postThresholdDeep => ⟨10000 * shareUnit, shareUnit, 100000 * shareUnit⟩
  | .postThresholdComment => ⟨100 * shareUnit, shareUnit, 10000 * shareUnit⟩
  | .promoteMinBurn => ⟨100 * unit, unit, 10000 * unit⟩

/-- Registry lookup by name. -/
def registryParam (name : String) : Option ParamKey :=
  [.volumeStart, .volumeEnd, .postThresholdViral, .postThresholdDeep, .postThresholdComment,
    .promoteMinBurn].find? (fun k => k.name == name)

def thresholdKeyFor : Window → ParamKey
  | .deep => .postThresholdDeep
  | .viral => .postThresholdViral

def consensusSize : Nat := 10

/-- An account's L-Share balance, for ranking; a member of the consensus group is one too. -/
structure Holder where
  account : String
  shares : Int
  deriving DecidableEq

/-- More shares first, then the lower account name. -/
def betterThan (a b : Holder) : Bool :=
  if a.shares ≠ b.shares then a.shares > b.shares else a.account < b.account

/-- The shifting loop of `ConsensusGroup` on a window held strongest first: `h` moves left
past every weaker entry at the end of the window.
-/
def insertSeat (h : Holder) : List Holder → List Holder
  | [] => [h]
  | last :: rest => if betterThan h last then last :: insertSeat h rest else h :: last :: rest

/-- One round of the selection. The window is kept reversed, weakest seat first, so that
the last seat of the source's array is the head here.
-/
def seatHolder (window : List Holder) (h : Holder) : List Holder :=
  if h.shares ≤ 0 then window
  else if window.length = consensusSize then
    match window with
    | [] => [h]
    | last :: rest => if betterThan h last then insertSeat h rest else window
  else insertSeat h window

/-- The ten strongest holders with a positive share count, strongest first. -/
def consensusGroup (holders : List Holder) : List Holder :=
  (holders.foldl seatHolder []).reverse

def isMember (members : List Holder) (account : String) : Bool :=
  members.any (fun m => m.account == account)

def clamp (v lo hi : Int) : Int := if v < lo then lo else if v > hi then hi else v

/-- The insertion loop of `EffectiveValue`, on votes held in ascending order: a new vote
goes after every vote that is not greater.
-/
def insertVote (v : Int) : List Int → List Int
  | [] => [v]
  | x :: rest => if x > v then v :: x :: rest else x :: insertVote v rest

/-- The clamped votes of the members that keep a preference, at most ten, ascending. -/
def sortedVotes (p : Param) (prefs : String → Option Int) (members : List Holder) : List Int :=
  members.foldl (fun votes m =>
    match prefs m.account with
    | none => votes
    | some v =>
        if votes.length = consensusSize then votes
        else insertVote (clamp v p.min p.max) votes) []

/-- The lower median of the members' preferences, or the default when there are none. -/
def effectiveValue (p : Param) (members : List Holder) (prefs : String → Option Int) : Int :=
  let votes := sortedVotes p prefs members
  votes.getD ((votes.length - 1) / 2) p.value

/-- A clamped value lies between ordered bounds. -/
theorem clamp_bounds {v lo hi : Int} (h : lo ≤ hi) : lo ≤ clamp v lo hi ∧ clamp v lo hi ≤ hi := by
  unfold clamp
  split_ifs <;> omega

/-- Insertion adds exactly the new vote, by induction on the votes. -/
theorem mem_insertVote {v x : Int} {votes : List Int}
    : x ∈ insertVote v votes ↔ x = v ∨ x ∈ votes := by
  induction votes with
  | nil => simp [insertVote]
  | cons y rest ih =>
      unfold insertVote
      split
      · simp
      · simp only [List.mem_cons, ih]
        tauto

/-- Every registered parameter has ordered bounds, by cases on the registry. -/
theorem ParamKey.min_le_max (k : ParamKey) : k.param.min ≤ k.param.max := by
  cases k <;> decide

/-- Every registered default passes its own bounds check, by cases on the registry. -/
theorem ParamKey.default_inBounds (k : ParamKey)
    : k.param.min ≤ k.param.value ∧ k.param.value ≤ k.param.max := by
  cases k <;> decide

/-- Every vote that enters the median is within bounds, by induction over the members. -/
theorem sortedVotes_bounds (k : ParamKey) (prefs : String → Option Int) (members : List Holder)
    : ∀ v ∈ sortedVotes k.param prefs members, k.param.min ≤ v ∧ v ≤ k.param.max := by
  suffices h : ∀ votes : List Int, (∀ v ∈ votes, k.param.min ≤ v ∧ v ≤ k.param.max)
      → ∀ v ∈ members.foldl (fun votes m =>
          match prefs m.account with
          | none => votes
          | some v =>
              if votes.length = consensusSize then votes
              else insertVote (clamp v k.param.min k.param.max) votes) votes,
        k.param.min ≤ v ∧ v ≤ k.param.max from h [] (by simp)
  induction members with
  | nil => intro votes h; exact h
  | cons m rest ih =>
      intro votes h
      refine ih _ ?_
      cases hp : prefs m.account with
      | none => simpa only [hp] using h
      | some v =>
          simp only [hp]
          split
          · exact h
          · intro x hx
            rcases mem_insertVote.mp hx with rfl | hx
            · exact clamp_bounds k.min_le_max
            · exact h x hx

/-- The value in force never leaves the parameter's bounds: it is a vote or the default. -/
theorem effectiveValue_bounds (k : ParamKey) (members : List Holder)
    (prefs : String → Option Int)
    : k.param.min ≤ effectiveValue k.param members prefs
      ∧ effectiveValue k.param members prefs ≤ k.param.max := by
  unfold effectiveValue
  simp only [List.getD_eq_getElem?_getD]
  cases h : (sortedVotes k.param prefs members)[
      ((sortedVotes k.param prefs members).length - 1) / 2]? with
  | none => exact k.default_inBounds
  | some v => exact sortedVotes_bounds k prefs members v (List.mem_of_getElem? h)

end LasseCash.Engine
