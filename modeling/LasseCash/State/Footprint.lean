import LasseCash.State.Aside

/-! Which rows a write can touch. The rows fall into sides (the liquidity pool, the posts, the
mints, ...), every function of the source has a footprint of sides, and what lies outside a
footprint reads as before.
-/

namespace LasseCash.State

open Engine MachineInt Function

-----------------------------------------------------------------------------------------
-- Parts and sides
-----------------------------------------------------------------------------------------

/-- The sides of the contract. -/
inductive Side
  | supply
  | setup
  | calendar
  | checkpoints
  | accumulator
  | lsharePool
  | contentPools
  | liquidityPool
  | tallies
  | shares
  | schedule
  | mints
  | posts
  | votes
  | queues
  | pending
  | power
  | settings
  | board
  | roll
  | tranches
  | reserves
  | lpAccumulator
  | migration
  deriving DecidableEq

/-- One row family, or one amount or count. -/
inductive Part
  | amount (k : AmountKey)
  | count (k : CountKey)
  | init
  | mint
  | post
  | postVote
  | pend
  | votePower
  | duration
  | curation
  | tranche
  | expiry
  | board
  | preference
  | migDone
  | migRoot
  | migSwept
  | acctChunk
  | seen

def AmountKey.side : AmountKey → Side
  | .migrated | .emitted => .supply
  | .poolLShare => .lsharePool
  | .poolViral | .poolDeep => .contentPools
  | .poolLiquidity => .liquidityPool
  | .rsharesViral | .rsharesDeep => .tallies
  | .sharesTotal | .shares _ => .shares
  | .exp _ => .schedule
  | .accHeld => .accumulator
  | .migTotal | .migClaimed | .migBurn => .migration
  | .poolLC | .poolHBD | .poolShares => .reserves
  | .poolWeight => .tranches
  | .poolAccHeld | .poolAccSeen => .lpAccumulator

def CountKey.side : CountKey → Side
  | .genesis => .setup
  | .settled | .accDay => .calendar
  | .accPerShare => .accumulator
  | .acctCount => .roll
  | .poolAcc => .lpAccumulator
  | .mintSeq _ => .mints
  | .lpSeq _ => .tranches
  | .cqHead _ | .cqTail _ => .queues
  | .explCount _ | .explCursor _ => .schedule
  | .accAt _ => .checkpoints

def Part.side : Part → Side
  | .amount k => k.side
  | .count k => k.side
  | .init => .setup
  | .mint => .mints
  | .post => .posts
  | .postVote => .votes
  | .pend => .pending
  | .votePower => .power
  | .duration | .preference => .settings
  | .curation => .queues
  | .tranche => .tranches
  | .expiry => .schedule
  | .board => .board
  | .migDone | .migRoot | .migSwept => .migration
  | .acctChunk | .seen => .roll

/-- (p.Same r r') says that the rows agree on the part `p`. -/
def Part.Same (r r' : Rows) : Part → Prop
  | .amount k => r'.amount k = r.amount k
  | .count k => r'.count k = r.count k
  | .init => r'.init = r.init
  | .mint => r'.mint = r.mint
  | .post => r'.post = r.post
  | .postVote => r'.postVote = r.postVote
  | .pend => r'.pend = r.pend
  | .votePower => r'.votePower = r.votePower
  | .duration => r'.duration = r.duration
  | .curation => r'.curation = r.curation
  | .tranche => r'.tranche = r.tranche
  | .expiry => r'.expiry = r.expiry
  | .board => r'.board = r.board
  | .preference => r'.preference = r.preference
  | .migDone => r'.migDone = r.migDone
  | .migRoot => r'.migRoot = r.migRoot
  | .migSwept => r'.migSwept = r.migSwept
  | .acctChunk => r'.acctChunk = r.acctChunk
  | .seen => r'.seen = r.seen

/-- (Touches sides r r') says that `r'` differs from `r` on these sides only. -/
def Touches (sides : List Side) (r r' : Rows) : Prop :=
  ∀ p : Part, sides.contains p.side = false → p.Same r r'

namespace Touches

variable {sides more : List Side} {r r₁ r₂ : Rows}

theorem refl (r : Rows) : Touches sides r r := by
  intro p _
  cases p <;> rfl

theorem trans (h : Touches sides r r₁) (h' : Touches sides r₁ r₂) : Touches sides r r₂ := by
  intro p away
  have first := h p away
  have second := h' p away
  cases p <;> exact Eq.trans second first

/-- A footprint may be widened. -/
theorem widen (h : Touches sides r r₁) (sub : ∀ s ∈ sides, s ∈ more)
    : Touches more r r₁ := by
  intro p away
  refine h p ?_
  rw [List.contains_eq_mem] at away ⊢
  simp only [decide_eq_false_iff_not] at away ⊢
  exact fun inside => away (sub _ inside)

-----------------------------------------------------------------------------------------
-- What lies outside
-----------------------------------------------------------------------------------------

theorem amount (h : Touches sides r r₁) (k : AmountKey)
    (away : sides.contains k.side = false)
    : r₁.getAmount k = r.getAmount k := by
  have same : r₁.amount k = r.amount k := h (.amount k) away
  simp only [Rows.getAmount, amountAt, same]

theorem count (h : Touches sides r r₁) (k : CountKey)
    (away : sides.contains k.side = false)
    : r₁.getU64 k = r.getU64 k := by
  have same : r₁.count k = r.count k := h (.count k) away
  simp only [Rows.getU64, countAt, same]

theorem init (h : Touches sides r r₁) (away : sides.contains .setup = false)
    : r₁.init = r.init :=
  h .init away

theorem mint (h : Touches sides r r₁) (away : sides.contains .mints = false)
    : r₁.mint = r.mint :=
  h .mint away

theorem post (h : Touches sides r r₁) (away : sides.contains .posts = false)
    : r₁.post = r.post :=
  h .post away

theorem postVote (h : Touches sides r r₁) (away : sides.contains .votes = false)
    : r₁.postVote = r.postVote :=
  h .postVote away

theorem pend (h : Touches sides r r₁) (away : sides.contains .pending = false)
    : r₁.pend = r.pend :=
  h .pend away

theorem curation (h : Touches sides r r₁) (away : sides.contains .queues = false)
    : r₁.curation = r.curation :=
  h .curation away

theorem board (h : Touches sides r r₁) (away : sides.contains .board = false)
    : r₁.board = r.board :=
  h .board away

theorem votePower (h : Touches sides r r₁) (away : sides.contains .power = false)
    : r₁.votePower = r.votePower :=
  h .votePower away

theorem tranche (h : Touches sides r r₁) (away : sides.contains .tranches = false)
    : r₁.tranche = r.tranche :=
  h .tranche away

theorem getPost (h : Touches sides r r₁) (author permlink : String)
    (away : sides.contains .posts = false)
    : r₁.getPost author permlink = r.getPost author permlink :=
  congrFun (h.post away) _

theorem getMint (h : Touches sides r r₁) (account : String) (id : Nat)
    (away : sides.contains .mints = false)
    : r₁.getMint account id = r.getMint account id := by
  rw [Rows.getMint, Rows.getMint, h.mint away]

theorem getTranche (h : Touches sides r r₁) (account : String) (id : Nat)
    (away : sides.contains .tranches = false)
    : r₁.getTranche account id = r.getTranche account id := by
  rw [Rows.getTranche, Rows.getTranche, h.tranche away]

theorem getPending (h : Touches sides r r₁) (account : String)
    (away : sides.contains .pending = false)
    : r₁.getPending account = r.getPending account := by
  rw [Rows.getPending, Rows.getPending, h.pend away]

-----------------------------------------------------------------------------------------
-- Single writes
-----------------------------------------------------------------------------------------

theorem setAmount (h : Touches sides r r₁) (k : AmountKey) (v : Int)
    (inside : sides.contains k.side = true)
    : Touches sides r (r₁.setAmount k v) := by
  refine h.trans fun p away => ?_
  cases p
  case amount k' =>
    have other : k' ≠ k := by
      rintro rfl
      exact absurd (inside.symm.trans away) (by simp)
    exact update_of_ne other _ _
  all_goals rfl

theorem deleteAmount (h : Touches sides r r₁) (k : AmountKey)
    (inside : sides.contains k.side = true)
    : Touches sides r (r₁.deleteAmount k) := by
  refine h.trans fun p away => ?_
  cases p
  case amount k' =>
    have other : k' ≠ k := by
      rintro rfl
      exact absurd (inside.symm.trans away) (by simp)
    exact update_of_ne other _ _
  all_goals rfl

theorem setU64 (h : Touches sides r r₁) (k : CountKey) (v : Nat)
    (inside : sides.contains k.side = true)
    : Touches sides r (r₁.setU64 k v) := by
  refine h.trans fun p away => ?_
  cases p
  case count k' =>
    have other : k' ≠ k := by
      rintro rfl
      exact absurd (inside.symm.trans away) (by simp)
    exact update_of_ne other _ _
  all_goals rfl

theorem deleteU64 (h : Touches sides r r₁) (k : CountKey)
    (inside : sides.contains k.side = true)
    : Touches sides r (r₁.deleteU64 k) := by
  refine h.trans fun p away => ?_
  cases p
  case count k' =>
    have other : k' ≠ k := by
      rintro rfl
      exact absurd (inside.symm.trans away) (by simp)
    exact update_of_ne other _ _
  all_goals rfl

/-- A write of one whole family, from what the rows keep outside it. -/
theorem family (h : Touches sides r r₁) (part : Part) (kept : ∀ p : Part, p ≠ part → p.Same r₁ r₂)
    (inside : sides.contains part.side = true)
    : Touches sides r r₂ := by
  refine h.trans fun p away => kept p ?_
  rintro rfl
  exact absurd (inside.symm.trans away) (by simp)

theorem putMint (h : Touches sides r r₁) (id : Nat) (m : Mint)
    (inside : sides.contains .mints = true)
    : Touches sides r (r₁.putMint id m) :=
  h.family .mint (fun p other => by cases p <;> first | rfl | exact absurd rfl other) inside

theorem putPost (h : Touches sides r r₁) (author permlink : String) (p : PostRec)
    (inside : sides.contains .posts = true)
    : Touches sides r (r₁.putPost author permlink p) :=
  h.family .post (fun p other => by cases p <;> first | rfl | exact absurd rfl other) inside

theorem setPostVote (h : Touches sides r r₁) (key : String) (v : Option Int)
    (inside : sides.contains .votes = true)
    : Touches sides r (r₁.setPostVote key v) :=
  h.family .postVote (fun p other => by cases p <;> first | rfl | exact absurd rfl other) inside

theorem putPending (h : Touches sides r r₁) (account : String) (p : PendingAccount)
    (inside : sides.contains .pending = true)
    : Touches sides r (r₁.putPending account p) :=
  h.family .pend (fun p other => by cases p <;> first | rfl | exact absurd rfl other) inside

theorem putVotePower (h : Touches sides r r₁) (account : String) (w : Window) (vp : VotePower)
    (inside : sides.contains .power = true)
    : Touches sides r (r₁.putVotePower account w vp) :=
  h.family .votePower (fun p other => by cases p <;> first | rfl | exact absurd rfl other) inside

theorem setDuration (h : Touches sides r r₁) (account : String) (days : Int)
    (inside : sides.contains .settings = true)
    : Touches sides r (r₁.setDuration account days) :=
  h.family .duration (fun p other => by cases p <;> first | rfl | exact absurd rfl other) inside

theorem setPreference (h : Touches sides r r₁) (k : ParamKey) (account : String) (v : Int)
    (inside : sides.contains .settings = true)
    : Touches sides r (r₁.setPreference k account v) :=
  h.family .preference (fun p other => by cases p <;> first | rfl | exact absurd rfl other) inside

theorem setCuration (h : Touches sides r r₁) (account : String) (n : Nat)
    (slot : Option (String × String)) (inside : sides.contains .queues = true)
    : Touches sides r (r₁.setCuration account n slot) :=
  h.family .curation (fun p other => by cases p <;> first | rfl | exact absurd rfl other) inside

theorem putTranche (h : Touches sides r r₁) (id : Nat) (t : Tranche)
    (inside : sides.contains .tranches = true)
    : Touches sides r (r₁.putTranche id t) :=
  h.family .tranche (fun p other => by cases p <;> first | rfl | exact absurd rfl other) inside

theorem setExpiry (h : Touches sides r r₁) (day n : Nat) (entries : Option (List ExpiryEntry))
    (inside : sides.contains .schedule = true)
    : Touches sides r (r₁.setExpiry day n entries) :=
  h.family .expiry (fun p other => by cases p <;> first | rfl | exact absurd rfl other) inside

theorem putBoard (h : Touches sides r r₁) (accounts : List String)
    (inside : sides.contains .board = true)
    : Touches sides r (r₁.putBoard accounts) :=
  h.family .board (fun p other => by cases p <;> first | rfl | exact absurd rfl other) inside

theorem setMigDone (h : Touches sides r r₁) (account : String) (record : MigrationRecord)
    (inside : sides.contains .migration = true)
    : Touches sides r (r₁.setMigDone account record) :=
  h.family .migDone (fun p other => by cases p <;> first | rfl | exact absurd rfl other) inside

theorem setMigRoot (h : Touches sides r r₁) (root : String)
    (inside : sides.contains .migration = true)
    : Touches sides r (r₁.setMigRoot root) :=
  h.family .migRoot (fun p other => by cases p <;> first | rfl | exact absurd rfl other) inside

theorem setMigSwept (h : Touches sides r r₁) (inside : sides.contains .migration = true)
    : Touches sides r r₁.setMigSwept :=
  h.family .migSwept (fun p other => by cases p <;> first | rfl | exact absurd rfl other) inside

/-- Noting an account writes the roll. -/
theorem noteAccount (h : Touches sides r r₁) (account : String)
    (inside : sides.contains .roll = true)
    : Touches sides r (noteAccount r₁ account) := by
  unfold State.noteAccount
  split
  · exact h
  split
  · exact h
  · have counted := h.setU64 .acctCount (r₁.getU64 .acctCount + 1) inside
    have listed : Touches sides r { r₁.setU64 .acctCount (r₁.getU64 .acctCount + 1) with
        acctChunk := (r₁.appendAccount account).acctChunk } :=
      counted.family .acctChunk
        (fun p other => by cases p <;> first | rfl | exact absurd rfl other) inside
    exact listed.family .seen (fun p other => by cases p <;> first | rfl | exact absurd rfl other)
      inside

theorem offer (h : Touches sides r r₁) (account : String)
    (inside : sides.contains .board = true)
    : Touches sides r (offer r₁ account) := by
  rcases offer_cases r₁ account with same | ⟨accounts, moved⟩
  · rwa [same]
  · rw [moved]
    exact h.putBoard accounts inside

theorem addPool (h : Touches sides r r₁) (k : AmountKey) (amt : Int)
    (inside : sides.contains k.side = true)
    : Touches sides r (addPool r₁ k amt) := by
  unfold State.addPool
  split
  · exact h.setAmount k _ inside
  · exact h

end Touches

end LasseCash.State
