import LasseCash.Engine.Governance
import LasseCash.Engine.Pool
import Mathlib.Logic.Function.Basic
import Mathlib.Tactic.Simps.Basic

/-! The contract's rows, as `contract/state` lays them out: one typed map for each family of
keys. An absent row is `none`, which the source reads as zero. A pipe-joined row (an expiry
chunk, the leaderboard, a chunk of the account roll, a queue slot) is the list or pair that
it joins: account names and permlinks hold no pipe, since arguments are split at it.
-/

namespace LasseCash.State

open Engine MachineInt

/-- What an operation reports back to the caller. -/
structure Result where
  ok : Bool
  msg : String
  deriving DecidableEq

def ok (msg : String) : Result := ⟨true, msg⟩

def fail (msg : String) : Result := ⟨false, msg⟩

/-- What is asked of an accepted answer is not asked of a refused one. -/
theorem of_refused {P : Prop} (accepted : false = true) : P := absurd accepted Bool.false_ne_true

/-- A decimal field of a message or a row. -/
def encI64 (v : Int) : String := toString v

def encU64 (v : Nat) : String := toString v

/-- What an operation needs from the chain besides storage. Heights are `uint64`. -/
structure Ctx where
  sender : String
  height : Nat
  epoch : Nat := 0
  height_lt : height < 2 ^ 64 := by decide

/-- The context of a call at a height that is a word. -/
def Ctx.of (sender : String) (height : UInt64) (epoch : Nat := 0) : Ctx :=
  ⟨sender, height.toNat, epoch, height.toNat_lt⟩

-----------------------------------------------------------------------------------------
-- Records
-----------------------------------------------------------------------------------------

/-- How an author's share of a payout is delivered, frozen at publication. -/
inductive PayoutMode
  | default
  | powerUp
  | burn
  deriving DecidableEq

structure PostRec where
  window : Window
  createdHeight : Nat
  rshares : Int := 0
  paidOut : Bool := false
  curatorPot : Int := 0
  curatorRshares : Int := 0
  votes : Int := 0
  mode : PayoutMode := .default
  paidHeight : Nat := 0
  parentAuthor : String := ""
  parentPermlink : String := ""
  promoted : Int := 0
  /-- A curator pot exists only once the post has paid out. -/
  pot_open : paidOut = false → curatorPot = 0 := by simp
  deriving DecidableEq

/-- Nothing is held for the curators of a new post. -/
theorem PostRec.new_open : false = false → (0 : Int) = 0 :=
  fun _ => rfl

def PostRec.isComment (p : PostRec) : Bool := p.parentPermlink ≠ ""

/-- One liquidity position. -/
structure Tranche where
  owner : String
  shares : Int
  startHeight : Nat
  weight : Int
  closed : Bool := false
  accStart : Int
  lastTouch : Nat
  deriving DecidableEq

/-- The permanent receipt of a snapshot position. -/
inductive MigrationRecord
  | migrated (liquid staked : Int)
  | burned (liquid staked : Int)
  deriving DecidableEq

/-- One scheduled retirement: an account and the shares it loses. -/
abbrev ExpiryEntry := String × Int

-----------------------------------------------------------------------------------------
-- Keys
-----------------------------------------------------------------------------------------

/-- The keys of rows holding an `int64`. -/
inductive AmountKey
  | migrated
  | emitted
  | poolLShare
  | poolViral
  | poolDeep
  | poolLiquidity
  | rsharesViral
  | rsharesDeep
  | sharesTotal
  | accHeld
  | migTotal
  | migClaimed
  | migBurn
  | poolLC
  | poolHBD
  | poolShares
  | poolWeight
  | poolAccHeld
  | poolAccSeen
  | shares (account : String)
  | exp (day : Nat)
  deriving DecidableEq

/-- The keys of rows holding a `uint64`. -/
inductive CountKey
  | genesis
  | settled
  | accPerShare
  | accDay
  | acctCount
  | poolAcc
  | mintSeq (account : String)
  | lpSeq (account : String)
  | cqHead (account : String)
  | cqTail (account : String)
  | explCount (day : Nat)
  | explCursor (day : Nat)
  | accAt (day : Nat)
  deriving DecidableEq

/-- The joined key of a post. Posts are looked up by this text, so two posts with the same
joined key share one row.
-/
def postKey (author permlink : String) : String := "post_" ++ author ++ "_" ++ permlink

/-- The joined key of one voter's rshares on a post. -/
def postVoteKey (author permlink voter : String) : String :=
  "pv_" ++ author ++ "_" ++ permlink ++ "_" ++ voter

-----------------------------------------------------------------------------------------
-- Rows
-----------------------------------------------------------------------------------------

/-- Every row of the contract except the balances. -/
@[ext]
structure Rows where
  amount : AmountKey → Option Int
  count : CountKey → Option Nat
  init : Bool
  mint : String × Nat → Option Mint
  post : String → Option PostRec
  postVote : String → Option Int
  pend : String → Option PendingAccount
  votePower : String × Window → Option VotePower
  duration : String → Option Int
  curation : String × Nat → Option (String × String)
  tranche : String × Nat → Option Tranche
  expiry : Nat × Nat → Option (List ExpiryEntry)
  board : List String
  preference : ParamKey × String → Option Int
  migDone : String → Option MigrationRecord
  migRoot : Option String
  migSwept : Bool
  acctChunk : Nat → Option (List String)
  seen : String → Bool

/-- A store on which nothing has been written. -/
def Rows.empty : Rows where
  amount _ := none
  count _ := none
  init := false
  mint _ := none
  post _ := none
  postVote _ := none
  pend _ := none
  votePower _ := none
  duration _ := none
  curation _ := none
  tranche _ := none
  expiry _ := none
  board := []
  preference _ := none
  migDone _ := none
  migRoot := none
  migSwept := false
  acctChunk _ := none
  seen _ := false

/-- The `int64` under a key; an absent row reads as zero. -/
def amountAt (rows : AmountKey → Option Int) (k : AmountKey) : Int := (rows k).getD 0

/-- The `uint64` under a key; an absent row reads as zero. -/
def countAt (rows : CountKey → Option Nat) (k : CountKey) : Nat := (rows k).getD 0

open Function in
/-- Reading after one write, by cases on the key. -/
@[simp]
theorem amountAt_update (rows : AmountKey → Option Int) (k k' : AmountKey) (v : Option Int)
    : amountAt (update rows k v) k' = if k' = k then v.getD 0 else amountAt rows k' := by
  unfold amountAt
  by_cases h : k' = k <;> simp [h]

open Function in
/-- Reading after one write, by cases on the key. -/
@[simp]
theorem countAt_update (rows : CountKey → Option Nat) (k k' : CountKey) (v : Option Nat)
    : countAt (update rows k v) k' = if k' = k then v.getD 0 else countAt rows k' := by
  unfold countAt
  by_cases h : k' = k <;> simp [h]

namespace Rows

open Function

variable (r : Rows)

@[simp]
abbrev getAmount (k : AmountKey) : Int := amountAt r.amount k

@[simp]
abbrev getU64 (k : CountKey) : Nat := countAt r.count k

@[simps -fullyApplied]
def setAmount (k : AmountKey) (v : Int) : Rows := { r with amount := update r.amount k (some v) }

@[simps -fullyApplied]
def deleteAmount (k : AmountKey) : Rows := { r with amount := update r.amount k none }

@[simps -fullyApplied]
def setU64 (k : CountKey) (v : Nat) : Rows := { r with count := update r.count k (some v) }

@[simps -fullyApplied]
def deleteU64 (k : CountKey) : Rows := { r with count := update r.count k none }

/-- A mint's owner is not stored: it is the one of the key it is read under. -/
def getMint (account : String) (id : Nat) : Option Mint :=
  (r.mint (account, id)).map fun m => { m with owner := account }

@[simps -fullyApplied]
def putMint (id : Nat) (m : Mint) : Rows := { r with mint := update r.mint (m.owner, id) (some m) }

def getPost (author permlink : String) : Option PostRec := r.post (postKey author permlink)

@[simps -fullyApplied]
def putPost (author permlink : String) (p : PostRec) : Rows :=
  { r with post := update r.post (postKey author permlink) (some p) }

@[simps -fullyApplied]
def setPostVote (key : String) (v : Option Int) : Rows :=
  { r with postVote := update r.postVote key v }

/-- An account's accrual; one that never accrued has none. -/
def getPending (account : String) : PendingAccount := (r.pend account).getD {}

@[simps -fullyApplied]
def putPending (account : String) (p : PendingAccount) : Rows :=
  { r with pend := update r.pend account (some p) }

/-- An account's meter for a window; one that never voted is full. -/
def getVotePower (account : String) (w : Window) : VotePower :=
  (r.votePower (account, w)).getD (newVotePower 0)

@[simps -fullyApplied]
def putVotePower (account : String) (w : Window) (vp : VotePower) : Rows :=
  { r with votePower := update r.votePower (account, w) (some vp) }

@[simps -fullyApplied]
def setDuration (account : String) (days : Int) : Rows :=
  { r with duration := update r.duration account (some days) }

@[simps -fullyApplied]
def setCuration (account : String) (n : Nat) (slot : Option (String × String)) : Rows :=
  { r with curation := update r.curation (account, n) slot }

/-- A tranche's owner is implied by its key, like a mint's. -/
def getTranche (account : String) (id : Nat) : Option Tranche :=
  (r.tranche (account, id)).map fun t => { t with owner := account }

@[simps -fullyApplied]
def putTranche (id : Nat) (t : Tranche) : Rows :=
  { r with tranche := update r.tranche (t.owner, id) (some t) }

@[simps -fullyApplied]
def setExpiry (day n : Nat) (entries : Option (List ExpiryEntry)) : Rows :=
  { r with expiry := update r.expiry (day, n) entries }

/-- Stores the leaderboard; the join of one empty name reads back as no board at all. -/
@[simps -fullyApplied]
def putBoard (accounts : List String) : Rows :=
  { r with board := if accounts.take 20 = [""] then [] else accounts.take 20 }

@[simps -fullyApplied]
def setPreference (k : ParamKey) (account : String) (v : Int) : Rows :=
  { r with preference := update r.preference (k, account) (some v) }

@[simps -fullyApplied]
def setMigDone (account : String) (record : MigrationRecord) : Rows :=
  { r with migDone := update r.migDone account (some record) }

@[simps -fullyApplied]
def setMigRoot (root : String) : Rows := { r with migRoot := some root }

@[simps -fullyApplied]
def setMigSwept : Rows := { r with migSwept := true }

@[simps -fullyApplied]
def setInit : Rows := { r with init := true }

@[simps -fullyApplied]
def appendAccount (account : String) : Rows :=
  let n := r.getU64 .acctCount
  { r with
    seen := update r.seen account true
    acctChunk :=
      update r.acctChunk (n / 25) (some ((r.acctChunk (n / 25)).getD [] ++ [account]))
    count := update r.count .acctCount (some (n + 1)) }

end Rows

end LasseCash.State
