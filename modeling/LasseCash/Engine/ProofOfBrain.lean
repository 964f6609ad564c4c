import LasseCash.Engine.LShare

/-! Content windows, vote power, pool claims and payout routing of `engine/pob.go`. -/

namespace LasseCash.Engine

open MachineInt

/-- A content class; the two differ in payout period and in their share of the pool. -/
inductive Window
  | viral
  | deep
  deriving DecidableEq

def viralPoolPct : Int := 25

def curatorPct : Int := 25

def fullVoteCostPct : Int := 10

def pobLiquidPct : Int := 20

/-- The least principal of a mint: one LASSECASH. -/
def minMintAmount : Int := 100000000

def Window.payoutDays : Window → Nat
  | .viral => 7
  | .deep => 30

def Window.payoutHeights (w : Window) : Nat := w.payoutDays * heightsPerDay

def Window.regenHeights (w : Window) : Nat := w.payoutDays * heightsPerDay

def promoteCutoffPct : Nat := 75

/-- A post may be promoted before three quarters of its window have elapsed. -/
def Window.promoteOpen (w : Window) (createdHeight height : Nat) : Bool :=
  height < u64 (createdHeight + w.payoutHeights * promoteCutoffPct / 100)

/-- The viral and the deep part of a Proof-of-Brain slice; deep takes the remainder. -/
def splitPoB (pob : Int) : Int × Int :=
  if pob ≤ 0 then (0, 0)
  else
    match mulDiv pob viralPoolPct 100 with
    | none => (0, 0)
    | some v => (v, i64 (pob - v))

/-- The two parts of a non-negative slice. -/
theorem splitPoB_of_nonneg {pob : Int} (lower : 0 ≤ pob) (upper : pob < 2 ^ 63)
    : splitPoB pob = (pob / 4, pob - pob / 4) := by
  unfold splitPoB viralPoolPct
  split
  · have : pob = 0 := by omega
    subst this
    rfl
  · rw [mulDiv_quarter lower upper]
    simp only
    rw [i64_of_nonneg (by omega) (by omega)]

/-- An account's voting energy for one window, computed lazily from its last update. -/
structure VotePower where
  power : Int
  lastHeight : Nat
  deriving DecidableEq

def newVotePower (height : Nat) : VotePower := ⟨multScale, height⟩

def clampPower (p : Int) : Int :=
  if p < 0 then 0 else if p > multScale then multScale else p

/-- The power available at `height`. -/
def VotePower.current (vp : VotePower) (w : Window) (height : Nat) : Int :=
  if height ≤ vp.lastHeight then clampPower vp.power
  else
    let elapsed := height - vp.lastHeight
    let regen := (i64 (i64 elapsed * multScale)).tdiv w.regenHeights
    clampPower (i64 (vp.power + regen))

def voteCost (weightPct : Int) : Int :=
  if weightPct ≤ 0 then 0
  else multScale * fullVoteCostPct * (if weightPct > 100 then 100 else weightPct) / (100 * 100)

/-- Applies a vote; a vote that would overdraw the meter is refused. -/
def VotePower.spend (vp : VotePower) (w : Window) (height : Nat) (weightPct : Int)
    : Option VotePower :=
  let cur := vp.current w height
  let cost := voteCost weightPct
  if cost ≤ 0 ∨ cost > cur then none else some ⟨cur - cost, height⟩

/-- The rshares of a vote: shares times the power spent. -/
def voteWeight (shares powerSpent : Int) : Int :=
  if shares ≤ 0 ∨ powerSpent ≤ 0 then 0 else (mulDiv shares powerSpent multScale).getD 0

/-- One window's reward pool and the rshares claiming against it. -/
structure Pool where
  balance : Int
  rshares : Int
  deriving DecidableEq

/-- Removes a post's share of the pool; returns it with what is left. -/
def Pool.claim (p : Pool) (postRshares : Int) : Int × Pool :=
  if postRshares ≤ 0 ∨ p.rshares ≤ 0 ∨ p.balance ≤ 0 then (0, p)
  else
    let claimed := if postRshares > p.rshares then p.rshares else postRshares
    match mulDiv p.balance claimed p.rshares with
    | none => (0, p)
    | some out =>
        let out := if out > p.balance then p.balance else out
        (out, ⟨i64 (p.balance - out), i64 (p.rshares - claimed)⟩)

/-- What a claim leaves of a pool is a word again. -/
theorem Pool.claim_balance_lt (pool : Pool) (word : pool.balance < 2 ^ 63) (rshares : Int)
    : (pool.claim rshares).2.balance < 2 ^ 63 := by
  unfold Pool.claim
  split
  · exact word
  · dsimp only
    split
    · exact word
    · exact (i64_mem _).upper

/-- A claim takes what it returns off the balance. -/
theorem Pool.claim_balance (pool : Pool) (word : pool.balance < 2 ^ 63) (rshares : Int)
    : (pool.claim rshares).2.balance = pool.balance - (pool.claim rshares).1 := by
  unfold Pool.claim
  split
  · exact (sub_zero _).symm
  rename_i stocked
  obtain ⟨positive, total, held⟩ : 0 < rshares ∧ 0 < pool.rshares ∧ 0 < pool.balance := by
    simpa only [not_or, not_le] using stocked
  have claimed : 0 ≤ if rshares > pool.rshares then pool.rshares else rshares := by
    split <;> omega
  dsimp only
  split
  · exact (sub_zero pool.balance).symm
  · rename_i out quotient
    obtain ⟨share, -⟩ := mulDiv_eq_some held.le claimed total quotient
    have nonneg : 0 ≤ out := share ▸ Int.ediv_nonneg (mul_nonneg held.le claimed) total.le
    dsimp only
    split
    · exact i64_of_nonneg (by omega) (by omega)
    · exact i64_of_nonneg (by omega) (by omega)

/-- A claim on a pool that holds something takes its rshares off the total. -/
theorem Pool.claim_rshares (pool : Pool) {rshares : Int} (word : pool.balance < 2 ^ 63)
    (nonneg : 0 ≤ rshares) (part : rshares ≤ pool.rshares) (total : pool.rshares < 2 ^ 63)
    (stocked : 0 < rshares → 0 < pool.balance)
    : (pool.claim rshares).2.rshares = pool.rshares - rshares := by
  rcases nonneg.eq_or_lt with rfl | positive
  · simp [Pool.claim]
  have held := stocked positive
  have le : pool.balance * rshares / pool.rshares ≤ pool.balance :=
    Int.ediv_le_of_le_mul (by omega) (mul_le_mul_of_nonneg_left part held.le)
  have quotient := mulDiv_of_fits held.le nonneg (by omega : 0 < pool.rshares)
    (by unfold maxAmount; omega)
  have whole : ¬rshares > pool.rshares := not_lt.mpr part
  have open_ : ¬(rshares ≤ 0 ∨ pool.rshares ≤ 0 ∨ pool.balance ≤ 0) := by omega
  simp only [Pool.claim, open_, if_false, whole, quotient]
  exact i64_of_nonneg (by omega) (by omega)

/-- The liquid part and the part that waits for the monthly mint. -/
def routePayout (amount : Int) : Int × Int :=
  if amount ≤ 0 then (0, 0)
  else
    match mulDiv amount pobLiquidPct 100 with
    | none => (0, 0)
    | some l => (l, i64 (amount - l))

/-- One account's accrual awaiting its monthly mint. -/
structure PendingAccount where
  balance : Int := 0
  lastEpoch : Nat := 0
  deriving DecidableEq

def canPost (shares threshold : Int) : Bool := shares ≥ threshold

end LasseCash.Engine
