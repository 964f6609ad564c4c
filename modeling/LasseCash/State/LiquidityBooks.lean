import LasseCash.State.LiquidityFund
import LasseCash.State.ShareWorth

/-! The books of the liquidity providers: the totals are the sums over the open tranches, and the
rewards they are entitled to are there. Every step of every operation keeps them.
-/

namespace LasseCash.State

open Engine MachineInt RewardAccumulator Function FiniteSum

variable {o : Origin} {whole : Prop} {r r' : Rows}

-----------------------------------------------------------------------------------------
-- Reading the rows
-----------------------------------------------------------------------------------------

/-- The position of a tranche, vacant where none is open. -/
def positionOf : Option Tranche → Position Int
  | some t => if t.closed then .vacant else ⟨t.weight, t.accStart⟩
  | none => .vacant

/-- The shares of a tranche, none where none is open. -/
def sharesIn : Option Tranche → Int
  | some t => if t.closed then 0 else t.shares
  | none => 0

/-- The liquidity rewards of the rows. -/
def fundOf (r : Rows) : Fund where
  pool := r.getAmount .poolLiquidity
  seen := r.getAmount .poolAccSeen
  held := r.getAmount .poolAccHeld
  acc := i64 (r.getU64 .poolAcc)
  weight := r.getAmount .poolWeight
  positions key := positionOf (r.tranche key)

/-- The shares of the open tranches. -/
def sharesAt (r : Rows) (key : TrancheKey) : Int := sharesIn (r.tranche key)

theorem getTranche_row {account : String} {id : Nat} {t : Tranche}
    (found : r.getTranche account id = some t)
    : t.owner = account ∧ (fundOf r).positions (account, id) = positionOf (some t)
      ∧ sharesAt r (account, id) = sharesIn (some t) ∧ r.tranche (account, id) ≠ none := by
  obtain ⟨t₀, there, rfl⟩ := Option.map_eq_some_iff.mp found
  refine ⟨rfl, ?_, ?_, by simp [there]⟩
  · simp only [fundOf, there]
    rfl
  · rw [sharesAt, there]
    rfl

theorem Touches.fundOf {sides : List Side} (h : Touches sides r r')
    (pool : sides.contains .liquidityPool = false)
    (acc : sides.contains .lpAccumulator = false)
    (tranches : sides.contains .tranches = false)
    : fundOf r' = fundOf r := by
  simp only [State.fundOf, h.amount .poolLiquidity pool, h.amount .poolAccSeen acc,
    h.amount .poolAccHeld acc, h.count .poolAcc acc, h.amount .poolWeight tranches,
    h.tranche tranches]

/-- A write into the tranches is one into their positions. -/
theorem fundOf_putTranche (r : Rows) (id : Nat) (t : Tranche)
    : fundOf (r.putTranche id t)
      = { fundOf r with
          positions := update (fundOf r).positions (t.owner, id) (positionOf (some t)) } := by
  simp only [fundOf, Rows.putTranche]
  congr 1
  funext key
  by_cases same : key = (t.owner, id)
  · subst same
    simp
  · simp [same]

@[simp]
theorem fundOf_setWeight (r : Rows) (v : Int)
    : fundOf (r.setAmount .poolWeight v) = { fundOf r with weight := v } := by
  simp [fundOf]

theorem fundOf_takeReward (r : Rows) (owed : Int)
    : fundOf (takeReward r owed)
      = { fundOf r with
          pool := i64 ((fundOf r).pool - owed)
          seen := i64 ((fundOf r).pool - owed) } := by
  simp [fundOf, takeReward]

/-- The sync of the rows is the sync of their fund. -/
theorem fundOf_sync (r : Rows)
    : fundOf (syncPoolAccumulator r).1 = (fundOf r).sync
      ∧ (syncPoolAccumulator r).2 = (fundOf r).sync.acc := by
  have word := accumulatorStep_word (i64_mem (r.getU64 .poolAcc))
    (i64 (r.getAmount .poolLiquidity - r.getAmount .poolAccSeen)) (r.getAmount .poolAccHeld)
    (r.getAmount .poolWeight)
  unfold syncPoolAccumulator Fund.sync
  dsimp only
  by_cases arrived : r.getAmount .poolLiquidity > r.getAmount .poolAccSeen
  · rw [if_pos arrived, if_pos (show (fundOf r).pool > (fundOf r).seen from arrived)]
    refine ⟨?_, rfl⟩
    simp [fundOf, i64_toU64 word]
  · rw [if_neg arrived, if_neg (show ¬(fundOf r).pool > (fundOf r).seen from arrived)]
    refine ⟨?_, rfl⟩
    simp [fundOf]

-----------------------------------------------------------------------------------------
-- The writes on the fund
-----------------------------------------------------------------------------------------

/-- The weight a tranche is registered with at `height`. -/
def weightAt (t : Tranche) (height : Nat) : Int :=
  trancheWeight t.shares (ageDays t.startHeight height)

/-- What a settlement owes is what the sync entitles the tranche to: the clamp is not taken. -/
theorem owedTo_eq {left : Int} (sound : (fundOf r).Sound left) {key : TrancheKey} {t : Tranche}
    (there : (fundOf r).positions key = positionOf (some t)) (going : t.closed = false)
    : entitlement t.weight t.accStart (syncPoolAccumulator r).2
          ≤ (syncPoolAccumulator r).1.getAmount .poolLiquidity
      ∧ owedTo r t = (fundOf r).sync.entitled key := by
  obtain ⟨rows, reading⟩ := fundOf_sync r
  obtain ⟨pool, seen, weight, positions⟩ := (fundOf r).sync_frame
  have entitled : entitlement t.weight t.accStart (syncPoolAccumulator r).2
      = (fundOf r).sync.entitled key := by
    rw [Fund.entitled, positions, there, reading]
    simp [positionOf, going]
  have le := sound.sync.1.entitled_le key
  have counted : (syncPoolAccumulator r).1.getAmount .poolLiquidity = (fundOf r).sync.seen := by
    rw [seen, ← pool, ← rows]
    rfl
  have unclamped : entitlement t.weight t.accStart (syncPoolAccumulator r).2
      ≤ (syncPoolAccumulator r).1.getAmount .poolLiquidity := by
    rw [entitled, counted]
    exact le
  refine ⟨unclamped, ?_⟩
  unfold owedTo
  dsimp only
  rw [if_neg (not_lt.mpr unclamped), entitled]

/-- A settlement syncs the fund, pays the tranche and registers it at its age. -/
theorem fundOf_settleRows {left : Int} (sound : (fundOf r).Sound left) {height id : Nat}
    {t : Tranche} (there : (fundOf r).positions (t.owner, id) = positionOf (some t))
    (going : t.closed = false) (nonneg : 0 ≤ weightAt t height)
    (fits : (fundOf r).weight - t.weight + weightAt t height < 2 ^ 63)
    : fundOf (settleRows r height id t)
      = (fundOf r).sync.register (t.owner, id) (weightAt t height)
        ((fundOf r).sync.entitled (t.owner, id)) := by
  obtain ⟨rows, reading⟩ := fundOf_sync r
  obtain ⟨pool, seen, weight, positions⟩ := (fundOf r).sync_frame
  have synced := sound.sync.1
  have owed := (owedTo_eq sound there going).2
  have owed_nonneg := (synced.entitled_bounds (t.owner, id)).1
  have owed_le := synced.entitled_le (t.owner, id)
  have pool_lt := sound.pool_lt
  have past := sound.past (t.owner, id)
  have weight_lt := sound.weight_lt
  have others := sound.past.weight_le sound.few (t.owner, id)
  rw [← sound.weight] at others
  have own : ((fundOf r).positions (t.owner, id)).weight = t.weight := by
    rw [there]
    simp [positionOf, going]
  rw [own] at others past
  -- the weight without the tranche and with it are both words
  have sum : i64 (i64 ((fundOf r).weight - t.weight) + weightAt t height)
      = (fundOf r).weight - t.weight + weightAt t height := by
    rw [i64_add_left, i64_of_nonneg (by omega) fits]
  have registered : fundOf (reweigh (syncPoolAccumulator r).1 id t
        (t.registered height (syncPoolAccumulator r).2))
      = { (fundOf r).sync with
          weight := (fundOf r).weight - t.weight + weightAt t height
          positions := update (fundOf r).sync.positions (t.owner, id)
            ⟨weightAt t height, (fundOf r).sync.acc⟩ } := by
    have position : positionOf (some (t.registered height (syncPoolAccumulator r).2))
        = ⟨weightAt t height, (fundOf r).sync.acc⟩ := by
      rw [reading]
      simp [positionOf, Tranche.registered, going, weightAt]
    have kept : (syncPoolAccumulator r).1.getAmount .poolWeight = (fundOf r).weight := by
      rw [← weight, ← rows]
      rfl
    unfold reweigh
    rw [fundOf_putTranche, fundOf_setWeight, position, rows, kept]
    simp only [Tranche.registered, ← weightAt.eq_def, sum]
  unfold settleRows
  dsimp only
  rw [owed]
  split
  · rename_i unpaid
    have none_owed : (fundOf r).sync.entitled (t.owner, id) = 0 := by omega
    rw [registered, none_owed]
    simp [Fund.register, weight, positions, own]
  · rw [fundOf_takeReward, registered]
    dsimp only
    rw [pool, i64_of_nonneg (by omega) (by omega)]
    simp [Fund.register, pool, seen, weight, positions, own]

/-- A new tranche is a position at the reading, of the weight of age zero. -/
theorem fundOf_openTranche {left : Int} (sound : (fundOf r).Sound left) (ctx : Ctx) {shares : Int}
    (fits : (fundOf r).weight + trancheWeight shares 0 < 2 ^ 63)
    (vacant : r.tranche (ctx.sender, r.getU64 (.lpSeq ctx.sender) + 1) = none)
    : fundOf (openTranche r ctx shares (fundOf r).acc)
      = (fundOf r).register (ctx.sender, r.getU64 (.lpSeq ctx.sender) + 1)
        (trancheWeight shares 0) 0 := by
  have empty : (fundOf r).positions (ctx.sender, r.getU64 (.lpSeq ctx.sender) + 1) = .vacant := by
    simp [fundOf, vacant, positionOf]
  have weight_nonneg := sound.past.weight_nonneg
  rw [← sound.weight] at weight_nonneg
  have sum : i64 ((fundOf r).weight + trancheWeight shares 0)
      = (fundOf r).weight + trancheWeight shares 0 :=
    i64_of_nonneg (add_nonneg weight_nonneg (trancheWeight_nonneg shares 0)) fits
  have counted : fundOf ((r.setAmount .poolWeight (i64 (r.getAmount .poolWeight
        + trancheWeight shares 0))).setU64 (.lpSeq ctx.sender)
          ((r.setAmount .poolWeight (i64 (r.getAmount .poolWeight
            + trancheWeight shares 0))).getU64 (.lpSeq ctx.sender) + 1))
      = { fundOf r with weight := (fundOf r).weight + trancheWeight shares 0 } := by
    rw [← sum]
    simp [fundOf]
  unfold openTranche
  dsimp only
  rw [fundOf_putTranche, counted]
  simp [Fund.register, empty, Position.vacant, positionOf]

/-- A withdrawal gives the position up. -/
theorem fundOf_withdrawn {left : Int} (sound : (fundOf r).Sound left) {id : Nat} {t : Tranche}
    (there : (fundOf r).positions (t.owner, id) = positionOf (some t)) (going : t.closed = false)
    {lcOut paid : Int} (noted : r' = takeFromPool r t lcOut paid
      ∨ r' = noteAccount (takeFromPool r t lcOut paid) t.owner)
    : fundOf (r'.putTranche id { t with closed := true, weight := 0 })
      = (fundOf r).leave (t.owner, id) := by
  have own : ((fundOf r).positions (t.owner, id)).weight = t.weight := by
    rw [there]
    simp [positionOf, going]
  have past := sound.past (t.owner, id)
  have others := sound.past.weight_le sound.few (t.owner, id)
  have weight_lt := sound.weight_lt
  rw [← sound.weight, own] at others
  rw [own] at past
  have taken : fundOf (takeFromPool r t lcOut paid)
      = { fundOf r with weight := (fundOf r).weight - t.weight } := by
    rw [← i64_of_nonneg (x := (fundOf r).weight - t.weight) (by omega) (by omega)]
    simp [fundOf, takeFromPool]
  have same : fundOf r' = fundOf (takeFromPool r t lcOut paid) := by
    rcases noted with rfl | rfl
    · rfl
    · exact ((Touches.refl _).noteAccount t.owner (by rfl) : Touches [.roll] _ _).fundOf (by rfl) (by rfl) (by rfl)
  rw [fundOf_putTranche, same, taken]
  simp [Fund.leave, own, positionOf]

end LasseCash.State
