import LasseCash.Lib.RewardAccumulator
import LasseCash.State.AccrualFlow

/-! The liquidity rewards as a fund: what the pool holds, how far the accumulator has counted it,
and the positions it is owed to. Every sync, payment, deposit and withdrawal keeps it solvent.
-/

namespace LasseCash.State

open Engine MachineInt RewardAccumulator Function

/-- The key of a tranche: its owner and number. -/
abbrev TrancheKey := String × Nat

/-- The liquidity rewards and the positions they are for. -/
structure Fund where
  pool : Int
  seen : Int
  held : Int
  acc : Int
  weight : Int
  positions : TrancheKey → Position Int

/-- (f.Sound left) says that the fund owes no more than it has counted, counted no more than it
holds, and that with a quarter of the emission `left` it stays a word.
-/
structure Fund.Sound (left : Int) (f : Fund) : Prop where
  left_nonneg : 0 ≤ left
  room : 4 * f.pool + left < 2 ^ 65
  few : Few f.positions
  past : Past f.acc f.positions
  starts : ∀ key, 0 ≤ (f.positions key).start
  weight : f.weight = totalWeight f.positions
  weight_lt : f.weight < 2 ^ 63
  acc_nonneg : 0 ≤ f.acc
  acc_le : f.acc ≤ maxAccumulator
  held_nonneg : 0 ≤ f.held
  seen_le : f.seen ≤ f.pool
  solvent : Solvent accScale f.acc f.held f.seen f.positions

namespace Fund

variable {f : Fund} {left : Int}

/-- What is held is part of what is counted. -/
theorem Sound.held_le (h : f.Sound left) : f.held ≤ f.seen := by
  have due := h.past.totalDue_nonneg
  have solvent := h.solvent
  unfold Solvent accScale at solvent
  omega

theorem Sound.pool_nonneg (h : f.Sound left) : 0 ≤ f.pool :=
  (h.held_nonneg.trans h.held_le).trans h.seen_le

theorem Sound.pool_lt (h : f.Sound left) : f.pool < 2 ^ 63 := by
  have := h.room
  have := h.left_nonneg
  omega

/-- An inflow enters the pool; it is counted at the next sync. -/
theorem Sound.inflow (h : f.Sound left) {x left' : Int} (nonneg : 0 ≤ x) (left_nonneg : 0 ≤ left')
    (room : 4 * (f.pool + x) + left' < 2 ^ 65)
    : ({ f with pool := f.pool + x } : Fund).Sound left' :=
  { h with
    left_nonneg
    room
    seen_le := h.seen_le.trans (by dsimp only; omega) }

/-- A sync counts what arrived since the last one and assigns it, if it can. -/
def sync (f : Fund) : Fund :=
  if f.pool > f.seen then
    let step := accumulatorStep f.acc (i64 (f.pool - f.seen)) f.held f.weight
    { f with acc := step.1, held := step.2, seen := f.pool }
  else { f with seen := f.pool }

theorem sync_frame (f : Fund)
    : f.sync.pool = f.pool ∧ f.sync.seen = f.pool ∧ f.sync.weight = f.weight
      ∧ f.sync.positions = f.positions := by
  unfold sync
  split <;> exact ⟨rfl, rfl, rfl, rfl⟩

/-- What a sync assigns when something arrived: all of it and of what was held, or nothing. -/
theorem Sound.sync_eq (h : f.Sound left) (arrived : f.seen < f.pool)
    : f.sync = if minSharesForAccrual ≤ f.weight
          ∧ 0 < riseOf (f.pool - f.seen + f.held) f.weight
          ∧ f.acc + riseOf (f.pool - f.seen + f.held) f.weight ≤ maxAccumulator
        then { f with
          acc := f.acc + riseOf (f.pool - f.seen + f.held) f.weight, held := 0, seen := f.pool }
        else { f with held := f.pool - f.seen + f.held, seen := f.pool } := by
  have held_nonneg := h.held_nonneg
  have held_le := h.held_le
  have pool_lt := h.pool_lt
  rw [sync, if_pos arrived, i64_of_nonneg (by omega) (by omega),
    accumulatorStep_eq h.acc_nonneg h.acc_le (by omega) (by omega)]
  dsimp only
  split <;> rfl

theorem Sound.sync_idle (h : f.Sound left) (none_arrived : ¬f.seen < f.pool) : f.sync = f := by
  have := h.seen_le
  have counted : f.pool = f.seen := by omega
  rw [sync, if_neg none_arrived]
  exact congrArg (fun seen => { f with seen }) counted

/-- A sync keeps the fund sound and its accumulator where it was or above, by cases on whether it
assigns what arrived.
-/
theorem Sound.sync (h : f.Sound left) : f.sync.Sound left ∧ f.acc ≤ f.sync.acc := by
  by_cases arrived : f.seen < f.pool
  · rw [h.sync_eq arrived]
    split
    · rename_i assigned
      obtain ⟨enough, some_rise, room⟩ := assigned
      have base : 0 < f.weight := lt_of_lt_of_le (by decide) enough
      have covered : riseOf (f.pool - f.seen + f.held) f.weight * totalWeight f.positions
          ≤ (f.held + (f.pool - f.seen)) * accScale := by
        rw [← h.weight, add_comm f.held]
        exact Int.ediv_mul_le _ base.ne'
      have solvent := h.solvent.raise h.few covered
      rw [add_sub_cancel] at solvent
      have acc_nonneg := h.acc_nonneg
      exact ⟨{ h with
        past := h.past.mono (by dsimp only; omega)
        acc_nonneg := by dsimp only; omega
        acc_le := room
        held_nonneg := le_rfl
        seen_le := le_rfl
        solvent }, by dsimp only; omega⟩
    · have held_nonneg := h.held_nonneg
      have solvent := h.solvent.hold (f.pool - f.seen)
      rw [add_sub_cancel, add_comm f.held] at solvent
      exact ⟨{ h with
        held_nonneg := by dsimp only; omega
        seen_le := le_rfl
        solvent }, le_rfl⟩
  · rw [h.sync_idle arrived]
    exact ⟨h, le_rfl⟩

/-- What a position is entitled to. -/
def entitled (f : Fund) (key : TrancheKey) : Int :=
  entitlement (f.positions key).weight (f.positions key).start f.acc

/-- An entitlement is covered by what is due to its position. -/
theorem Sound.entitled_bounds (h : f.Sound left) (key : TrancheKey)
    : 0 ≤ f.entitled key ∧ f.entitled key * accScale ≤ (f.positions key).due f.acc := by
  have acc_le := h.acc_le
  obtain ⟨nonneg, earlier⟩ := h.past key
  rcases nonneg.eq_or_lt with none | some
  · rw [entitled, Position.due, ← none]
    simp [entitlement]
  · exact entitlement_bounds (h.starts key) nonneg (earlier some)
      (by unfold maxAccumulator at acc_le; omega)

/-- All entitlements and what is held fit into what is counted. -/
theorem Sound.covers (h : f.Sound left) : ∑ᶠ key, f.entitled key + f.held ≤ f.seen := by
  have scaled := h.solvent.covers h.few (fun key => (h.entitled_bounds key).2) fun key vacant => by
    rw [entitled, vacant]
    rfl
  exact le_of_mul_le_mul_right scaled (by decide)

/-- No entitlement exceeds the fund, whatever the others are. -/
theorem Sound.entitled_le (h : f.Sound left) (key : TrancheKey) : f.entitled key ≤ f.seen := by
  have own := (h.entitled_bounds key).2
  have all := h.past.due_le h.few key
  have held := h.held_nonneg
  have solvent := h.solvent
  unfold Solvent accScale at *
  omega

/-- Replaces a position by one of `weight` at the present reading and pays `owed` for it. -/
def register (f : Fund) (key : TrancheKey) (weight owed : Int) : Fund :=
  { f with
    pool := f.pool - owed
    seen := f.seen - owed
    weight := f.weight - (f.positions key).weight + weight
    positions := update f.positions key ⟨weight, f.acc⟩ }

/-- A position may be paid what it is due and registered with a weight that fits. -/
theorem Sound.register (h : f.Sound left) (key : TrancheKey) {weight owed : Int}
    (nonneg : 0 ≤ weight) (fits : f.weight - (f.positions key).weight + weight < 2 ^ 63)
    (owed_nonneg : 0 ≤ owed) (covered : owed * accScale ≤ (f.positions key).due f.acc)
    : (f.register key weight owed).Sound left where
  left_nonneg := h.left_nonneg
  room := by
    have := h.room
    unfold Fund.register
    dsimp only
    omega
  few := h.few.update key _
  past := h.past.update key nonneg fun _ => le_rfl
  starts other := by
    by_cases same : other = key
    · subst same
      simpa [Fund.register] using h.acc_nonneg
    · simpa [Fund.register, same] using h.starts other
  weight := by
    rw [Fund.register, totalWeight_update h.few, h.weight]
  weight_lt := fits
  acc_nonneg := h.acc_nonneg
  acc_le := h.acc_le
  held_nonneg := h.held_nonneg
  seen_le := by
    have := h.seen_le
    unfold Fund.register
    dsimp only
    omega
  solvent := h.solvent.pay h.few key (Position.due_self weight f.acc) covered

/-- Gives a position up. -/
def leave (f : Fund) (key : TrancheKey) : Fund :=
  { f with
    weight := f.weight - (f.positions key).weight
    positions := update f.positions key .vacant }

theorem Sound.leave (h : f.Sound left) (key : TrancheKey) : (f.leave key).Sound left where
  left_nonneg := h.left_nonneg
  room := h.room
  few := h.few.update key _
  past := h.past.update key le_rfl nofun
  starts other := by
    by_cases same : other = key
    · subst same
      simp [Fund.leave, Position.vacant]
    · simpa [Fund.leave, same] using h.starts other
  weight := by
    rw [Fund.leave, totalWeight_update h.few, h.weight]
    simp [Position.vacant]
  weight_lt := by
    have := (h.past key).1
    have := h.weight_lt
    unfold Fund.leave
    dsimp only
    omega
  acc_nonneg := h.acc_nonneg
  acc_le := h.acc_le
  held_nonneg := h.held_nonneg
  seen_le := h.seen_le
  solvent := h.solvent.leave h.few h.past key

-----------------------------------------------------------------------------------------
-- Moves
-----------------------------------------------------------------------------------------

/-- (f.Move x f') says that a step takes the fund from `f` to `f'` while `x` flows in. -/
inductive Move (f : Fund) : Int → Fund → Prop
  | keep : Move f 0 f
  | inflow (x : Int) (nonneg : 0 ≤ x) : Move f x { f with pool := f.pool + x }
  | settle (key : TrancheKey) (weight : Int) (nonneg : 0 ≤ weight)
      (fits : f.weight - (f.positions key).weight + weight < 2 ^ 63)
      : Move f 0 (f.sync.register key weight (f.sync.entitled key))
  | enter (x : Int) (x_nonneg : 0 ≤ x) (key : TrancheKey) (weight : Int) (nonneg : 0 ≤ weight)
      (vacant : f.positions key = .vacant) (fits : f.weight + weight < 2 ^ 63)
      : Move f x (({ f with pool := f.pool + x } : Fund).sync.register key weight 0)
  | leave (key : TrancheKey) : Move f 0 (f.leave key)

/-- Every move keeps a fund sound that has room for the inflow, by cases on the move. -/
theorem Move.sound {f' : Fund} {x left' : Int} (move : f.Move x f') (h : f.Sound left)
    (left_nonneg : 0 ≤ left') (room : 4 * (f.pool + x) + left' < 2 ^ 65)
    : f'.Sound left' := by
  have still (same : x = 0) : f.Sound left' := by
    have := h.inflow le_rfl left_nonneg (same ▸ room)
    rwa [add_zero] at this
  cases move with
  | keep => exact still rfl
  | inflow x nonneg => exact h.inflow nonneg left_nonneg room
  | settle key weight nonneg fits =>
      obtain ⟨_, _, same, positions⟩ := f.sync_frame
      have synced := (still rfl).sync.1
      obtain ⟨owed_nonneg, covered⟩ := synced.entitled_bounds key
      exact synced.register key nonneg (by rw [same, positions]; exact fits) owed_nonneg covered
  | enter x x_nonneg key weight nonneg vacant fits =>
      have synced := (h.inflow x_nonneg left_nonneg room).sync.1
      obtain ⟨_, _, same, positions⟩ := ({ f with pool := f.pool + x } : Fund).sync_frame
      refine synced.register key nonneg ?_ le_rfl ?_
      · rw [same, positions]
        simpa [vacant, Position.vacant] using fits
      · rw [zero_mul]
        exact synced.past.due_nonneg key
  | leave key => exact (still rfl).leave key

end Fund

end LasseCash.State
