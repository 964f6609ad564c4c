import LasseCash.State.FullDays

/-! What a walk books when it ends, and that booking in between makes no difference: a walk that
books and starts again books the same in sum as one that goes on.
-/

namespace LasseCash.State

open Engine MachineInt Function Program

-----------------------------------------------------------------------------------------
-- The booked rows
-----------------------------------------------------------------------------------------

/-- The amounts that a walk writes when it ends. -/
def AmountKey.booked : AmountKey → Bool
  | .emitted | .poolViral | .poolDeep | .poolLiquidity | .poolLShare | .accHeld
  | .sharesTotal => true
  | _ => false

/-- The counts that a walk writes when it ends. -/
def CountKey.booked : CountKey → Bool
  | .accPerShare | .accDay | .settled => true
  | _ => false

/-- The rows `r`, with those of `p` for what a walk books. -/
def overlay (p r : Rows) : Rows :=
  { r with
    amount := fun k => if k.booked then p.amount k else r.amount k
    count := fun k => if k.booked then p.count k else r.count k }

/-- An amount raised by something positive. -/
def credited (base : Option Int) (amt : Int) : Option Int :=
  if amt > 0 then some (i64 (base.getD 0 + amt)) else base

/-- What the walk's end leaves under an amount's key. -/
def Walk.bookedAmount (w : Walk) (base : AmountKey → Option Int) (k : AmountKey) : Option Int :=
  match k with
  | .emitted => credited (base k) w.totalEmitted
  | .poolViral => credited (base k) (splitPoB (split w.totalEmitted).proofOfBrain).1
  | .poolDeep => credited (base k) (splitPoB (split w.totalEmitted).proofOfBrain).2
  | .poolLiquidity => credited (base k) (split w.totalEmitted).liquidity
  | .poolLShare => credited (base k) w.lshareTotal
  | .accHeld => some w.held
  | .sharesTotal => some w.active
  | k => base k

/-- What the walk's end leaves under a count's key. -/
def Walk.bookedCount (w : Walk) (genesis : Nat) (base : CountKey → Option Nat) (k : CountKey)
    : Option Nat :=
  match k with
  | .accPerShare => some (toU64 w.acc)
  | .accDay => some w.day
  | .settled => some (u64 (genesis + w.day * heightsPerDay))
  | k => base k

/-- The rows that a walk over `r` leaves when it ends. -/
def Walk.booked (w : Walk) (r : Rows) : Rows :=
  { r with
    amount := w.bookedAmount r.amount
    count := w.bookedCount (genesisHeight r) r.count }

/-- Raising in two steps is raising by the sum. -/
theorem credited_add (base : Option Int) {x y : Int} (hx : 0 ≤ x) (hy : 0 ≤ y)
    : credited (credited base x) y = credited base (x + y) := by
  unfold credited
  rcases hx.eq_or_lt with rfl | px
  · simp
  rcases hy.eq_or_lt with rfl | py
  · simp
  rw [if_pos px, if_pos py, if_pos (add_pos px py), Option.getD_some, i64_add_left, add_assoc]

/-- Crediting a pool raises its amount and nothing else. -/
theorem addPool_eq (r : Rows) (key : AmountKey) (amt : Int)
    : addPool r key amt = { r with amount := update r.amount key (credited (r.amount key) amt) } := by
  unfold addPool credited
  split
  · rfl
  · rw [update_eq_self]

/-- The source's last writes are the booking, when a walk without emission has none for the
pools either.
-/
theorem Walk.booked_eq (w : Walk) (r : Rows)
    (shares : w.totalEmitted ≤ 0 → w.lshareTotal = 0)
    : w.booked r = w.commit (if w.totalEmitted > 0 then
        w.creditPools (r.setAmount .emitted (i64 (r.getAmount .emitted + w.totalEmitted)))
      else r) := by
  by_cases issued : w.totalEmitted > 0
  · rw [if_pos issued]
    simp only [creditPools, addPool_eq]
    refine Rows.ext (funext fun k => ?_) (funext fun k => ?_) rfl rfl rfl rfl rfl rfl rfl rfl rfl rfl
      rfl rfl rfl rfl rfl rfl rfl
    · cases k <;> simp [booked, bookedAmount, commit, credited, issued, amountAt]
    · cases k <;> simp [booked, bookedCount, commit, heightOfDay, genesisHeight]
  · have none_split : split w.totalEmitted = .zero := if_pos (not_lt.mp issued)
    have none_shared := shares (not_lt.mp issued)
    rw [if_neg issued]
    refine Rows.ext (funext fun k => ?_) (funext fun k => ?_) rfl rfl rfl rfl rfl rfl rfl rfl rfl rfl
      rfl rfl rfl rfl rfl rfl rfl
    · cases k <;> simp [booked, bookedAmount, commit, none_split, none_shared, Allocation.zero,
        splitPoB, credited, issued]
    · cases k <;> simp [booked, bookedCount, commit, heightOfDay, genesisHeight]

-----------------------------------------------------------------------------------------
-- A day does not look at what is booked
-----------------------------------------------------------------------------------------

section Overlay

variable (p r : Rows)

theorem overlay_getAmount {k : AmountKey} (free : k.booked = false)
    : (overlay p r).getAmount k = r.getAmount k := by
  simp [overlay, amountAt, free]

theorem overlay_getU64 {k : CountKey} (free : k.booked = false)
    : (overlay p r).getU64 k = r.getU64 k := by
  simp [overlay, countAt, free]

theorem overlay_updateAmount {k : AmountKey} (free : k.booked = false) (v : Option Int)
    : overlay p { r with amount := update r.amount k v }
      = { overlay p r with amount := update (overlay p r).amount k v } := by
  unfold overlay
  congr 1
  funext k'
  by_cases same : k' = k
  · subst same
    simp [free]
  · simp [same]

theorem overlay_updateCount {k : CountKey} (free : k.booked = false) (v : Option Nat)
    : overlay p { r with count := update r.count k v }
      = { overlay p r with count := update (overlay p r).count k v } := by
  unfold overlay
  congr 1
  funext k'
  by_cases same : k' = k
  · subst same
    simp [free]
  · simp [same]

theorem overlay_setAmount {k : AmountKey} (free : k.booked = false) (v : Int)
    : overlay p (r.setAmount k v) = (overlay p r).setAmount k v :=
  overlay_updateAmount p r free (some v)

theorem overlay_retireEntry (entry : ExpiryEntry)
    : retireEntry (overlay p r) entry = overlay p (retireEntry r entry) := by
  unfold retireEntry sharesOf
  split
  · rfl
  · rw [overlay_getAmount p r rfl, overlay_setAmount p r rfl]

/-- Retiring entries, by induction on them. -/
theorem overlay_retireEntries (entries : List ExpiryEntry)
    : entries.foldl retireEntry (overlay p r) = overlay p (entries.foldl retireEntry r) := by
  induction entries generalizing r with
  | nil => rfl
  | cons entry rest ih => rw [List.foldl_cons, overlay_retireEntry, ih, List.foldl_cons]

/-- The chunk loop, by induction on the chunks to go. -/
theorem overlay_fullChunks (day togo cur : Nat)
    : fullChunks day togo cur (overlay p r) = overlay p (fullChunks day togo cur r) := by
  induction togo generalizing cur r with
  | zero =>
      unfold fullChunks Rows.deleteU64
      rw [overlay_updateCount p _ rfl, overlay_updateCount p _ rfl]
  | succ togo ih =>
      unfold fullChunks
      have there : (overlay p r).expiry (day, cur) = r.expiry (day, cur) := rfl
      rw [there]
      split
      · exact ih r (cur + 1)
      · rename_i entries _
        rw [overlay_retireEntries]
        exact ih ((entries.foldl retireEntry r).setExpiry day cur none) (cur + 1)

theorem overlay_fullDrain (day : Nat)
    : fullDrain (overlay p r) day = overlay p (fullDrain r day) := by
  unfold fullDrain
  rw [overlay_getU64 p r rfl, overlay_getU64 p r rfl]
  dsimp only
  split
  · rfl
  · exact overlay_fullChunks p r day _ _

end Overlay

/-- (Rebased p w u) says that `u` is as far as `w` and reads the same rows, but for those of
`p` where they are booked.
-/
structure Rebased (p : Rows) (w u : Walk) : Prop where
  rows : u.rows = overlay p w.rows
  day : u.day = w.day
  acc : u.acc = w.acc
  held : u.held = w.held
  active : u.active = w.active

namespace Rebased

variable {p : Rows} {w u : Walk}

theorem emit (h : Rebased p w u) (amount : Int) : Rebased p (w.emit amount) (u.emit amount) := by
  unfold Walk.emit
  split
  · exact ⟨h.rows, h.day, h.acc, h.held, h.active⟩
  · exact h

theorem distribute (h : Rebased p w u) (lshare : Int)
    : Rebased p (w.distribute lshare) (u.distribute lshare) := by
  unfold Walk.distribute
  rw [h.acc, h.held, h.active]
  split
  · exact ⟨h.rows, h.day, rfl, rfl, rfl⟩
  · exact h

theorem expire (h : Rebased p w u) : Rebased p w.expire u.expire := by
  unfold Walk.expire
  rw [h.rows, h.day, h.acc, h.active, overlay_getAmount p w.rows rfl]
  dsimp only
  split
  · refine ⟨?_, rfl, rfl, h.held, rfl⟩
    unfold Rows.setU64 Rows.deleteAmount
    rw [overlay_updateCount p _ rfl, overlay_updateAmount p _ rfl]
  · exact h

theorem closeDay (sc : EmissionSchedule) (h : Rebased p w u)
    : Rebased p (w.closeDay sc) (u.closeDay sc) := by
  have height (day : Nat) : heightOfDay u.rows day = heightOfDay w.rows day := by
    rw [h.rows]
    unfold heightOfDay genesisHeight
    rw [overlay_getU64 p w.rows rfl]
  unfold Walk.closeDay
  dsimp only
  rw [height, height, h.day]
  have closed := ((h.emit (sc.emissionBetween (heightOfDay w.rows w.day)
    (heightOfDay w.rows (w.day + 1)))).distribute
      (if sc.emissionBetween (heightOfDay w.rows w.day) (heightOfDay w.rows (w.day + 1)) > 0 then
        (split (sc.emissionBetween (heightOfDay w.rows w.day)
          (heightOfDay w.rows (w.day + 1)))).lShare
      else 0)).expire
  exact ⟨closed.rows, congrArg (· + 1) closed.day, closed.acc, closed.held, closed.active⟩

/-- A day keeps walks in step, part by part. -/
theorem fullDay (sc : EmissionSchedule) (h : Rebased p w u)
    : Rebased p (w.fullDay sc) (u.fullDay sc) := by
  refine closeDay sc ⟨?_, h.day, h.acc, h.held, h.active⟩
  dsimp only
  rw [h.rows, h.day, overlay_fullDrain]

/-- Days keep walks in step, by induction on the days. -/
theorem fullDays (sc : EmissionSchedule) (togo : Nat) (h : Rebased p w u)
    : Rebased p (w.fullDays sc togo) (u.fullDays sc togo) := by
  induction togo generalizing w u with
  | zero => exact h
  | succ togo ih => exact ih (h.fullDay sc)

end Rebased

end LasseCash.State
