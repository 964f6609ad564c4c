import LasseCash.State.Accrual

/-! What a walk keeps: a drain of a day's expiry list keeps what its single writes keep, and the day
loop keeps what its drains and the closes of its days keep.
-/

namespace LasseCash.State

open Engine

/-- (DrainKeeps day P) says that `P` survives every write of a drain of the day's list: that of an
account's shares, of a chunk and of the cursor, and the deletion of the list's counts.
-/
structure DrainKeeps (day : Nat) (P : Rows → Prop) : Prop where
  shares : ∀ r account v, P r → P (r.setAmount (.shares account) v)
  chunk : ∀ r cur, P r → P (r.setExpiry day cur none)
  cursor : ∀ r v, P r → P (r.setU64 (.explCursor day) v)
  closed : ∀ r, P r → P ((r.deleteU64 (.explCount day)).deleteU64 (.explCursor day))

namespace DrainKeeps

variable {day : Nat} {P : Rows → Prop} {r : Rows}

/-- Retired entries, by induction on them. -/
theorem retireEntries (keeps : DrainKeeps day P) (start : P r) (entries : List ExpiryEntry)
    : P (entries.foldl retireEntry r) := by
  induction entries generalizing r with
  | nil => exact start
  | cons entry rest ih =>
      refine ih ?_
      unfold retireEntry
      split
      · exact start
      · exact keeps.shares r _ _ start

/-- The chunk loop, by induction on the chunks to go. -/
theorem drainChunks (keeps : DrainKeeps day P) (start : P r) (togo cur budget : Nat)
    : P (drainChunks day togo cur r budget).1 := by
  induction togo generalizing cur r budget with
  | zero => exact keeps.closed r start
  | succ togo ih =>
      unfold State.drainChunks
      split
      · exact ih start _ _
      · split
        · exact keeps.cursor r cur start
        · exact ih (keeps.chunk _ cur (keeps.retireEntries start _)) _ _

theorem drainExpiryList (keeps : DrainKeeps day P) (start : P r) (budget : Nat)
    : P (drainExpiryList r day budget).1 := by
  unfold State.drainExpiryList
  dsimp only
  split
  · exact start
  · exact keeps.drainChunks start _ _ _

end DrainKeeps

/-- The day loop, by induction on the days to go. -/
theorem Walk.days_keep {sc : EmissionSchedule} {P : Walk → Prop}
    (drain : ∀ w rows budget, rows = (drainExpiryList w.rows w.day w.budget).1 → P w
      → P { w with rows, budget })
    (close : ∀ w, P w → P (w.closeDay sc)) {w : Walk} (start : P w) (togo : Nat)
    : P (Walk.days sc togo w) := by
  induction togo generalizing w with
  | zero => exact start
  | succ togo ih =>
      unfold Walk.days
      split
      · rename_i rows budget stopped
        exact drain w rows budget (by rw [stopped]) start
      · rename_i rows budget done
        exact ih (close _ (drain w rows budget (by rw [done]) start))

end LasseCash.State
