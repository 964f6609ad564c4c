import LasseCash.State.History

/-! Days walked without a budget, and how a walk that ran out of one resumes: where it stopped
within a day's list, the rest of that list leads where the whole list would have led.
-/

namespace LasseCash.State

open Engine MachineInt Function

-----------------------------------------------------------------------------------------
-- Draining without a budget
-----------------------------------------------------------------------------------------

/-- The chunk loop with nothing to stop it. -/
def fullChunks (day : Nat) : Nat → Nat → Rows → Rows
  | 0, _, r => (r.deleteU64 (.explCount day)).deleteU64 (.explCursor day)
  | togo + 1, cur, r =>
      match r.expiry (day, cur) with
      | none => fullChunks day togo (cur + 1) r
      | some entries =>
          fullChunks day togo (cur + 1) ((entries.foldl retireEntry r).setExpiry day cur none)

/-- Retires what is left of a day's list. -/
def fullDrain (r : Rows) (day : Nat) : Rows :=
  let count := r.getU64 (.explCount day)
  let cur := r.getU64 (.explCursor day)
  if count = 0 then r else fullChunks day (count - cur) cur r

/-- Retiring an entry writes an amount only. -/
theorem retireEntry_setU64 (r : Rows) (entry : ExpiryEntry) (k : CountKey) (v : Nat)
    : retireEntry (r.setU64 k v) entry = (retireEntry r entry).setU64 k v := by
  unfold retireEntry
  split <;> rfl

theorem retireEntry_count (r : Rows) (entry : ExpiryEntry)
    : (retireEntry r entry).count = r.count := by
  unfold retireEntry
  split <;> rfl

/-- Retiring entries commutes with writes to counts, by induction on the entries. -/
theorem retireEntries_setU64 (r : Rows) (entries : List ExpiryEntry) (k : CountKey) (v : Nat)
    : entries.foldl retireEntry (r.setU64 k v) = (entries.foldl retireEntry r).setU64 k v := by
  induction entries generalizing r with
  | nil => rfl
  | cons entry rest ih => rw [List.foldl_cons, retireEntry_setU64, ih, List.foldl_cons]

theorem retireEntries_count (r : Rows) (entries : List ExpiryEntry)
    : (entries.foldl retireEntry r).count = r.count := by
  induction entries generalizing r with
  | nil => rfl
  | cons entry rest ih => rw [List.foldl_cons, ih, retireEntry_count]

/-- The stored cursor does not matter to the loop, which is told where it is and deletes the
cursor in the end; by induction on the chunks to go.
-/
theorem fullChunks_setCursor (day togo cur v : Nat) (r : Rows)
    : fullChunks day togo cur (r.setU64 (.explCursor day) v) = fullChunks day togo cur r := by
  induction togo generalizing cur r with
  | zero =>
      refine Rows.ext rfl (funext fun k => ?_) rfl rfl rfl rfl rfl rfl rfl rfl rfl rfl rfl rfl rfl
        rfl rfl rfl rfl
      by_cases same : k = .explCursor day
      · subst same
        simp [fullChunks]
      · simp [fullChunks, update, same]
  | succ togo ih =>
      unfold fullChunks
      rw [Rows.setU64_expiry]
      split
      · exact ih (cur + 1) r
      · rename_i entries _
        rw [retireEntries_setU64]
        exact ih (cur + 1) ((entries.foldl retireEntry r).setExpiry day cur none)

/-- A budgeted loop either drains the list, or leaves it where draining the rest drains all of
it; by induction on the chunks to go.
-/
theorem drainChunks_resume (day togo cur budget : Nat) (r : Rows)
    (count : r.getU64 (.explCount day) = cur + togo)
    : let (r', _, done) := drainChunks day togo cur r budget
      if done then r' = fullChunks day togo cur r
      else fullDrain r' day = fullChunks day togo cur r := by
  induction togo generalizing cur budget r with
  | zero => simp [drainChunks, fullChunks]
  | succ togo ih =>
      unfold drainChunks fullChunks
      cases there : r.expiry (day, cur) with
      | none => exact ih (cur + 1) budget r (by omega)
      | some entries =>
          dsimp only
          split
          · -- the budget ends here, and the cursor remembers it
            have stopped : fullDrain (r.setU64 (.explCursor day) cur) day
                = fullChunks day (togo + 1) cur (r.setU64 (.explCursor day) cur) := by
              have count' : (r.setU64 (.explCursor day) cur).getU64 (.explCount day)
                  = cur + (togo + 1) := by
                simpa using count
              have cursor : (r.setU64 (.explCursor day) cur).getU64 (.explCursor day) = cur := by
                simp
              unfold fullDrain
              rw [count', cursor]
              simp
            rw [fullChunks_setCursor] at stopped
            simpa [fullChunks, there] using stopped
          · refine ih (cur + 1) _ ((entries.foldl retireEntry r).setExpiry day cur none) ?_
            have kept := retireEntries_count r entries
            simp only [Rows.getU64, Rows.setExpiry_count, kept] at count ⊢
            omega

/-- The same of a day's list; a cursor past the list drains it. -/
theorem drainExpiryList_resume (r : Rows) (day budget : Nat)
    : let (r', _, done) := drainExpiryList r day budget
      if done then r' = fullDrain r day else fullDrain r' day = fullDrain r day := by
  unfold drainExpiryList
  dsimp only
  split
  · rename_i none_listed
    simp [fullDrain, none_listed]
  rename_i some_listed
  have full : fullDrain r day = fullChunks day
      (r.getU64 (.explCount day) - r.getU64 (.explCursor day)) (r.getU64 (.explCursor day)) r := by
    simp [fullDrain, some_listed]
  rw [full]
  rcases Nat.le_total (r.getU64 (.explCursor day)) (r.getU64 (.explCount day)) with within | past
  · exact drainChunks_resume day _ _ budget r (by omega)
  · rw [Nat.sub_eq_zero_of_le past]
    simp [drainChunks, fullChunks]

-----------------------------------------------------------------------------------------
-- Walking without a budget
-----------------------------------------------------------------------------------------

namespace Walk

/-- A day with its whole list drained. -/
def fullDay (sc : EmissionSchedule) (w : Walk) : Walk :=
  ({ w with rows := fullDrain w.rows w.day } : Walk).closeDay sc

/-- The day loop with nothing to stop it. -/
def fullDays (sc : EmissionSchedule) : Nat → Walk → Walk
  | 0, w => w
  | togo + 1, w => fullDays sc togo (w.fullDay sc)

/-- Closing a day does not look at the budget. -/
theorem closeDay_budget (sc : EmissionSchedule) (w : Walk) (budget : Nat)
    : ({ w with budget } : Walk).closeDay sc = { w.closeDay sc with budget } := by
  have emit (w : Walk) (amount : Int)
      : ({ w with budget } : Walk).emit amount = { w.emit amount with budget } := by
    unfold Walk.emit
    split <;> rfl
  have distribute (w : Walk) (lshare : Int)
      : ({ w with budget } : Walk).distribute lshare = { w.distribute lshare with budget } := by
    unfold Walk.distribute
    dsimp only
    split <;> rfl
  have expire (w : Walk) : ({ w with budget } : Walk).expire = { w.expire with budget } := by
    unfold Walk.expire
    dsimp only
    split <;> rfl
  unfold closeDay
  dsimp only
  rw [emit, distribute, expire]

/-- Nor does the day loop without one, by induction on the days. -/
theorem fullDays_budget (sc : EmissionSchedule) (togo : Nat) (w : Walk) (budget : Nat)
    : fullDays sc togo { w with budget } = { fullDays sc togo w with budget } := by
  induction togo generalizing w with
  | zero => rfl
  | succ togo ih =>
      unfold fullDays
      rw [show fullDay sc { w with budget } = { fullDay sc w with budget } from
        closeDay_budget sc { w with rows := fullDrain w.rows w.day } budget]
      exact ih (w.fullDay sc)

/-- A walk with a budget passes some of its days in full, and where it stops, the days that are
left lead where they would have led without a stop; by induction on the days to go.
-/
theorem days_resume (sc : EmissionSchedule) (togo : Nat) (w : Walk)
    : ∃ passed ≤ togo, (Walk.days sc togo w).day = w.day + passed
      ∧ ∀ rest, togo ≤ passed + rest → ∃ budget,
        fullDays sc rest (Walk.days sc togo w)
          = { fullDays sc (passed + rest) w with budget } := by
  induction togo generalizing w with
  | zero => exact ⟨0, le_rfl, rfl, fun rest _ => ⟨_, by rw [Nat.zero_add]; rfl⟩⟩
  | succ togo ih =>
      unfold Walk.days
      have drained := drainExpiryList_resume w.rows w.day w.budget
      split
      · -- the list is not drained: the day is still to be walked
        rename_i rows budget stopped
        simp only [stopped, Bool.false_eq_true, if_false] at drained
        refine ⟨0, Nat.zero_le _, rfl, fun rest left => ?_⟩
        obtain ⟨rest, rfl⟩ : ∃ n, rest = n + 1 := ⟨rest - 1, by omega⟩
        refine ⟨budget, ?_⟩
        rw [Nat.zero_add, fullDays, fullDays, ← fullDays_budget]
        congr 1
        unfold fullDay
        rw [← closeDay_budget, drained]
      · rename_i rows budget done
        simp only [done, if_true] at drained
        subst drained
        obtain ⟨passed, within, day, later⟩ := ih (({ w with
          rows := fullDrain w.rows w.day, budget } : Walk).closeDay sc)
        refine ⟨passed + 1, by omega, ?_, fun rest left => ?_⟩
        · rw [day, closeDay_day]
          dsimp only
          omega
        · obtain ⟨budget', same⟩ := later rest (by omega)
          refine ⟨budget', ?_⟩
          rw [same, show passed + 1 + rest = passed + rest + 1 by omega, fullDays, fullDay,
            closeDay_budget sc { w with rows := fullDrain w.rows w.day } budget,
            fullDays_budget]

end Walk

end LasseCash.State
