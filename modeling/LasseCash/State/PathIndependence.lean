import LasseCash.State.WalkEnds

/-! The accrual walk is path-independent: however a run of calls cuts the way to a height into
slices, once it has caught up it is where `AccrueFully` ends, and `AccrueFully` does end.
-/

namespace LasseCash.State

open Engine MachineInt Function Program

-----------------------------------------------------------------------------------------
-- Every call makes progress
-----------------------------------------------------------------------------------------

/-- The chunks of the next day's list that are not drained yet. -/
def chunksLeft (r : Rows) : Nat :=
  r.getU64 (.explCount (accruedDays r)) - r.getU64 (.explCursor (accruedDays r))

/-- A chunk loop that stops leaves its cursor at a chunk to go, and past the first chunk when
the budget was enough for it; by induction on the chunks to go.
-/
theorem drainChunks_stopped {day togo cur budget : Nat} {r : Rows}
    (stopped : (drainChunks day togo cur r budget).2.2 = false)
    : let r' := (drainChunks day togo cur r budget).1
      cur ≤ r'.getU64 (.explCursor day) ∧ r'.getU64 (.explCursor day) < cur + togo
        ∧ r'.getU64 (.explCount day) = r.getU64 (.explCount day)
        ∧ ((∀ entries, r.expiry (day, cur) = some entries → entries.length ≤ budget)
          → cur < r'.getU64 (.explCursor day)) := by
  induction togo generalizing cur r budget with
  | zero => simp [drainChunks] at stopped
  | succ togo ih =>
      unfold drainChunks at stopped ⊢
      cases there : r.expiry (day, cur) with
      | none =>
          simp only [there] at stopped ⊢
          obtain ⟨past, within, count, _⟩ := ih stopped
          exact ⟨by omega, by omega, count, fun _ => by omega⟩
      | some entries =>
          simp only [there] at stopped ⊢
          split
          · rename_i short
            refine ⟨by simp, by simp, by simp, fun enough => ?_⟩
            exact absurd (enough entries rfl) (by omega)
          · rename_i enough
            rw [if_neg enough] at stopped
            obtain ⟨past, within, count, _⟩ := ih stopped
            refine ⟨by omega, by omega, count.trans ?_, fun _ => by omega⟩
            simp only [Rows.getU64, Rows.setExpiry_count, retireEntries_count]

/-- A day whose list is not drained by a budget for one chunk has fewer chunks left. -/
theorem drainExpiryList_stopped {r : Rows} {day budget : Nat} (small : SmallChunks r)
    (enough : expiryChunkSize ≤ budget) (stopped : (drainExpiryList r day budget).2.2 = false)
    : let r' := (drainExpiryList r day budget).1
      r'.getU64 (.explCount day) - r'.getU64 (.explCursor day)
        < r.getU64 (.explCount day) - r.getU64 (.explCursor day) := by
  unfold drainExpiryList at stopped ⊢
  dsimp only at stopped ⊢
  split at stopped
  · cases stopped
  rename_i listed
  rw [if_neg listed]
  obtain ⟨_, within, count, past⟩ := drainChunks_stopped stopped
  have later := past fun entries there => (small _ entries there).trans enough
  rw [count]
  omega

/-- A walk with a day to go closes it, or leaves fewer chunks of it. -/
theorem Walk.days_progress (sc : EmissionSchedule) {togo : Nat} (positive : 0 < togo) {w : Walk}
    (small : SmallChunks w.rows) (enough : expiryChunkSize ≤ w.budget)
    : w.day < (Walk.days sc togo w).day
      ∨ (Walk.days sc togo w).day = w.day
        ∧ (Walk.days sc togo w).rows.getU64 (.explCount w.day)
            - (Walk.days sc togo w).rows.getU64 (.explCursor w.day)
          < w.rows.getU64 (.explCount w.day) - w.rows.getU64 (.explCursor w.day) := by
  obtain ⟨togo, rfl⟩ : ∃ n, togo = n + 1 := ⟨togo - 1, by omega⟩
  unfold Walk.days
  have progress := @drainExpiryList_stopped w.rows w.day w.budget small enough
  split
  · rename_i rows budget stopped
    simp only [stopped, forall_const] at progress
    exact .inr ⟨rfl, progress⟩
  · obtain ⟨passed, _, day, _⟩ := Walk.days_resume sc togo (({ w with
      rows := _, budget := _ } : Walk).closeDay sc)
    rw [day, closeDay_day]
    exact .inl (by dsimp only; omega)

section Worlds

variable {A : Type} [Assets A]

/-- An `Accrue` that has a day to walk closes it, or leaves fewer chunks of it. -/
theorem accrue_progress {w : World A} {height : Nat} (settled : Settled w.rows)
    (walkable : w.store.Walkable) (word : height < 2 ^ 64)
    (behind : accruedDays w.rows < dayOf w.rows height)
    : let r' := ((accrue height).run serve w).1.rows
      accruedDays w.rows < accruedDays r'
        ∨ accruedDays r' = accruedDays w.rows ∧ chunksLeft r' < chunksLeft w.rows := by
  obtain ⟨along, _⟩ := callWalk_along word behind maxAccrualDays userRetireBudget
  have books := accrueWalk_books w maxAccrualDays userRetireBudget settled word behind
    (walkable.issues along)
  have allowed : 0 < min (daysAllowed maxAccrualDays) (dayOf w.rows height - accruedDays w.rows) :=
    lt_min (by decide) (by omega)
  have progress := Walk.days_progress (schedule w.rows) allowed
    (w := .start w.rows userRetireBudget) settled.chunks le_rfl
  rw [show Walk.days (schedule w.rows) _ (.start w.rows userRetireBudget)
    = callWalk w.rows height maxAccrualDays userRetireBudget from rfl] at progress
  generalize callWalk w.rows height maxAccrualDays userRetireBudget = v at books progress
  have left : chunksLeft (w.store.book v).rows
      = v.rows.getU64 (.explCount v.day) - v.rows.getU64 (.explCursor v.day) := rfl
  rw [accrue, books]
  refine progress.imp id fun ⟨same, fewer⟩ => ⟨same, ?_⟩
  rw [← same] at fewer
  change chunksLeft (w.store.book v).rows < _
  rw [left]
  exact fewer.trans_eq (by rw [same]; rfl)

/-- The calls of `AccrueFully` end, as every one of them makes progress. -/
theorem accrueFully_ends {w : World A} {height : Nat} (settled : Settled w.rows)
    (walkable : w.store.Walkable) (word : height < 2 ^ 64)
    : ∃ fuel, ((accrueFully height fuel).run serve w).2 = some () := by
  cases done : ((accrue height).run serve w).2 with
  | true => exact ⟨1, by simp [accrueFully, done]⟩
  | false =>
      have kept := (WalkCall.accrue height).run_keeps settled walkable word le_rfl
      have behind : accruedDays w.rows < dayOf w.rows height := by
        by_contra arrived
        rw [accrue, accrueWalk_idle (not_lt.mp arrived)] at done
        cases done
      have progress := accrue_progress settled walkable word behind
      have target := kept.target
      obtain ⟨fuel, ended⟩ := accrueFully_ends kept.settled kept.walkable word
      refine ⟨fuel + 1, ?_⟩
      simp only [accrueFully, run_bind, done, Bool.false_eq_true, if_false]
      exact ended
termination_by (dayOf w.rows height - accruedDays w.rows, chunksLeft w.rows)
decreasing_by
  simp only [WalkCall.program, Prod.lex_def] at target progress ⊢
  omega

/-- More fuel than enough makes no difference, by induction on the fuel that was. -/
theorem accrueFully_fuel {w : World A} {height fuel : Nat}
    (ended : ((accrueFully height fuel).run serve w).2 = some ()) (more : Nat)
    : (accrueFully height (fuel + more)).run serve w = (accrueFully height fuel).run serve w := by
  induction fuel generalizing w with
  | zero => cases ended
  | succ fuel ih =>
      rw [Nat.add_right_comm]
      simp only [accrueFully, run_bind, run_ite] at ended ⊢
      split
      · rfl
      · rename_i going
        rw [if_neg going] at ended
        exact ih ended

/-- `AccrueFully` is a sequence of `Accrue` calls that has caught up when it ends, by induction
on the fuel.
-/
theorem accrueFully_calls {w : World A} {height fuel : Nat} (word : height < 2 ^ 64)
    (ended : ((accrueFully height fuel).run serve w).2 = some ())
    : ∃ n, ((accrueFully height fuel).run serve w).1 = walkAll w (.replicate n (.accrue height))
      ∧ CaughtUp height (walkAll w (.replicate n (.accrue height))) := by
  induction fuel generalizing w with
  | zero => cases ended
  | succ fuel ih =>
      simp only [accrueFully, run_bind, run_ite] at ended ⊢
      split
      · rename_i done
        have walked := always_serve (w := w) (accrueWalk_walked w.rows height maxAccrualDays
          userRetireBudget (.inl word))
        exact ⟨1, rfl, walked.caught done⟩
      · rename_i going
        rw [if_neg going] at ended
        obtain ⟨n, same, caught⟩ := ih ended
        exact ⟨n + 1, same, caught⟩

-----------------------------------------------------------------------------------------
-- A failing token stops the walk
-----------------------------------------------------------------------------------------

/-- A failing token mints nothing, and the walk's emission with it. -/
theorem issueEmission_refused {w : World A} {t : MemToken} (token : w.store.token = some t)
    (fails : t.fail = true) {v : Walk} (positive : 0 < v.totalEmitted)
    : (issueEmission v).run serve w = (w, false) := by
  have refused : w.store.mintSupply .emitted v.totalEmitted = (w.store, false) := by
    unfold Store.mintSupply
    rw [if_neg (by omega), if_neg (by omega), token]
    split
    · rfl
    · simp only [MemToken.mint, fails, true_or, if_true]
  have called : (mintSupply .emitted v.totalEmitted).run serve w
      = ({ w with store := (w.store.mintSupply .emitted v.totalEmitted).1 },
        (w.store.mintSupply .emitted v.totalEmitted).2) := rfl
  unfold issueEmission
  rw [if_pos positive, run_bind, called, refused]
  rfl

/-- A walk that closes a day with a reward emits. -/
theorem Walk.Along.emits {r : Rows} {v : Walk} (along : v.Along r)
    (reward : perHeight (accruedDays r / 1095) ≠ 0) (moved : accruedDays r < v.day)
    : 0 < v.totalEmitted := by
  have emitted := along.emitted
  have first := issuedAfter_day (accruedDays r)
  have later := issuedAfter_day_mono (Nat.succ_le_of_lt moved)
  have issued : 0 < heightsPerDay * perHeight (accruedDays r / 1095) :=
    Nat.mul_pos (by decide) (Nat.pos_of_ne_zero reward)
  rw [Nat.succ_eq_add_one] at later
  omega

/-- (Stuck w w') says that `w'` is no further than `w`, and that its token still fails. -/
structure Stuck (w w' : World A) : Prop where
  settled : Settled w'.rows
  fails : ¬ w'.store.Walkable
  day : accruedDays w'.rows = accruedDays w.rows
  genesis : genesisHeight w'.rows = genesisHeight w.rows

/-- A call that is refused its emission does not move; by cases on whether it has emission. -/
theorem WalkCall.run_stuck {w : World A} (call : WalkCall) (settled : Settled w.rows)
    (fails : ¬ w.store.Walkable) (word : call.toHeight < 2 ^ 64)
    : Stuck w (call.program.run serve w).1 := by
  rw [call.program_eq]
  have kept := (always_serve (w := w) (accrueWalk_walked w.rows call.toHeight call.maxDays
    call.budget (.inl word))).steady
  have settled' : Settled ((accrueWalk call.toHeight call.maxDays call.budget).run serve w).1.rows :=
    ⟨kept.evolves.calendar settled.calendar, kept.migration.books ▸ settled.words,
      kept.evolves.chunks settled.chunks⟩
  have genesis := kept.evolves.genesis
  suffices same : ((accrueWalk call.toHeight call.maxDays call.budget).run serve w).1.store.token
        = w.store.token
      ∧ accruedDays ((accrueWalk call.toHeight call.maxDays call.budget).run serve w).1.rows
        = accruedDays w.rows by
    exact ⟨settled', fun walkable => fails (walkable.congr same.1.symm same.2.symm), same.2, genesis⟩
  by_cases arrived : dayOf w.rows call.toHeight ≤ accruedDays w.rows
  · rw [accrueWalk_idle arrived]
    exact ⟨rfl, rfl⟩
  obtain ⟨along, _⟩ := callWalk_along word (not_le.mp arrived) call.maxDays call.budget
  obtain ⟨t, token, failing⟩ : ∃ t, w.store.token = some t ∧ t.fail = true := by
    by_contra none_fails
    push Not at none_fails
    exact fails (.inl fun t token => eq_false_of_ne_true (none_fails t token))
  have reward : perHeight (accruedDays w.rows / 1095) ≠ 0 := fun none_left => fails (.inr none_left)
  by_cases issued : 0 < (callWalk w.rows call.toHeight call.maxDays call.budget).totalEmitted
  · have refused := issueEmission_refused (w := { w with store := { w.store with
      rows := (callWalk w.rows call.toHeight call.maxDays call.budget).rows } }) token failing issued
    rw [accrueWalk_run, if_neg arrived]
    simp only [refused]
    exact ⟨rfl, along.aside.accruedDays⟩
  · rw [accrueWalk_books w call.maxDays call.budget settled word (not_le.mp arrived)
      (.inl (not_lt.mp issued))]
    refine ⟨?_, ?_⟩
    · have unissued (t : MemToken)
          : t.issue (callWalk w.rows call.toHeight call.maxDays call.budget).totalEmitted = t :=
        if_neg issued
      simp only [Store.book, unissued, Option.map_id']
    · have still := mt (along.emits reward) issued
      have ahead := along.day_le
      exact le_antisymm (not_lt.mp still) ahead

/-- Neither does a sequence of calls, by induction on it. -/
theorem walkAll_stuck {w : World A} {height : Nat} (settled : Settled w.rows)
    (fails : ¬ w.store.Walkable) (word : height < 2 ^ 64) {calls : List WalkCall}
    (within : ∀ call ∈ calls, call.toHeight ≤ height)
    : Stuck w (walkAll w calls) := by
  induction calls generalizing w with
  | nil => exact ⟨settled, fails, rfl, rfl⟩
  | cons call rest ih =>
      have first := call.run_stuck settled fails ((within call (.head _)).trans_lt word)
      have later := ih first.settled first.fails fun c there => within c (.tail _ there)
      exact ⟨later.settled, later.fails, later.day.trans first.day,
        later.genesis.trans first.genesis⟩

/-- Calls from a world that has caught up leave it alone, by induction on them. -/
theorem walkAll_idle {w : World A} {height : Nat} (arrived : CaughtUp height w)
    {calls : List WalkCall} (within : ∀ call ∈ calls, call.toHeight ≤ height)
    : walkAll w calls = w := by
  induction calls with
  | nil => rfl
  | cons call rest ih =>
      have idle : call.program.run serve w = (w, true) := by
        rw [call.program_eq]
        exact accrueWalk_idle ((dayOf_mono w.rows (within call (.head _))).trans arrived) _ _
      rw [walkAll, List.foldl_cons, idle]
      exact ih fun c there => within c (.tail _ there)

-----------------------------------------------------------------------------------------
-- Path independence
-----------------------------------------------------------------------------------------

/-- Every world that requests reach from `Init` is settled, by induction on the requests. -/
theorem after_settled {w : World A} (settled : Settled w.rows) (requests : List Request)
    : Settled (after w requests).rows := by
  induction requests generalizing w with
  | nil => exact settled
  | cons q rest ih => exact ih (Request.exec_settled settled)

/-- From any world reached from `Init`, on any ledger, calls of the walk at heights up to
`height` that have caught up leave the world that `AccrueFully` ends in; and it does end.
-/
theorem accrual_path_independent (store : Store) (assets : A) (genesis : UInt64)
    (requests : List Request) (height : Nat) (calls : List WalkCall)
    (fresh : store.rows = .empty) (word : height < 2 ^ 64)
    (within : ∀ call ∈ calls, call.toHeight ≤ height)
    (caught : CaughtUp height (walkAll (after (initialised store assets genesis) requests) calls))
    : ∃ enough, ∀ fuel ≥ enough,
      (accrueFully height fuel).run serve (after (initialised store assets genesis) requests)
        = (walkAll (after (initialised store assets genesis) requests) calls, some ()) := by
  have settled := after_settled (initialised_settled store assets genesis fresh) requests
  generalize after (initialised store assets genesis) requests = w at caught settled ⊢
  by_cases walkable : w.store.Walkable
  · obtain ⟨enough, ended⟩ := accrueFully_ends settled walkable word
    obtain ⟨n, same, arrived⟩ := accrueFully_calls word ended
    refine ⟨enough, fun fuel le => ?_⟩
    obtain ⟨more, rfl⟩ := Nat.exists_eq_add_of_le le
    have repeated : ∀ call ∈ List.replicate n (WalkCall.accrue height), call.toHeight ≤ height :=
      fun call there => (List.eq_of_mem_replicate there ▸ le_rfl)
    rw [accrueFully_fuel ended, walkAll_caughtUp settled walkable word within caught]
    exact Prod.ext
      (same.trans (walkAll_caughtUp settled walkable word repeated arrived)) ended
  · have stuck := walkAll_stuck settled walkable word within
    have arrived : CaughtUp height w := by
      unfold CaughtUp dayOf at caught ⊢
      rwa [stuck.day, stuck.genesis] at caught
    refine ⟨1, fun fuel le => ?_⟩
    obtain ⟨more, rfl⟩ := Nat.exists_eq_add_of_le' le
    have idle : (accrue height).run serve w = (w, true) := accrueWalk_idle arrived _ _
    rw [walkAll_idle arrived within, accrueFully, run_bind, idle]
    rfl

end Worlds

/-- Two mints of one account mature while three slices walk three days, on a token. -/
theorem accrual_path_independent_three_slices
    : let w := after (initialised (Store.newMemToken "contract:self") MemAssets.new 1)
        [⟨{ sender := "hive:owner", height := 1 }, .creditMigration "hive:a" 500000000 0, false⟩,
          ⟨{ sender := "hive:a", height := 2 }, .createMint 100000000 1, false⟩,
          ⟨{ sender := "hive:a", height := 2 }, .createMint 100000000 2, false⟩]
      ∃ enough, ∀ fuel ≥ enough, (accrueFully 86402 fuel).run serve w
        = (walkAll w [.accrueSteps 57601 1, .accrue 86402, .accrueSteps 86402 5], some ()) :=
  accrual_path_independent (Store.newMemToken "contract:self") MemAssets.new 1 _ 86402 _ rfl
    (by decide) (by decide) (by decide +kernel)

end LasseCash.State
