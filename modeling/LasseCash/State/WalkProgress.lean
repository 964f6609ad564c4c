import LasseCash.State.PathIndependence
import Mathlib.Algebra.BigOperators.Intervals

/-! No call of the walk is in vain: one that does not catch up has closed a day or drained a chunk,
and what a budget buys is counted in chunks.
-/

namespace LasseCash.State

open Engine MachineInt Program

-----------------------------------------------------------------------------------------
-- What a drain changes
-----------------------------------------------------------------------------------------

/-- The chunks of a day's list that the walk has yet to pass. -/
def chunksAhead (r : Rows) (day : Nat) : Nat :=
  r.getU64 (.explCount day) - r.getU64 (.explCursor day)

/-- (Drained day r r') says that `r'` has chunks of `r` only, and lists the other days as `r` does.
-/
structure Drained (day : Nat) (r r' : Rows) : Prop where
  chunks : ∀ key entries, r'.expiry key = some entries → r.expiry key = some entries
  others : ∀ other ≠ day, chunksAhead r' other = chunksAhead r other

namespace Drained

variable {day : Nat} {r r' r'' : Rows}

theorem refl (r : Rows) : Drained day r r := ⟨fun _ _ there => there, fun _ _ => rfl⟩

theorem trans (first : Drained day r r') (second : Drained day r' r'') : Drained day r r'' where
  chunks key entries there := first.chunks key entries (second.chunks key entries there)
  others other distinct := (second.others other distinct).trans (first.others other distinct)

theorem small (drained : Drained day r r') (small : SmallChunks r) : SmallChunks r' :=
  fun key entries there => small key entries (drained.chunks key entries there)

/-- What is gone stays gone. -/
theorem none (drained : Drained day r r') {key : Nat × Nat} (gone : r.expiry key = none)
    : r'.expiry key = none := by
  cases there : r'.expiry key with
  | none => rfl
  | some entries => exact absurd (drained.chunks key entries there) (by rw [gone]; nofun)

end Drained

theorem retireEntries_expiry (r : Rows) (entries : List ExpiryEntry)
    : (entries.foldl retireEntry r).expiry = r.expiry := by
  induction entries generalizing r with
  | nil => rfl
  | cons entry rest ih =>
      rw [List.foldl_cons, ih]
      unfold retireEntry
      split <;> rfl

/-- Retiring a chunk and deleting it. -/
theorem drained_retired (r : Rows) (day cur : Nat) (entries : List ExpiryEntry)
    : Drained day r ((entries.foldl retireEntry r).setExpiry day cur none) where
  chunks key kept there := by
    rw [Rows.setExpiry_expiry, retireEntries_expiry] at there
    by_cases same : key = (day, cur)
    · rw [same] at there
      simp at there
    · simpa [same] using there
  others other _ := by
    simp only [chunksAhead, Rows.getU64, Rows.setExpiry_count, retireEntries_count]

/-- The chunk loop, by induction on the chunks to go. -/
theorem drainChunks_drained (day togo cur budget : Nat) (r : Rows)
    : Drained day r (drainChunks day togo cur r budget).1 := by
  induction togo generalizing cur r budget with
  | zero =>
      refine ⟨fun _ _ there => there, fun other distinct => ?_⟩
      simp [drainChunks, chunksAhead, distinct]
  | succ togo ih =>
      unfold drainChunks
      split
      · exact ih _ _ _
      · split
        · refine ⟨fun _ _ there => there, fun other distinct => ?_⟩
          simp [chunksAhead, distinct]
        · exact (drained_retired r day cur _).trans (ih _ _ _)

theorem drainExpiryList_drained (r : Rows) (day budget : Nat)
    : Drained day r (drainExpiryList r day budget).1 := by
  unfold drainExpiryList
  dsimp only
  split
  · exact .refl r
  · exact drainChunks_drained day _ _ budget r

-----------------------------------------------------------------------------------------
-- What a budget buys
-----------------------------------------------------------------------------------------

/-- (Spends size before after ahead left) says that a budget went from `before` to `after` on the
chunks, of at most `size` entries each, by which `ahead` exceeds `left`.
-/
def Spends (size before after ahead left : Nat) : Prop :=
  left ≤ ahead ∧ before + size * left ≤ after + size * ahead

/-- What the chunk loop spends, by induction on the chunks to go: it stops only when its budget is
short of a chunk.
-/
theorem drainChunks_spends (day togo cur budget : Nat) {r : Rows} (small : SmallChunks r)
    : let out := drainChunks day togo cur r budget
      (out.2.2 = true → budget ≤ out.2.1 + expiryChunkSize * togo)
      ∧ (out.2.2 = false → out.2.1 < expiryChunkSize
        ∧ budget ≤ out.2.1 + expiryChunkSize * (out.1.getU64 (.explCursor day) - cur)) := by
  induction togo generalizing cur r budget with
  | zero => exact ⟨fun _ => by simp [drainChunks], fun stopped => by simp [drainChunks] at stopped⟩
  | succ togo ih =>
      unfold drainChunks
      cases there : r.expiry (day, cur) with
      | none =>
          obtain ⟨done, stops⟩ := ih (cur + 1) budget small
          refine ⟨fun ended => (done ended).trans ?_, fun stopped => ?_⟩
          · exact Nat.add_le_add_left (Nat.mul_le_mul_left _ (Nat.le_succ togo)) _
          · obtain ⟨short, spent⟩ := stops stopped
            refine ⟨short, spent.trans ?_⟩
            exact Nat.add_le_add_left (Nat.mul_le_mul_left _ (Nat.sub_le_sub_left
              (Nat.le_succ cur) _)) _
      | some entries =>
          have size := small _ entries there
          dsimp only
          split
          · rename_i short
            exact ⟨of_refused, fun _ => ⟨short.trans_le size, Nat.le_add_right _ _⟩⟩
          · rename_i enough
            have small' := (drained_retired r day cur entries).small small
            obtain ⟨done, stops⟩ := ih (cur + 1) (budget - entries.length) small'
            refine ⟨fun ended => ?_, fun stopped => ?_⟩
            · have spent := done ended
              rw [Nat.mul_succ]
              omega
            · obtain ⟨short, spent⟩ := stops stopped
              have past := (drainChunks_stopped stopped).1
              refine ⟨short, ?_⟩
              obtain ⟨more, same⟩ := Nat.exists_eq_add_of_le past
              rw [same] at spent ⊢
              rw [Nat.add_sub_cancel_left] at spent
              rw [show cur + 1 + more - cur = more + 1 by omega, Nat.mul_succ]
              omega

/-- A drain spends its budget on the day's chunks, and keeps going until it is short of one. -/
theorem drainExpiryList_spends {r : Rows} (day budget : Nat) (small : SmallChunks r)
    : let out := drainExpiryList r day budget
      (out.2.2 = true → budget ≤ out.2.1 + expiryChunkSize * chunksAhead r day)
      ∧ (out.2.2 = false → out.2.1 < expiryChunkSize ∧ 0 < chunksAhead out.1 day
        ∧ Spends expiryChunkSize budget out.2.1 (chunksAhead r day) (chunksAhead out.1 day)) := by
  unfold drainExpiryList
  dsimp only
  split
  · exact ⟨fun _ => Nat.le_add_right _ _, nofun⟩
  have spends := drainChunks_spends day (chunksAhead r day) (r.getU64 (.explCursor day)) budget small
  have stops := @drainChunks_stopped day (chunksAhead r day) (r.getU64 (.explCursor day)) budget r
  rw [← chunksAhead]
  generalize drainChunks day (chunksAhead r day) (r.getU64 (.explCursor day)) r budget = out
    at spends stops ⊢
  refine ⟨spends.1, fun stopped => ?_⟩
  obtain ⟨short, spent⟩ := spends.2 stopped
  obtain ⟨past, within, count, -⟩ := stops stopped
  obtain ⟨more, cursor⟩ := Nat.exists_eq_add_of_le past
  have left : chunksAhead out.1 day + more = chunksAhead r day := by
    unfold chunksAhead at within ⊢
    omega
  rw [cursor, Nat.add_sub_cancel_left] at spent
  refine ⟨short, by omega, by omega, ?_⟩
  rw [← left, Nat.mul_add]
  omega

/-- A drain that stops although its budget was enough for a chunk has deleted one, by induction on
the chunks to go.
-/
theorem drainChunks_deletes {day togo cur budget : Nat} {r : Rows} (small : SmallChunks r)
    (enough : expiryChunkSize ≤ budget)
    (stopped : (drainChunks day togo cur r budget).2.2 = false)
    : ∃ n, (r.expiry (day, n)).isSome
      ∧ (drainChunks day togo cur r budget).1.expiry (day, n) = none := by
  induction togo generalizing cur with
  | zero => simp [drainChunks] at stopped
  | succ togo ih =>
      unfold drainChunks at stopped ⊢
      cases there : r.expiry (day, cur) with
      | none =>
          simp only [there] at stopped
          exact ih stopped
      | some entries =>
          have fits : ¬budget < entries.length := (small _ entries there).trans enough |>.not_gt
          refine ⟨cur, by rw [there]; rfl, ?_⟩
          dsimp only
          rw [if_neg fits]
          exact (drainChunks_drained day _ _ _ _).none (by simp)

/-- The chunks of the days from `first` on, up to `last`, that the walk has yet to pass. -/
def work (r : Rows) (first last : Nat) : Nat := ∑ day ∈ Finset.Ico first last, chunksAhead r day

theorem work_succ (r : Rows) {first last : Nat} (before : first < last)
    : work r first last = chunksAhead r first + work r (first + 1) last :=
  Finset.sum_eq_sum_Ico_succ_bot before _

theorem Drained.work {day : Nat} {r r' : Rows} (drained : Drained day r r') (last : Nat)
    : State.work r' (day + 1) last = State.work r (day + 1) last := by
  refine Finset.sum_congr rfl fun other there => drained.others other ?_
  have later := (Finset.mem_Ico.mp there).1
  omega

theorem Walk.closeDay_expiry (sc : EmissionSchedule) (w : Walk)
    : (w.closeDay sc).rows.expiry = w.rows.expiry
      ∧ ∀ day, chunksAhead (w.closeDay sc).rows day = chunksAhead w.rows day := by
  unfold closeDay emit distribute expire
  dsimp only
  constructor
  · repeat' split
    all_goals rfl
  · intro day
    repeat' split
    all_goals simp [chunksAhead]

/-- What a walk spends: it closes all its days, or stops short of a chunk's budget with chunks
still to pass; by induction on the days.
-/
theorem Walk.days_spends (sc : EmissionSchedule) (togo : Nat) {w : Walk}
    (small : SmallChunks w.rows)
    : let v := Walk.days sc togo w
      v.day = w.day + togo
      ∨ v.budget < expiryChunkSize ∧ 0 < work v.rows v.day (w.day + togo)
        ∧ Spends expiryChunkSize w.budget v.budget (work w.rows w.day (w.day + togo))
          (work v.rows v.day (w.day + togo)) := by
  induction togo generalizing w with
  | zero => exact .inl rfl
  | succ togo ih =>
      have spends := drainExpiryList_spends w.day w.budget small
      have drained := drainExpiryList_drained w.rows w.day w.budget
      have ahead := work_succ w.rows (show w.day < w.day + (togo + 1) by omega)
      unfold Walk.days
      split
      · rename_i rows budget stopped
        rw [stopped] at spends drained
        obtain ⟨short, left, fewer, spent⟩ := spends.2 rfl
        have ahead' := work_succ rows (show w.day < w.day + (togo + 1) by omega)
        rw [drained.work] at ahead'
        dsimp only at short left fewer spent ⊢
        refine .inr ⟨short, by omega, by omega, ?_⟩
        rw [ahead, ahead', Nat.mul_add, Nat.mul_add]
        omega
      · rename_i rows budget done
        rw [done] at spends drained
        have spent := spends.1 rfl
        dsimp only at spent
        obtain ⟨chunks, listed⟩ := closeDay_expiry sc { w with rows, budget }
        have day := closeDay_day sc { w with rows, budget }
        have spendable := congrArg Walk.budget (closeDay_budget sc { w with rows } budget)
        dsimp only at chunks listed day spendable
        generalize ({ w with rows, budget } : Walk).closeDay sc = u at *
        have small' : SmallChunks u.rows := by
          unfold SmallChunks
          rw [chunks]
          exact drained.small small
        have kept : work u.rows (w.day + 1) (w.day + (togo + 1))
            = work w.rows (w.day + 1) (w.day + (togo + 1)) := by
          rw [← drained.work]
          exact Finset.sum_congr rfl fun day _ => listed day
        have later := ih small'
        rw [day, spendable, Nat.add_assoc, Nat.add_comm 1 togo] at later
        rcases later with all | ⟨short, left, fewer, spent'⟩
        · exact .inl all
        · rw [kept] at fewer spent'
          refine .inr ⟨short, left, by omega, ?_⟩
          rw [ahead, Nat.mul_add]
          omega

-----------------------------------------------------------------------------------------
-- Every call that stops early
-----------------------------------------------------------------------------------------

/-- (Progress r r') says that a day has been closed, or that some chunk of the day was drained and
fewer are ahead.
-/
def Progress (r r' : Rows) : Prop :=
  accruedDays r < accruedDays r'
    ∨ accruedDays r' = accruedDays r ∧ chunksLeft r' < chunksLeft r
      ∧ ∃ n, (r.expiry (accruedDays r, n)).isSome ∧ r'.expiry (accruedDays r, n) = none

/-- A walk that does not close its first day has deleted a chunk of it. -/
theorem Walk.days_deletes (sc : EmissionSchedule) {togo : Nat} {w : Walk}
    (small : SmallChunks w.rows) (enough : expiryChunkSize ≤ w.budget) (positive : 0 < togo)
    (still : (Walk.days sc togo w).day = w.day)
    : ∃ n, (w.rows.expiry (w.day, n)).isSome
      ∧ (Walk.days sc togo w).rows.expiry (w.day, n) = none := by
  obtain ⟨togo, rfl⟩ : ∃ n, togo = n + 1 := ⟨togo - 1, by omega⟩
  unfold Walk.days at still ⊢
  have passed (v : Walk) := Walk.days_resume sc togo (v.closeDay sc)
  split at still
  · rename_i rows budget stopped
    dsimp only
    unfold drainExpiryList at stopped
    dsimp only at stopped
    split at stopped
    · cases stopped
    · have deleted := drainChunks_deletes small enough (congrArg (·.2.2) stopped)
      rw [stopped] at deleted
      exact deleted
  · rename_i rows budget done
    obtain ⟨more, -, day, -⟩ := passed { w with rows, budget }
    rw [closeDay_day] at day
    dsimp only at day
    omega

section Worlds

variable {A : Type} [Assets A]

/-- A call of the walk that has not caught up has made progress. -/
theorem WalkCall.run_progress {w : World A} (call : WalkCall) (settled : Settled w.rows)
    (walkable : w.store.Walkable) (word : call.toHeight < 2 ^ 64)
    (stopped : (call.program.run serve w).2 = false)
    : Progress w.rows (call.program.run serve w).1.rows := by
  rw [call.program_eq] at stopped ⊢
  have behind : accruedDays w.rows < dayOf w.rows call.toHeight := by
    by_contra arrived
    rw [accrueWalk_idle (not_lt.mp arrived)] at stopped
    cases stopped
  obtain ⟨along, -⟩ := callWalk_along word behind call.maxDays call.budget
  rw [accrueWalk_books w call.maxDays call.budget settled word behind (walkable.issues along)]
  have allowed : 0 < min (daysAllowed call.maxDays)
      (dayOf w.rows call.toHeight - accruedDays w.rows) := by
    refine lt_min ?_ (Nat.sub_pos_of_lt behind)
    unfold daysAllowed
    split
    · decide
    · omega
  have enough : expiryChunkSize ≤ (Walk.start w.rows call.budget).budget := by
    cases call
    · exact le_rfl
    · exact (by decide : expiryChunkSize ≤ maxRetirePerWalk)
  have progress := Walk.days_progress (schedule w.rows) allowed settled.chunks enough
  have deletes := Walk.days_deletes (schedule w.rows) settled.chunks enough allowed
  rw [← callWalk] at progress deletes
  generalize callWalk w.rows call.toHeight call.maxDays call.budget = v at progress deletes ⊢
  refine progress.imp id fun ⟨same, fewer⟩ => ⟨same, ?_, deletes same⟩
  rw [← same] at fewer
  change v.rows.getU64 (.explCount v.day) - v.rows.getU64 (.explCursor v.day) < _
  exact fewer.trans_eq (by rw [same]; rfl)

/-- Calls of `advance` of any lengths catch up, as every one of them makes progress. -/
theorem advances_end {w : World A} {height : Nat} (settled : Settled w.rows)
    (walkable : w.store.Walkable) (word : height < 2 ^ 64) (caps : Nat → Int)
    : ∃ n, CaughtUp height (walkAll w ((List.range n).map fun i => .accrueSteps height (caps i))) := by
  have kept := (WalkCall.accrueSteps height (caps 0)).run_keeps settled walkable word le_rfl
  have target := kept.target
  cases done : ((WalkCall.accrueSteps height (caps 0)).program.run serve w).2 with
  | true =>
      have walked := always_serve (w := w) (accrueWalk_walked w.rows height (caps 0)
        maxRetirePerWalk (.inl word))
      exact ⟨1, walked.caught done⟩
  | false =>
      have behind : accruedDays w.rows < dayOf w.rows height := by
        by_contra arrived
        have idle := accrueWalk_idle (not_lt.mp arrived) (caps 0) maxRetirePerWalk
        rw [WalkCall.program, accrueSteps, idle] at done
        cases done
      have progress := (WalkCall.accrueSteps height (caps 0)).run_progress settled walkable word done
      obtain ⟨n, caught⟩ := advances_end kept.settled kept.walkable word fun i => caps (i + 1)
      refine ⟨n + 1, ?_⟩
      rw [List.range_succ_eq_map, List.map_cons, List.map_map]
      exact caught
termination_by (dayOf w.rows height - accruedDays w.rows, chunksLeft w.rows)
decreasing_by
  rw [target]
  rcases progress with closed | ⟨same, fewer, -⟩
  · exact Prod.Lex.left _ _ (by omega)
  · rw [same]
    exact Prod.Lex.right _ fewer

/-- A call of `advance` that no cap on its days stops passes two chunks, or catches up. -/
theorem accrueSteps_spends {w : World A} {height : Nat} (settled : Settled w.rows)
    (walkable : w.store.Walkable) (word : height < 2 ^ 64)
    (near : dayOf w.rows height ≤ accruedDays w.rows + maxAccrualDays)
    (stopped : ((accrueSteps height 0).run serve w).2 = false)
    : let r' := ((accrueSteps height 0).run serve w).1.rows
      accruedDays w.rows ≤ accruedDays r' ∧ 0 < work r' (accruedDays r') (dayOf w.rows height)
        ∧ work r' (accruedDays r') (dayOf w.rows height) + 2
          ≤ work w.rows (accruedDays w.rows) (dayOf w.rows height) := by
  have behind : accruedDays w.rows < dayOf w.rows height := by
    by_contra arrived
    rw [accrueSteps, accrueWalk_idle (not_lt.mp arrived)] at stopped
    cases stopped
  obtain ⟨along, -⟩ := callWalk_along word behind 0 maxRetirePerWalk
  rw [accrueSteps, accrueWalk_books w 0 maxRetirePerWalk settled word behind
    (walkable.issues along)] at stopped ⊢
  have togo : min (daysAllowed 0) (dayOf w.rows height - accruedDays w.rows)
      = dayOf w.rows height - accruedDays w.rows := by
    have allowed : daysAllowed 0 = maxAccrualDays := rfl
    omega
  have spends := Walk.days_spends (schedule w.rows) (dayOf w.rows height - accruedDays w.rows)
    (w := .start w.rows maxRetirePerWalk) settled.chunks
  rw [← togo, ← callWalk] at spends
  have last : (Walk.start w.rows maxRetirePerWalk).day
      + min (daysAllowed 0) (dayOf w.rows height - accruedDays w.rows) = dayOf w.rows height := by
    change accruedDays w.rows + _ = _
    omega
  rw [last] at spends
  have ahead := along.day_le
  generalize callWalk w.rows height 0 maxRetirePerWalk = v at stopped spends ahead ⊢
  rcases spends with all | ⟨short, left, fewer, spent⟩
  · have there : dayOf w.rows height ≤ v.day := all.ge
    simp [there] at stopped
  · refine ⟨ahead, left, ?_⟩
    change work v.rows v.day _ + 2 ≤ _
    have budget : (Walk.start w.rows maxRetirePerWalk).budget = 50 := rfl
    have size : expiryChunkSize = 25 := rfl
    rw [budget, size] at spent
    rw [size] at short
    change _ ≤ work w.rows (accruedDays w.rows) _ at fewer
    change _ ≤ _ + 25 * work w.rows (accruedDays w.rows) _ at spent
    omega

/-- Two chunks a call: enough calls for all the chunks ahead, and one more, catch up; by induction
on the calls.
-/
theorem advances_enough {w : World A} {height : Nat} (settled : Settled w.rows)
    (walkable : w.store.Walkable) (word : height < 2 ^ 64)
    (near : dayOf w.rows height ≤ accruedDays w.rows + maxAccrualDays) {n : Nat}
    (covers : work w.rows (accruedDays w.rows) (dayOf w.rows height) ≤ 2 * n)
    : CaughtUp height (walkAll w (.replicate (n + 1) (.accrueSteps height 0))) := by
  induction n generalizing w with
  | zero =>
      cases done : ((accrueSteps height 0).run serve w).2 with
      | true =>
          have walked := always_serve (w := w) (accrueWalk_walked w.rows height 0
            maxRetirePerWalk (.inl word))
          exact walked.caught done
      | false =>
          obtain ⟨-, left, fewer⟩ := accrueSteps_spends settled walkable word near done
          omega
  | succ n ih =>
      have kept := (WalkCall.accrueSteps height 0).run_keeps settled walkable word le_rfl
      have target := kept.target
      rw [List.replicate_succ]
      cases done : ((accrueSteps height 0).run serve w).2 with
      | true =>
          have walked := always_serve (w := w) (accrueWalk_walked w.rows height 0
            maxRetirePerWalk (.inl word))
          have arrived : CaughtUp height ((accrueSteps height 0).run serve w).1 := walked.caught done
          have within : ∀ call ∈ List.replicate (n + 1) (WalkCall.accrueSteps height 0),
              call.toHeight ≤ height :=
            fun call there => List.eq_of_mem_replicate there ▸ le_rfl
          have idle := walkAll_idle arrived within
          rw [walkAll, List.foldl_cons, ← walkAll]
          change CaughtUp height (walkAll ((accrueSteps height 0).run serve w).1 _)
          rw [idle]
          exact arrived
      | false =>
          obtain ⟨ahead, left, fewer⟩ := accrueSteps_spends settled walkable word near done
          refine ih kept.settled kept.walkable ?_ ?_
          · rw [target]
            exact near.trans (Nat.add_le_add_right ahead _)
          · rw [target]
            change work ((accrueSteps height 0).run serve w).1.rows _ _ ≤ _
            change work _ (accruedDays ((accrueSteps height 0).run serve w).1.rows) _ ≤ _
            omega

/-- From every world reached from `Init`, on a token that works, a call of the walk that does not
catch up has closed a day or drained a chunk; `AccrueFully` ends, and calls of `advance` catch up.
-/
theorem walk_cannot_wedge (store : Store) (assets : A) (genesis : UInt64)
    (requests : List Request) (height : Nat)
    (fresh : store.rows = .empty) (word : height < 2 ^ 64)
    (works : (after (initialised store assets genesis) requests).Reliable)
    : let w := after (initialised store assets genesis) requests
      (∀ call : WalkCall, call.toHeight = height → (call.program.run serve w).2 = false
        → Progress w.rows (call.program.run serve w).1.rows)
      ∧ (∃ enough, ∀ fuel ≥ enough, ((accrueFully height fuel).run serve w).2 = some ()
        ∧ CaughtUp height ((accrueFully height fuel).run serve w).1)
      ∧ ∀ caps : Nat → Int, ∃ n,
        CaughtUp height (walkAll w ((List.range n).map fun i => .accrueSteps height (caps i))) := by
  have settled := after_settled (initialised_settled store assets genesis fresh) requests
  have walkable : (after (initialised store assets genesis) requests).store.Walkable := .inl works
  generalize after (initialised store assets genesis) requests = w at settled walkable
  refine ⟨fun call same stopped => ?_, ?_, advances_end settled walkable word⟩
  · exact call.run_progress settled walkable (same ▸ word) stopped
  · obtain ⟨enough, ended⟩ := accrueFully_ends settled walkable word
    refine ⟨enough, fun fuel le => ?_⟩
    obtain ⟨more, rfl⟩ := Nat.exists_eq_add_of_le le
    obtain ⟨n, same, caught⟩ := accrueFully_calls word ended
    rw [accrueFully_fuel ended, same]
    exact ⟨ended, caught⟩

end Worlds

/-- Two mints of one account, one of them ended early, and three days to walk. -/
theorem walk_after_early_end
    : let w := after (initialised (Store.newMemToken "contract:self") MemAssets.new 1)
        [⟨{ sender := "hive:owner", height := 1 }, .creditMigration "hive:a" 500000000 0, false⟩,
          ⟨{ sender := "hive:a", height := 2 }, .createMint 100000000 1, false⟩,
          ⟨{ sender := "hive:a", height := 2 }, .createMint 100000000 2, false⟩,
          ⟨{ sender := "hive:a", height := 3 }, .claimMint 1, false⟩]
      ∃ n, CaughtUp 86402 (walkAll w ((List.range n).map fun _ => .accrueSteps 86402 1)) :=
  (walk_cannot_wedge (Store.newMemToken "contract:self") MemAssets.new 1 _ 86402 rfl (by decide)
    (fun t token => by
      have there := congrArg (Option.map (·.fail)) token
      exact Option.some.inj (there.symm.trans (by decide +kernel)))).2.2 fun _ => 1

end LasseCash.State
