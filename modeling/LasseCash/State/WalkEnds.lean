import LasseCash.State.Booking
import LasseCash.State.Reachable

/-! Every way of walking to a height ends in the same store. A store determines where its walk
to a day ends, whether or not the walk stops and books in between; a call moves the store along
but never changes that end, so a store that has arrived is the end itself.
-/

namespace LasseCash.State

open Engine MachineInt Function Program

-----------------------------------------------------------------------------------------
-- Full days stay on the schedule
-----------------------------------------------------------------------------------------

theorem Aside.fullChunks {r r₁ : Rows} (h : Aside r r₁) (day togo cur : Nat)
    : Aside r (fullChunks day togo cur r₁) := by
  induction togo generalizing cur r₁ with
  | zero => exact (h.deleteU64 (.explCount day) rfl).deleteU64 (.explCursor day) rfl
  | succ togo ih =>
      unfold State.fullChunks
      split
      · exact ih h _
      · exact ih (((Aside.drainKeeps r day).retireEntries h _).setExpiry day cur none nofun) _

theorem Aside.fullDrain {r r₁ : Rows} (h : Aside r r₁) (day : Nat) : Aside r (fullDrain r₁ day) := by
  unfold State.fullDrain
  dsimp only
  split
  · exact h
  · exact h.fullChunks day _ _

/-- Days without a budget stay on the schedule, by induction on the days. -/
theorem Walk.Along.fullDays {r : Rows} {w : Walk} (h : w.Along r) (togo : Nat)
    (word : genesisHeight r + (w.day + togo) * heightsPerDay < 2 ^ 64)
    : (w.fullDays (schedule r) togo).Along r ∧ (w.fullDays (schedule r) togo).day = w.day + togo := by
  induction togo generalizing w with
  | zero => exact ⟨h, rfl⟩
  | succ togo ih =>
      have drained := h.drain _ w.budget ((Aside.refl w.rows).fullDrain w.day)
      have closed := drained.closeDay ((dayHeight_mono _ (by dsimp only; omega)).trans_lt word)
      have next := closeDay_day (schedule r) { w with rows := fullDrain w.rows w.day }
      dsimp only at next
      obtain ⟨along, days⟩ := ih closed ((dayHeight_mono _ (by omega)).trans_lt word)
      exact ⟨along, by unfold Walk.fullDays Walk.fullDay; omega⟩

/-- What a number of days issues is a multiple of a day's heights, by induction on the days. -/
theorem issuedAfter_dvd (days : Nat) : heightsPerDay ∣ issuedAfter (days * heightsPerDay) := by
  induction days with
  | zero => decide
  | succ days ih =>
      rw [issuedAfter_day]
      exact Nat.dvd_add ih (Nat.dvd_mul_right _ _)

/-- A walk's emission is non-negative, small, and splits without a remainder. -/
theorem Walk.Along.total {r : Rows} {w : Walk} (h : w.Along r)
    : 0 ≤ w.totalEmitted ∧ w.totalEmitted ≤ 2000000000000000 ∧ w.totalEmitted % 16 = 0
      ∧ w.lshareTotal = w.totalEmitted / 4 := by
  have emitted := h.emitted
  have quarter := h.lshare
  have cap := issuedAfter_le (w.day * heightsPerDay)
  have mono := issuedAfter_day_mono h.day_le
  have before := issuedAfter_dvd (accruedDays r)
  have after := issuedAfter_dvd w.day
  generalize issuedAfter (accruedDays r * heightsPerDay) = start at *
  generalize issuedAfter (w.day * heightsPerDay) = reached at *
  unfold heightsPerDay at before after
  omega

-----------------------------------------------------------------------------------------
-- Booking in between
-----------------------------------------------------------------------------------------

/-- Tokens created for an emission, if there is any. -/
def MemToken.issue (t : MemToken) (amount : Int) : MemToken :=
  if amount > 0 then
    { t with
      bal := update t.bal t.self (i64 (t.bal t.self + amount))
      supply := i64 (t.supply + amount) }
  else t

/-- The store that a finished walk leaves. -/
def Store.book (s : Store) (w : Walk) : Store :=
  { s with rows := w.booked w.rows, token := s.token.map (·.issue w.totalEmitted) }

/-- Issuing in two steps is issuing the sum. -/
theorem MemToken.issue_add (t : MemToken) {x y : Int} (hx : 0 ≤ x) (hy : 0 ≤ y)
    : (t.issue x).issue y = t.issue (x + y) := by
  unfold issue
  rcases hx.eq_or_lt with rfl | px
  · simp
  rcases hy.eq_or_lt with rfl | py
  · simp
  simp only [px, py, add_pos px py, if_true, update_self, i64_add_left, add_assoc,
    update_idem]

/-- The parts of a slice that splits without a remainder. -/
theorem split_exact {amount : Int} (lower : 0 ≤ amount) (upper : amount ≤ 2000000000000000)
    (even : amount % 16 = 0)
    : (splitPoB (split amount).proofOfBrain) = (amount / 8, 3 * (amount / 8))
      ∧ (split amount).liquidity = amount / 4 := by
  rw [split_of_nonneg lower (by omega), splitPoB_of_nonneg (by dsimp only; omega) (by dsimp only; omega)]
  dsimp only
  constructor
  · congr 1 <;> omega
  · rfl

/-- What is booked in two steps, by a walk that went on from the rows of the first booking, is
what the walk books that never stopped; by cases on the keys.
-/
theorem Walk.booked_twice {p : Rows} {w₁ w u : Walk} {r : Rows} (first : w₁.Along r)
    (last : w.Along r) (second : u.Along p) (base : p = w₁.booked w₁.rows)
    (step : Rebased p w u) (untouched : w.rows = overlay w₁.rows w.rows)
    (sum : w.totalEmitted = w₁.totalEmitted + u.totalEmitted)
    : u.booked u.rows = w.booked w.rows := by
  obtain ⟨n₁, b₁, e₁, l₁⟩ := first.total
  obtain ⟨n₂, b₂, e₂, l₂⟩ := second.total
  obtain ⟨n, b, e, l⟩ := last.total
  obtain ⟨pob₁, liq₁⟩ := split_exact n₁ b₁ e₁
  obtain ⟨pob₂, liq₂⟩ := split_exact n₂ b₂ e₂
  obtain ⟨pob, liq⟩ := split_exact n b e
  have amounts : u.bookedAmount u.rows.amount = w.bookedAmount w.rows.amount := by
    funext k
    have booked (hk : k.booked = true) : u.rows.amount k = w₁.bookedAmount w₁.rows.amount k := by
      rw [step.rows, base]
      simp [overlay, hk, Walk.booked]
    have before (hk : k.booked = true) : w.rows.amount k = w₁.rows.amount k := by
      rw [untouched]
      simp [overlay, hk]
    have free (hk : k.booked = false) : u.rows.amount k = w.rows.amount k := by
      rw [step.rows]
      simp [overlay, hk]
    cases k <;> simp only [Walk.bookedAmount, step.held, step.active] <;>
      first
        | exact free rfl
        | (rw [booked rfl, before rfl]
           simp only [Walk.bookedAmount, pob₁, pob₂, pob, liq₁, liq₂, liq, l₁, l₂, l]
           rw [credited_add _ (by omega) (by omega)]
           congr 1
           omega)
  have counts : u.bookedCount (genesisHeight u.rows) u.rows.count
      = w.bookedCount (genesisHeight w.rows) w.rows.count := by
    funext k
    have genesis : genesisHeight u.rows = genesisHeight w.rows := by
      rw [step.rows]
      exact overlay_getU64 p w.rows rfl
    rw [genesis, step.rows]
    cases k <;> simp [Walk.bookedCount, step.acc, step.day, overlay, CountKey.booked]
  unfold Walk.booked
  rw [amounts, counts, step.rows]
  rfl

/-- Booking a walk and walking on is walking on and booking once; witness: the walk from the
booked rows keeps step with the one that does not stop.
-/
theorem Store.book_twice (s : Store) {w : Walk} (along : w.Along s.rows) (togo budget : Nat)
    (word : genesisHeight s.rows + (w.day + togo) * heightsPerDay < 2 ^ 64)
    : (s.book w).book ((Walk.start (s.book w).rows budget).fullDays (schedule s.rows) togo)
      = s.book (w.fullDays (schedule s.rows) togo) := by
  have base : (s.book w).rows = w.booked w.rows := rfl
  generalize booked : (s.book w).rows = p at base ⊢
  have genesis : genesisHeight p = genesisHeight s.rows := by
    rw [base]
    exact along.aside.genesis
  have same : schedule p = schedule s.rows := by
    unfold schedule
    rw [genesis]
  have started : Rebased p w (Walk.start p budget) := by
    rw [base]
    refine ⟨Rows.ext (funext fun k => ?_) (funext fun k => ?_) rfl rfl rfl rfl rfl rfl rfl rfl rfl
      rfl rfl rfl rfl rfl rfl rfl rfl, rfl, i64_toU64 along.acc, rfl, rfl⟩
    · cases k <;> rfl
    · cases k <;> rfl
  have unmoved : Rebased w.rows w w := by
    refine ⟨Rows.ext (funext fun k => ?_) (funext fun k => ?_) rfl rfl rfl rfl rfl rfl rfl rfl rfl
      rfl rfl rfl rfl rfl rfl rfl rfl, rfl, rfl, rfl, rfl⟩
    · exact (ite_self _).symm
    · exact (ite_self _).symm
  have day : accruedDays p = w.day := started.day
  obtain ⟨last, lastDay⟩ := along.fullDays togo word
  obtain ⟨second, secondDay⟩ := (Walk.start_along p budget).fullDays togo
    (by rw [genesis, started.day]; exact word)
  rw [same] at second secondDay
  have rows := (unmoved.fullDays (schedule s.rows) togo).rows
  have step := started.fullDays (schedule s.rows) togo
  generalize (Walk.start p budget).fullDays (schedule s.rows) togo = u at *
  generalize w.fullDays (schedule s.rows) togo = v at *
  have sum : v.totalEmitted = w.totalEmitted + u.totalEmitted := by
    have e₁ := along.emitted
    have e₂ := second.emitted
    have e₃ := last.emitted
    rw [day, step.day] at e₂
    omega
  unfold Store.book at booked ⊢
  have issued (t : MemToken) : (t.issue w.totalEmitted).issue u.totalEmitted
      = t.issue v.totalEmitted := by
    rw [sum]
    exact t.issue_add along.total.1 second.total.1
  rw [Walk.booked_twice along last second base step rows sum]
  simp only [Option.map_map]
  congr 2
  exact funext issued

-----------------------------------------------------------------------------------------
-- One call
-----------------------------------------------------------------------------------------

/-- (s.Issues amount) says that minting an amount is not refused by a failing token. -/
def Store.Issues (s : Store) (amount : Int) : Prop :=
  amount ≤ 0 ∨ ∀ t, s.token = some t → t.fail = false

/-- Emission that fits beside what is booked already is minted, unless the token fails. -/
theorem Store.mintSupply_emitted {s : Store} {amount : Int} (positive : 0 < amount)
    (sum : addAmount (s.rows.getAmount .emitted) amount
      = some (i64 (s.rows.getAmount .emitted + amount)))
    (issues : s.Issues amount)
    : s.mintSupply .emitted amount
      = ({ s with
            rows := s.rows.setAmount .emitted (i64 (s.rows.getAmount .emitted + amount))
            token := s.token.map (·.issue amount) }, true) := by
  have works := issues.resolve_left (by omega)
  unfold Store.mintSupply
  rw [if_neg (by omega), if_neg (by omega), sum]
  cases token : s.token with
  | none => simp [Store.modify, token]
  | some t =>
      simp only [MemToken.mint, works t token, Bool.false_eq_true, false_or,
        not_le.mpr positive, if_false, Option.map_some, MemToken.issue, if_pos positive]

section Worlds

variable {A : Type} [Assets A]

/-- A walk's emission is minted and credited, unless the token fails. -/
theorem issueEmission_run (w : World A) {v : Walk}
    (sum : addAmount (w.rows.getAmount .emitted) v.totalEmitted
      = some (i64 (w.rows.getAmount .emitted + v.totalEmitted)))
    (issues : w.store.Issues v.totalEmitted)
    : (issueEmission v).run serve w
      = ({ w with store := { w.store with
            rows := if v.totalEmitted > 0 then
                v.creditPools (w.rows.setAmount .emitted
                  (i64 (w.rows.getAmount .emitted + v.totalEmitted)))
              else w.rows
            token := w.store.token.map (·.issue v.totalEmitted) } }, true) := by
  unfold issueEmission
  by_cases issued : v.totalEmitted > 0
  · have minted : (mintSupply .emitted v.totalEmitted).run serve w
        = ({ w with store := (w.store.mintSupply .emitted v.totalEmitted).1 },
          (w.store.mintSupply .emitted v.totalEmitted).2) := rfl
    rw [if_pos issued, if_pos issued, run_bind, minted,
      Store.mintSupply_emitted issued sum issues]
    rfl
  · have unissued : w.store.token.map (·.issue v.totalEmitted) = w.store.token := by
      unfold MemToken.issue
      simp only [if_neg issued, Option.map_id']
    rw [if_neg issued, if_neg issued, unissued]
    rfl

/-- The days that one call may walk. -/
def daysAllowed (maxDays : Int) : Nat :=
  if maxDays ≤ 0 ∨ maxDays > maxAccrualDays then maxAccrualDays else maxDays.toNat

/-- The walk of a call that has a day to walk. -/
def callWalk (r : Rows) (toHeight : Nat) (maxDays : Int) (budget : Nat) : Walk :=
  Walk.days (schedule r) (min (daysAllowed maxDays) (dayOf r toHeight - accruedDays r))
    (.start r budget)

/-- What a walk emits is a word, by induction on its days. -/
theorem Walk.days_emitted_lt (sc : EmissionSchedule) (togo : Nat) {v : Walk}
    (word : v.totalEmitted < 2 ^ 63)
    : (Walk.days sc togo v).totalEmitted < 2 ^ 63 := by
  induction togo generalizing v with
  | zero => exact word
  | succ togo ih =>
      unfold Walk.days
      split
      · exact word
      · refine ih ?_
        unfold closeDay emit distribute expire
        dsimp only
        repeat' split
        all_goals first
          | exact word
          | exact (i64_mem _).upper

theorem callWalk_emitted_lt (r : Rows) (toHeight : Nat) (maxDays : Int) (budget : Nat)
    : (callWalk r toHeight maxDays budget).totalEmitted < 2 ^ 63 :=
  Walk.days_emitted_lt _ _ (by simp [Walk.start])

/-- A call's walk stays on the schedule and within its target. -/
theorem callWalk_along {r : Rows} {toHeight : Nat} (word : toHeight < 2 ^ 64)
    (behind : accruedDays r < dayOf r toHeight) (maxDays : Int) (budget : Nat)
    : (callWalk r toHeight maxDays budget).Along r
      ∧ (callWalk r toHeight maxDays budget).day ≤ dayOf r toHeight := by
  have bound := dayOf_word (.inl word) behind
  unfold callWalk
  generalize togo : min (daysAllowed maxDays) (dayOf r toHeight - accruedDays r) = n
  have most : accruedDays r + n ≤ dayOf r toHeight := by omega
  obtain ⟨along, days⟩ := (Walk.start_along r budget).days
    (show genesisHeight r + ((Walk.start r budget).day + n) * heightsPerDay < 2 ^ 64 from
      (dayHeight_mono _ most).trans_lt bound)
  exact ⟨along, days.trans most⟩

/-- A call, in the words of its walk. -/
theorem accrueWalk_run (w : World A) (toHeight : Nat) (maxDays : Int) (budget : Nat)
    : (accrueWalk toHeight maxDays budget).run serve w
      = if dayOf w.rows toHeight ≤ accruedDays w.rows then (w, true)
        else
          let v := callWalk w.rows toHeight maxDays budget
          let (w', minted) :=
            (issueEmission v).run serve { w with store := { w.store with rows := v.rows } }
          if minted then
            ({ w' with store := w'.store.modify v.commit },
              decide (dayOf w.rows toHeight ≤ v.day))
          else (w', false) := by
  have load : rows.run serve w = (w, w.rows) := rfl
  simp only [accrueWalk, run_bind, load, run_ite, run_pure]
  split
  · rfl
  · have walk : Walk.days (schedule w.rows)
        (min (if maxDays ≤ 0 ∨ maxDays > maxAccrualDays then maxAccrualDays else maxDays.toNat)
          (dayOf w.rows toHeight - accruedDays w.rows)) (.start w.rows budget)
        = callWalk w.rows toHeight maxDays budget := rfl
    simp only [walk]
    generalize callWalk w.rows toHeight maxDays budget = v
    have started : (setRows v.rows).run serve w
        = ({ w with store := { w.store with rows := v.rows } }, ()) := rfl
    rw [started]
    cases (issueEmission v).run serve { w with store := { w.store with rows := v.rows } } with
    | mk w' minted => cases minted <;> rfl

/-- A call without a day to walk does nothing. -/
theorem accrueWalk_idle {w : World A} {toHeight : Nat}
    (arrived : dayOf w.rows toHeight ≤ accruedDays w.rows) (maxDays : Int) (budget : Nat)
    : (accrueWalk toHeight maxDays budget).run serve w = (w, true) := by
  rw [accrueWalk_run, if_pos arrived]

/-- A call that is not refused its emission books its walk. -/
theorem accrueWalk_books (w : World A) {toHeight : Nat} (maxDays : Int) (budget : Nat)
    (settled : Settled w.rows) (word : toHeight < 2 ^ 64)
    (behind : accruedDays w.rows < dayOf w.rows toHeight)
    (issues : w.store.Issues (callWalk w.rows toHeight maxDays budget).totalEmitted)
    : (accrueWalk toHeight maxDays budget).run serve w
      = ({ w with store := w.store.book (callWalk w.rows toHeight maxDays budget) },
          decide (dayOf w.rows toHeight ≤ (callWalk w.rows toHeight maxDays budget).day)) := by
  obtain ⟨along, _⟩ := callWalk_along word behind maxDays budget
  rw [accrueWalk_run, if_neg (not_le.mpr behind)]
  generalize callWalk w.rows toHeight maxDays budget = v at along issues ⊢
  have booked := along.aside.getAmount .emitted rfl
  have sum : addAmount (v.rows.getAmount .emitted) v.totalEmitted
      = some (i64 (v.rows.getAmount .emitted + v.totalEmitted)) := by
    have emitted := along.emitted
    have cap := issuedAfter_le (v.day * heightsPerDay)
    have none_lost := along.total.1
    rw [booked, settled.calendar.emitted, i64_of_nonneg (by omega) (by omega)]
    exact addAmount_of_fits (by omega) (by omega) (by omega)
  have credited := issueEmission_run { w with store := { w.store with rows := v.rows } } sum issues
  have quarter := along.lshare
  have none_lost := along.total.1
  have whole := v.booked_eq v.rows (by omega)
  simp only [credited, if_true, Store.book, whole]
  rfl

end Worlds

-----------------------------------------------------------------------------------------
-- Where a walk ends
-----------------------------------------------------------------------------------------

/-- Where walking up to a day ends, without a budget and without a stop. -/
def Store.walkedTo (s : Store) (day : Nat) : Store :=
  if day ≤ accruedDays s.rows then s
  else s.book ((Walk.start s.rows 0).fullDays (schedule s.rows) (day - accruedDays s.rows))

theorem Store.walkedTo_self {s : Store} {day : Nat} (arrived : day ≤ accruedDays s.rows)
    : s.walkedTo day = s :=
  if_pos arrived

theorem Store.book_day (s : Store) (w : Walk) : accruedDays (s.book w).rows = w.day :=
  rfl

theorem Store.book_genesis (s : Store) {w : Walk} (along : w.Along s.rows)
    : genesisHeight (s.book w).rows = genesisHeight s.rows :=
  along.aside.genesis

/-- A call's walk does not change where the walk ends; by cases on whether it got there. -/
theorem Store.walkedTo_book (s : Store) {toHeight day : Nat} (word : toHeight < 2 ^ 64)
    (behind : accruedDays s.rows < dayOf s.rows toHeight) (ahead : dayOf s.rows toHeight ≤ day)
    (bound : genesisHeight s.rows + day * heightsPerDay < 2 ^ 64) (maxDays : Int) (budget : Nat)
    : (s.book (callWalk s.rows toHeight maxDays budget)).walkedTo day = s.walkedTo day := by
  obtain ⟨along, most⟩ := callWalk_along word behind maxDays budget
  obtain ⟨passed, within, reached, later⟩ := Walk.days_resume (schedule s.rows)
    (min (daysAllowed maxDays) (dayOf s.rows toHeight - accruedDays s.rows))
    (.start s.rows budget)
  rw [show Walk.days (schedule s.rows) _ (.start s.rows budget)
    = callWalk s.rows toHeight maxDays budget from rfl] at reached later
  generalize callWalk s.rows toHeight maxDays budget = v at *
  have reached : v.day = accruedDays s.rows + passed := reached
  obtain ⟨left, same⟩ := later (day - v.day) (by omega)
  have whole : s.book (v.fullDays (schedule s.rows) (day - v.day))
      = s.book ((Walk.start s.rows 0).fullDays (schedule s.rows) (day - accruedDays s.rows)) := by
    have unbudgeted := Walk.fullDays_budget (schedule s.rows) (passed + (day - v.day))
      (.start s.rows 0) budget
    rw [same, show passed + (day - v.day) = day - accruedDays s.rows by omega] at *
    rw [show Walk.start s.rows budget = { Walk.start s.rows 0 with budget } from rfl, unbudgeted]
    rfl
  unfold walkedTo
  rw [s.book_day, if_neg (show ¬ day ≤ accruedDays s.rows by omega), ← whole]
  split
  · rename_i arrived
    rw [Nat.sub_eq_zero_of_le arrived]
    rfl
  · have same_schedule : schedule (s.book v).rows = schedule s.rows := by
      unfold schedule
      rw [s.book_genesis along]
    rw [same_schedule]
    exact s.book_twice along (day - v.day) 0
      (by rwa [show v.day + (day - v.day) = day by omega])

-----------------------------------------------------------------------------------------
-- Sequences of calls
-----------------------------------------------------------------------------------------

/-- After a day without a reward nothing more is issued, by induction on the later days. -/
theorem issuedAfter_flat {m n : Nat} (none_left : perHeight (m / 1095) = 0) (later : m ≤ n)
    : issuedAfter (n * heightsPerDay) = issuedAfter (m * heightsPerDay) := by
  induction n, later using Nat.le_induction with
  | base => rfl
  | succ n le ih =>
      have gone := perHeight_anti (Nat.div_le_div_right le : m / 1095 ≤ n / 1095)
      rw [issuedAfter_day, ih, show perHeight (n / 1095) = 0 by omega, Nat.mul_zero, Nat.add_zero]

/-- (s.Walkable) says that no call of `s` is refused its emission: the token does not fail, or
the schedule has run out.
-/
def Store.Walkable (s : Store) : Prop :=
  (∀ t, s.token = some t → t.fail = false) ∨ perHeight (accruedDays s.rows / 1095) = 0

theorem Store.Walkable.congr {s s' : Store} (h : s.Walkable) (token : s'.token = s.token)
    (days : accruedDays s'.rows = accruedDays s.rows)
    : s'.Walkable := by
  unfold Walkable at h ⊢
  rwa [token, days]

theorem Store.Walkable.issues {s : Store} (h : s.Walkable) {w : Walk} (along : w.Along s.rows)
    : s.Issues w.totalEmitted := by
  rcases h with works | none_left
  · exact .inr works
  · have emitted := along.emitted
    have flat := issuedAfter_flat none_left along.day_le
    exact .inl (by omega)

theorem Store.Walkable.book {s : Store} (h : s.Walkable) {w : Walk} (along : w.Along s.rows)
    : (s.book w).Walkable := by
  rcases h with works | none_left
  · refine .inl fun t' token => ?_
    obtain ⟨t, before, rfl⟩ := Option.map_eq_some_iff.mp token
    have kept := works t before
    unfold MemToken.issue
    split <;> exact kept
  · have gone := perHeight_anti (Nat.div_le_div_right along.day_le
      : accruedDays s.rows / 1095 ≤ w.day / 1095)
    exact .inr (by rw [s.book_day]; omega)

/-- A call of the walk: `Accrue`, or `AccrueSteps` with its length. -/
inductive WalkCall
  | accrue (toHeight : Nat)
  | accrueSteps (toHeight : Nat) (maxDays : Int)

def WalkCall.toHeight : WalkCall → Nat
  | accrue toHeight => toHeight
  | accrueSteps toHeight _ => toHeight

def WalkCall.maxDays : WalkCall → Int
  | accrue _ => maxAccrualDays
  | accrueSteps _ maxDays => maxDays

def WalkCall.budget : WalkCall → Nat
  | accrue _ => userRetireBudget
  | accrueSteps _ _ => maxRetirePerWalk

def WalkCall.program : WalkCall → Op Bool
  | accrue toHeight => State.accrue toHeight
  | accrueSteps toHeight maxDays => State.accrueSteps toHeight maxDays

theorem WalkCall.program_eq (call : WalkCall)
    : call.program = accrueWalk call.toHeight call.maxDays call.budget := by
  cases call <;> rfl

section Calls

variable {A : Type} [Assets A]

/-- The world that a sequence of calls leaves. -/
def walkAll (w : World A) (calls : List WalkCall) : World A :=
  calls.foldl (fun w call => (call.program.run serve w).1) w

/-- (CaughtUp height w) says that no day before `height` is left to walk. -/
def CaughtUp (height : Nat) (w : World A) : Prop := dayOf w.rows height ≤ accruedDays w.rows

instance (height : Nat) (w : World A) : Decidable (CaughtUp height w) :=
  inferInstanceAs (Decidable (_ ≤ _))

/-- What a call up to a height keeps: where the walk to it ends, and what it needs itself. -/
structure CallKeeps (height : Nat) (w w' : World A) : Prop where
  settled : Settled w'.rows
  walkable : w'.store.Walkable
  assets : w'.assets = w.assets
  target : dayOf w'.rows height = dayOf w.rows height
  ends : w'.store.walkedTo (dayOf w.rows height) = w.store.walkedTo (dayOf w.rows height)

theorem dayOf_mono (r : Rows) {a b : Nat} (h : a ≤ b) : dayOf r a ≤ dayOf r b := by
  unfold dayOf
  split
  · exact Nat.zero_le _
  · rw [if_neg (by omega)]
    exact Nat.div_le_div_right (Nat.sub_le_sub_right h _)

/-- One call, by cases on whether it has a day to walk. -/
theorem WalkCall.run_keeps {w : World A} {height : Nat} (call : WalkCall)
    (settled : Settled w.rows) (walkable : w.store.Walkable) (word : height < 2 ^ 64)
    (within : call.toHeight ≤ height)
    : CallKeeps height w (call.program.run serve w).1 := by
  rw [call.program_eq]
  have word' := within.trans_lt word
  have kept := always_serve (accrueWalk_walked w.rows call.toHeight call.maxDays call.budget
    (.inl word'))
  by_cases arrived : dayOf w.rows call.toHeight ≤ accruedDays w.rows
  · rw [accrueWalk_idle arrived]
    exact ⟨settled, walkable, rfl, rfl, rfl⟩
  · have behind := not_le.mp arrived
    obtain ⟨along, most⟩ := callWalk_along word' behind call.maxDays call.budget
    have ahead := dayOf_mono w.rows within
    have bound := dayOf_word (.inl word) (behind.trans_le ahead)
    have walked := accrueWalk_books w call.maxDays call.budget settled word' behind
      (walkable.issues along)
    rw [walked] at kept ⊢
    have evolves := kept.steady.evolves
    refine ⟨⟨evolves.calendar settled.calendar, ?_, evolves.chunks settled.chunks⟩,
      walkable.book along, rfl, ?_, ?_⟩
    · rw [kept.steady.migration.books]
      exact settled.words
    · unfold dayOf
      rw [evolves.genesis]
    · exact w.store.walkedTo_book word' behind ahead bound call.maxDays call.budget

/-- A sequence of calls, by induction on it. -/
theorem walkAll_keeps {w : World A} {height : Nat} (settled : Settled w.rows)
    (walkable : w.store.Walkable) (word : height < 2 ^ 64) {calls : List WalkCall}
    (within : ∀ call ∈ calls, call.toHeight ≤ height)
    : CallKeeps height w (walkAll w calls) := by
  induction calls generalizing w with
  | nil => exact ⟨settled, walkable, rfl, rfl, rfl⟩
  | cons call rest ih =>
      have first := call.run_keeps settled walkable word (within call (.head _))
      have later := ih first.settled first.walkable fun c there => within c (.tail _ there)
      have target := first.target
      have ends := later.ends
      rw [target] at ends
      exact ⟨later.settled, later.walkable, later.assets.trans first.assets,
        later.target.trans target, ends.trans first.ends⟩

/-- Calls that have caught up are where the walk ends. -/
theorem walkAll_caughtUp {w : World A} {height : Nat} (settled : Settled w.rows)
    (walkable : w.store.Walkable) (word : height < 2 ^ 64) {calls : List WalkCall}
    (within : ∀ call ∈ calls, call.toHeight ≤ height) (caught : CaughtUp height (walkAll w calls))
    : walkAll w calls = { w with store := w.store.walkedTo (dayOf w.rows height) } := by
  have kept := walkAll_keeps settled walkable word within
  have arrived : dayOf w.rows height ≤ accruedDays (walkAll w calls).store.rows :=
    kept.target ▸ caught
  rw [← kept.ends, Store.walkedTo_self arrived, ← kept.assets]

end Calls

end LasseCash.State
