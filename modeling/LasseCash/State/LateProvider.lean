import LasseCash.State.LiquiditySyncs
import LasseCash.State.LiquiditySolvency

/-! What a liquidity provider is paid out of: what the pool held when its tranche was opened and
what arrived since, together with what everybody else earned in that time.
-/

namespace LasseCash.State

open Engine MachineInt RewardAccumulator Function Program

variable {o : Origin} {whole : Prop} {r r' : Rows}

-----------------------------------------------------------------------------------------
-- The fund since a reading
-----------------------------------------------------------------------------------------

namespace Fund

variable {f : Fund} {left base c : Int} {key : TrancheKey}

/-- What a position is entitled to for the time since the accumulator read `base`. -/
def entitledSince (base : Int) (f : Fund) (key : TrancheKey) : Int :=
  entitlement (f.positions key).weight (max (f.positions key).start base) f.acc

/-- (f.Since base c) says that the entitlements for the time since the accumulator read `base`, and
what is held, are covered by the part of `c` that has been counted.
-/
structure Since (base c : Int) (f : Fund) : Prop where
  base_le : base ≤ f.acc
  solvent : Solvent accScale f.acc f.held (c - (f.pool - f.seen))
    (Position.since base ∘ f.positions)

/-- Such an entitlement is covered by what is due since then. -/
theorem Sound.entitledSince_bounds (h : f.Sound left) (base_le : base ≤ f.acc) (key : TrancheKey)
    : 0 ≤ f.entitledSince base key
      ∧ f.entitledSince base key * accScale ≤ ((f.positions key).since base).due f.acc := by
  have acc_le := h.acc_le
  obtain ⟨nonneg, earlier⟩ := h.past key
  rw [Position.since_due]
  rcases nonneg.eq_or_lt with none | some
  · rw [entitledSince, ← none]
    simp [entitlement]
  · exact entitlement_bounds ((h.starts key).trans (le_max_left _ _)) nonneg
      (max_le (earlier some) base_le) (by unfold maxAccumulator at acc_le; omega)

theorem Sound.nothing_due (h : f.Sound left) (base_le : base ≤ f.acc) (key : TrancheKey)
    : 0 * accScale ≤ ((f.positions key).since base).due f.acc := by
  obtain ⟨nonneg, covered⟩ := h.entitledSince_bounds base_le key
  rw [zero_mul]
  exact (mul_nonneg nonneg (by decide)).trans covered

/-- Nothing is due for the time since now. -/
theorem Sound.since_now (h : f.Sound left) : f.Since f.acc (f.held + (f.pool - f.seen)) where
  base_le := le_rfl
  solvent := by
    have none_due : totalDue f.acc (Position.since f.acc ∘ f.positions) = 0 :=
      finsum_eq_zero_of_forall_eq_zero fun key => h.past.due_since_now key
    rw [Solvent, none_due]
    exact le_of_eq (by ring)

theorem Since.mono {c' : Int} (h : f.Since base c) (le : c ≤ c') : f.Since base c' where
  base_le := h.base_le
  solvent := by
    have solvent := h.solvent
    unfold Solvent accScale at *
    omega

theorem Since.inflow (h : f.Since base c) (x : Int)
    : ({ f with pool := f.pool + x } : Fund).Since base (c + x) where
  base_le := h.base_le
  solvent := by
    have same : c + x - (f.pool + x - f.seen) = c - (f.pool - f.seen) := by ring
    dsimp only
    rw [same]
    exact h.solvent

/-- A sync assigns or holds what it counts, by cases on whether it assigns it. -/
theorem Since.sync (since : f.Since base c) (h : f.Sound left) : f.sync.Since base c := by
  by_cases arrived : f.seen < f.pool
  · have counted : c - (f.pool - f.seen) + (f.pool - f.seen) = c - (f.pool - f.pool) := by ring
    rw [h.sync_eq arrived]
    split
    · rename_i assigned
      obtain ⟨enough, some_rise, room⟩ := assigned
      have weight_pos : 0 < f.weight := lt_of_lt_of_le (by decide) enough
      have covered : riseOf (f.pool - f.seen + f.held) f.weight
            * totalWeight (Position.since base ∘ f.positions)
          ≤ (f.held + (f.pool - f.seen)) * accScale := by
        rw [totalWeight_since, ← h.weight, add_comm f.held]
        exact Int.ediv_mul_le _ weight_pos.ne'
      have solvent := since.solvent.raise (h.few.since base) covered
      rw [counted] at solvent
      exact ⟨since.base_le.trans (by dsimp only; omega), solvent⟩
    · have solvent := since.solvent.hold (f.pool - f.seen)
      rw [counted, add_comm f.held] at solvent
      exact ⟨since.base_le, solvent⟩
  · rw [h.sync_idle arrived]
    exact since

/-- A position may be paid, of what it is due for that time, `earned`. -/
theorem Since.register (since : f.Since base c) (h : f.Sound left) (key : TrancheKey)
    (weight owed : Int) {earned : Int}
    (covered : earned * accScale ≤ ((f.positions key).since base).due f.acc)
    : (f.register key weight owed).Since base (c - earned) where
  base_le := since.base_le
  solvent := by
    have fresh : (Position.since base ⟨weight, f.acc⟩).due f.acc = 0 := by
      rw [Position.since_due, max_eq_left since.base_le, sub_self, mul_zero]
    have counted : c - (f.pool - f.seen) - earned
        = c - earned - (f.pool - owed - (f.seen - owed)) := by ring
    have solvent := since.solvent.pay (h.few.since base) key fresh covered
    rw [counted, ← comp_update] at solvent
    exact solvent

theorem Since.leave (since : f.Since base c) (h : f.Sound left) (key : TrancheKey)
    : (f.leave key).Since base c where
  base_le := since.base_le
  solvent := by
    have vacant : (Position.since base (.vacant : Position Int)).due f.acc = 0 := by
      rw [Position.since_due]
      exact zero_mul _
    have solvent := since.solvent.pay (h.few.since base) key vacant
      (h.nothing_due since.base_le key)
    rw [sub_zero, ← comp_update] at solvent
    exact solvent

/-- A settlement pays a position what it earned in that time, or more if it was last paid before. -/
theorem Since.settle (since : f.Since base c) (h : f.Sound left) (key : TrancheKey) (weight : Int)
    : (f.sync.register key weight (f.sync.entitled key)).Since base
      (c - f.sync.entitledSince base key) :=
  have synced := since.sync h
  synced.register h.sync.1 key weight _ (h.sync.1.entitledSince_bounds synced.base_le key).2

/-- Every move is covered by what flows in, by cases on the move. -/
theorem Move.since {f' : Fund} {x left' : Int} (move : f.Move x f') (since : f.Since base c)
    (h : f.Sound left) (left_nonneg : 0 ≤ left') (room : 4 * (f.pool + x) + left' < 2 ^ 65)
    : f'.Since base (c + x) := by
  cases move with
  | keep => rwa [add_zero]
  | inflow x nonneg => exact since.inflow x
  | settle key weight nonneg fits =>
      have synced := since.sync h
      have earned := (h.sync.1.entitledSince_bounds synced.base_le key).1
      exact (since.settle h key weight).mono (by omega)
  | enter x x_nonneg key weight nonneg vacant fits =>
      have sound := h.inflow x_nonneg left_nonneg room
      have synced := (since.inflow x).sync sound
      exact (synced.register sound.sync.1 key weight 0
        (sound.sync.1.nothing_due synced.base_le key)).mono (by omega)
  | leave key =>
      rw [add_zero]
      exact since.leave h key

/-- All that is still due for that time and what is held fit into `c`. -/
theorem Since.covers (since : f.Since base c) (h : f.Sound left)
    : ∑ᶠ key, f.entitledSince base key + f.held ≤ c := by
  have scaled := since.solvent.covers (h.few.since base)
    (fun key => (h.entitledSince_bounds since.base_le key).2) fun key vacant => by
      have weightless : (f.positions key).weight = 0 := by
        rw [← Position.since_weight base, ← comp_apply (f := Position.since base), vacant]
        rfl
      rw [entitledSince, weightless]
      rfl
  have seen_le := h.seen_le
  have fits := le_of_mul_le_mul_right scaled (by decide)
  omega

/-- (f.Late base key) says that a position was last paid when the accumulator read `base` or more. -/
def Late (base : Int) (key : TrancheKey) (f : Fund) : Prop :=
  0 < (f.positions key).weight → base ≤ (f.positions key).start

/-- It then earned in that time all that it is entitled to. -/
theorem Late.entitled (late : f.Late base key) (h : f.Sound left) (acc : Int)
    : entitlement (f.positions key).weight (max (f.positions key).start base) acc
      = entitlement (f.positions key).weight (f.positions key).start acc := by
  rcases (h.past key).1.eq_or_lt with none | some
  · rw [← none]
    simp [entitlement]
  · rw [max_eq_left (late some)]

theorem Late.register (late : f.Late base key) (base_le : base ≤ f.acc) (other : TrancheKey)
    (weight owed : Int)
    : (f.register other weight owed).Late base key := by
  intro some
  by_cases same : key = other
  · subst same
    simpa [Fund.register] using base_le
  · simp only [Fund.register, update_of_ne same] at some ⊢
    exact late some

/-- Every move keeps that, by cases on the move. -/
theorem Move.late {f' : Fund} {x left' : Int} (move : f.Move x f') (late : f.Late base key)
    (base_le : base ≤ f.acc) (h : f.Sound left) (left_nonneg : 0 ≤ left')
    (room : 4 * (f.pool + x) + left' < 2 ^ 65)
    : f'.Late base key := by
  have synced {g : Fund} {left : Int} (sound : g.Sound left) (late : g.Late base key)
      (base_le : base ≤ g.acc) : g.sync.Late base key ∧ base ≤ g.sync.acc := by
    refine ⟨?_, base_le.trans sound.sync.2⟩
    rw [Late, (g.sync_frame).2.2.2]
    exact late
  cases move with
  | keep => exact late
  | inflow x nonneg => exact late
  | settle other weight nonneg fits =>
      obtain ⟨late, base_le⟩ := synced h late base_le
      exact late.register base_le other weight _
  | enter x x_nonneg other weight nonneg vacant fits =>
      obtain ⟨late, base_le⟩ := synced (h.inflow x_nonneg left_nonneg room) late base_le
      exact late.register base_le other weight 0
  | leave other =>
      intro some
      by_cases same : key = other
      · subst same
        simp [Fund.leave, Position.vacant] at some
      · simp only [Fund.leave, update_of_ne same] at some ⊢
        exact late some

end Fund

-----------------------------------------------------------------------------------------
-- What requests bring and pay
-----------------------------------------------------------------------------------------

/-- What an action donates to the liquidity rewards when it succeeds. -/
def Action.donates : Action → Int
  | .fundPool target amt => if 0 < amt.toInt then liquidityPart target amt.toInt else 0
  | _ => 0

theorem Action.donates_nonneg (action : Action) : 0 ≤ action.donates := by
  cases action with
  | fundPool target amt =>
      simp only [donates]
      split
      · rename_i positive
        exact liquidityPart_nonneg target positive.le (Int64.toInt_lt amt)
      · exact le_rfl
  | _ => exact le_rfl

section Requests

variable {A : Type} [Assets A]

/-- The part of a request's emission that goes to the liquidity rewards. -/
def accrued (w : World A) (q : Request) : Int :=
  ((q.exec w).1.rows.getAmount .emitted - w.rows.getAmount .emitted) / 4

/-- The part of a request's donation that goes to the liquidity rewards. -/
def donated (w : World A) (q : Request) : Int :=
  if (q.exec w).2.ok then q.action.donates else 0

/-- What a request pays the tranche: what leaves the liquidity rewards when it settles it. -/
def paidTo (key : TrancheKey) (w : World A) (q : Request) : Int :=
  if q.action.settles q.ctx = some key ∧ (q.exec w).2.ok = true then
    w.rows.getAmount .poolLiquidity + accrued w q - (q.exec w).1.rows.getAmount .poolLiquidity
  else 0

/-- What a request pays a tranche, if it is any other one, for the time since the accumulator read
`base`.
-/
def paidToOthers (base : Int) (key : TrancheKey) (w : World A) (q : Request) : Int :=
  match q.action.settles q.ctx with
  | some other =>
      if other ≠ key ∧ (q.exec w).2.ok = true then
        entitlement ((fundOf w.rows).positions other).weight
          (max ((fundOf w.rows).positions other).start base) (fundOf (q.exec w).1.rows).acc
      else 0
  | none => 0

/-- The sum of `f` over the requests of a run. -/
def total (f : World A → Request → Int) : World A → List Request → Int
  | _, [] => 0
  | w, q :: rest => f w q + total f (q.exec w).1 rest

variable {w : World A} {q : Request} {base c : Int} {key : TrancheKey}

/-- A request pays for the time since a reading no more than it brings, by the moves of its
steps.
-/
theorem Request.exec_since (books : LpBooks w.rows) (fits : q.LpFits w)
    (since : (fundOf w.rows).Since base c) (late : (fundOf w.rows).Late base key)
    : (fundOf (q.exec w).1.rows).Since base (c + accrued w q + donated w q)
      ∧ (fundOf (q.exec w).1.rows).Late base key := by
  have donates := q.action.donates_nonneg
  by_cases finished : q.action.withdraws = true → (q.exec w).2.ok = true
  · -- a donation is all of its operation, so it is counted at most once
    let Kept (r : Rows) : Prop := LpBooks r ∧ (fundOf r).Late base key ∧ ∃ x d,
      r.getAmount .emitted = w.rows.getAmount .emitted + 4 * x
        ∧ (d = 0 ∨ (q.exec w).2.ok = true ∧ d = q.action.donates)
        ∧ (fundOf r).Since base (c + x + d)
    have kept : Kept (q.exec w).1.rows := by
      refine (q.exec_steps w).keep ?_ ⟨books, late, 0, 0, by omega, .inl rfl, by simpa using since⟩
      rintro r r' ⟨books_r, late, x, d, emitted, part, since_r⟩ step
      have books' := step.lpBooks books_r fits.sums finished
      obtain ⟨calendar, y, move, fed⟩ := step.fund books_r fits.sums finished
      have left := books'.left_nonneg
      rcases fed with added | ⟨same, target, amt, asked, positive, done, first, rfl⟩
      · have room : 4 * ((fundOf r).pool + y) + (emissionCap - r'.getAmount .emitted) < 2 ^ 65 := by
          have := books_r.fund.room
          omega
        have moved := move.since since_r books_r.fund left room
        exact ⟨books', move.late late since_r.base_le books_r.fund left room, x + y, d, by omega,
          part, moved.mono (by omega)⟩
      · have room : DonationFits r target amt.toInt := first ▸ fits.sums.donation target amt asked done
        have room : 4 * ((fundOf r).pool + liquidityPart target amt.toInt)
            + (emissionCap - r'.getAmount .emitted) < 2 ^ 65 := by
          rw [same]
          exact room
        obtain rfl : r = w.rows := first
        have asked : q.action = .fundPool target amt := asked
        have gift : liquidityPart target amt.toInt = q.action.donates := by
          rw [asked, Action.donates, if_pos positive]
        have moved := move.since since books.fund left room
        exact ⟨books', move.late late since.base_le books.fund left room, 0, _, by omega,
          .inr ⟨done, gift⟩, by simpa using moved⟩
    obtain ⟨_, late, x, d, emitted, part, since⟩ := kept
    have brought : accrued w q = x := by
      rw [accrued, emitted]
      omega
    have given : d ≤ donated w q := by
      unfold donated
      rcases part with rfl | ⟨done, rfl⟩
      · split <;> omega
      · rw [if_pos done]
    exact ⟨brought ▸ since.mono (by omega), late⟩
  · obtain ⟨withdraws, refused⟩ := Classical.not_imp.mp finished
    have unwinds := (fits.unwound withdraws).resolve_right refused
    have same := Request.exec_unwound unwinds w (by simpa using refused)
    have idle : accrued w q = 0 ∧ donated w q = 0 := by
      simp [accrued, donated, same, refused]
    rw [same, idle.1, idle.2, add_zero, add_zero]
    exact ⟨since, late⟩

/-- A settlement keeps the books. -/
theorem LpBooks.settled {r : Rows} (books : LpBooks r) {owner : String} {id height : Nat}
    {t : Tranche} (found : r.getTranche owner id = some t) (going : t.closed = false)
    (fits : WeightFits r height t)
    : LpBooks (settleRows r height id t) := by
  have touched := settleRows_touches r height id t
  have emitted := touched.amount .emitted rfl
  obtain ⟨weight, fund, nonneg, room⟩ := books.settle_move found going fits
  exact ⟨books.toFundBooks.emits (touched.calendar books.calendar emitted rfl rfl) (x := 0)
    (fund ▸ .settle _ weight nonneg room) (by omega), books.owned.settle found⟩

/-- A settlement pays its tranche all that it is entitled to, and a part of that is for the time
since a reading.
-/
theorem Request.exec_settled_since {other : TrancheKey} (books : LpBooks w.rows)
    (fits : q.LpFits w) (since : (fundOf w.rows).Since base c)
    (settles : q.action.settles q.ctx = some other) (success : (q.exec w).2.ok = true)
    : (fundOf (q.exec w).1.rows).Since base (c + accrued w q
          - entitlement ((fundOf w.rows).positions other).weight
            (max ((fundOf w.rows).positions other).start base) (fundOf (q.exec w).1.rows).acc)
      ∧ w.rows.getAmount .poolLiquidity + accrued w q
          - (q.exec w).1.rows.getAmount .poolLiquidity
        = entitlement ((fundOf w.rows).positions other).weight
          ((fundOf w.rows).positions other).start (fundOf (q.exec w).1.rows).acc := by
  obtain ⟨owner, id⟩ := other
  obtain ⟨t, r₂, found, going, ⟨r₁, accrues, strides, there, settled⟩, moved, last⟩ :=
    q.exec_settles w settles success
  have accrues : Accrues q.ctx.height w.rows r₁ := accrues
  obtain ⟨before, x, nonneg, emitted₁, fund₁⟩ :=
    books.toFundBooks.accrued accrues q.ctx.height_lt
  have books₁ : LpBooks r₁ := ⟨before, books.owned.touches accrues.touches rfl rfl⟩
  have weight_fits : WeightFits r₁ q.ctx.height t := by
    rw [WeightFits, accrues.touches.amount .poolWeight rfl]
    exact fits.sums.weight owner id settles t (by rw [found]; rfl) going
  obtain ⟨weight, fund₂, weight_nonneg, room⟩ := books₁.settle_move there going weight_fits
  -- the settlement itself
  have noted : Touches [.roll] (settleRows r₁ q.ctx.height id t) r₂ := by
    rcases settled with rfl | rfl
    · exact .refl _
    · exact (Touches.refl _).noteAccount owner (by rfl)
  have books₂ := books₁.settled there going weight_fits
  have emitted₂ : r₂.getAmount .emitted = w.rows.getAmount .emitted + 4 * x := by
    rw [noted.amount .emitted rfl, (settleRows_touches r₁ q.ctx.height id t).amount .emitted rfl, emitted₁]
  have books₂ : LpBooks r₂ := ⟨(books₂.toFundBooks.touches noted (noted.amount .emitted rfl) rfl).1,
    books₂.owned.touches noted rfl rfl⟩
  rw [← (noted.fundOf rfl rfl rfl)] at fund₂
  obtain ⟨pool, seen, _, positions⟩ := (fundOf r₁).sync_frame
  have since₂ : (fundOf r₂).Since base
      (c + x - (fundOf r₁).sync.entitledSince base (owner, id)) := by
    rw [fund₂]
    refine Fund.Since.settle ?_ before.fund (owner, id) weight
    rw [fund₁]
    exact since.inflow x
  -- the write after it
  obtain ⟨_, y, move, fed⟩ := Step.fund (.liquidity (last ((q.exec w).2.ok = true))) books₂
    fits.sums fun _ => success
  have emitted := moved.amount .emitted rfl
  have still : y = 0 := by
    rcases fed with added | ⟨_, target, amt, asked, _⟩
    · omega
    · have asked : q.action = .fundPool target amt := asked
      rw [asked] at settles
      cases settles
  subst still
  have brought : accrued w q = x := by
    rw [accrued, emitted, emitted₂]
    omega
  have reading : (fundOf (q.exec w).1.rows).acc = (fundOf r₁).sync.acc := by
    have same : (fundOf (q.exec w).1.rows).acc = (fundOf r₂).acc :=
      congrArg (fun n : Nat => i64 n) (moved.count .poolAcc rfl)
    rw [same, fund₂]
    rfl
  have there : (fundOf r₁).sync.positions = (fundOf w.rows).positions := by rw [positions, fund₁]
  have left := books₂.left_nonneg
  have room : 4 * ((fundOf r₂).pool + 0) + (emissionCap - r₂.getAmount .emitted) < 2 ^ 65 := by
    rw [add_zero]
    exact books₂.fund.room
  have since' := move.since since₂ books₂.fund left room
  rw [add_zero] at since'
  rw [brought, reading, ← there]
  refine ⟨since', ?_⟩
  have drawn : (q.exec w).1.rows.getAmount .poolLiquidity
      = (fundOf r₁).sync.pool - (fundOf r₁).sync.entitled (owner, id) := by
    rw [moved.amount .poolLiquidity rfl]
    exact congrArg Fund.pool fund₂
  rw [drawn, pool, fund₁]
  change w.rows.getAmount .poolLiquidity + x - (w.rows.getAmount .poolLiquidity + x - _) = _
  rw [sub_sub_cancel]
  rfl

/-- What a request pays for the time since a reading comes out of what it brings and of what is
there, by cases on whether it settles the tranche, another one, or none.
-/
theorem Request.exec_paid (books : LpBooks w.rows) (fits : q.LpFits w)
    (since : (fundOf w.rows).Since base c) (late : (fundOf w.rows).Late base key)
    : (fundOf (q.exec w).1.rows).Since base (c + accrued w q + donated w q - paidTo key w q
        - paidToOthers base key w q) := by
  have plain := (Request.exec_since books fits since late).1
  have given : 0 ≤ donated w q := by
    unfold donated
    split
    · exact q.action.donates_nonneg
    · exact le_rfl
  unfold paidTo paidToOthers
  cases settles : q.action.settles q.ctx with
  | none => simpa using plain
  | some other =>
      by_cases success : (q.exec w).2.ok = true
      · obtain ⟨since', paid⟩ := Request.exec_settled_since books fits since settles success
        by_cases same : other = key
        · subst same
          rw [late.entitled books.fund, ← paid] at since'
          dsimp only
          rw [if_pos ⟨rfl, success⟩, if_neg (by simp)]
          exact since'.mono (by omega)
        · dsimp only
          rw [if_neg (by simp [same]), if_pos ⟨same, success⟩]
          exact since'.mono (by omega)
      · simpa [success] using plain

/-- So does what a run pays, by induction on it. -/
theorem Run.paid {now : Nat} {requests : List Request} (books : LpBooks w.rows)
    (since : (fundOf w.rows).Since base c) (late : (fundOf w.rows).Late base key)
    (run : Run (fun w q => q.LpFits w) w now requests)
    : LpBooks (after w requests).rows
      ∧ (fundOf (after w requests).rows).Since base (c + total accrued w requests
        + total donated w requests - total (paidTo key) w requests
        - total (paidToOthers base key) w requests) := by
  induction requests generalizing w now c with
  | nil => exact ⟨books, since.mono (by simp [total])⟩
  | cons q rest ih =>
      obtain ⟨_, fits, tail⟩ := run
      obtain ⟨books', since'⟩ := ih (Request.exec_lpBooks books fits)
        (Request.exec_paid books fits since late) (Request.exec_since books fits since late).2 tail
      refine ⟨books', since'.mono ?_⟩
      simp only [total]
      omega

theorem total_accrued_le (w : World A) (requests : List Request)
    : 4 * total accrued w requests
      ≤ (after w requests).rows.getAmount .emitted - w.rows.getAmount .emitted := by
  induction requests generalizing w with
  | nil => simp [total, after]
  | cons q rest ih =>
      have := ih (q.exec w).1
      have next : after w (q :: rest) = after (q.exec w).1 rest := rfl
      rw [next, total, accrued]
      omega

/-- A deposit leaves everything counted, and its tranche at the present reading. -/
theorem Deposited.late (deposited : Deposited o r')
    : (fundOf r').pool = (fundOf r').seen
      ∧ (fundOf r').Late (fundOf r').acc (o.ctx.sender, r'.getU64 (.lpSeq o.ctx.sender)) := by
  obtain ⟨lcIn, hbdIn, shares, r₁, accrued, rfl⟩ := deposited
  obtain ⟨same, reading⟩ := fundOf_sync r₁
  obtain ⟨pool, seen, _⟩ := (fundOf r₁).sync_frame
  have opened := openTranche_touches (syncPoolAccumulator r₁).1 o.ctx shares
    (syncPoolAccumulator r₁).2
  obtain ⟨rows, numbers⟩ := openTranche_rows (syncPoolAccumulator r₁).1 o.ctx shares
    (syncPoolAccumulator r₁).2
  refine ⟨?_, fun _ => ?_⟩
  · have counted : (fundOf (syncPoolAccumulator r₁).1).pool
        = (fundOf (syncPoolAccumulator r₁).1).seen := by rw [same, pool, seen]
    exact (opened.amount .poolLiquidity rfl).trans (counted.trans (opened.amount .poolAccSeen rfl).symm)
  · rw [(numbers o.ctx.sender).2 rfl]
    have acc : (fundOf (openTranche (syncPoolAccumulator r₁).1 o.ctx shares
        (syncPoolAccumulator r₁).2)).acc = (syncPoolAccumulator r₁).2 :=
      (congrArg (fun n : Nat => i64 n) (opened.count .poolAcc rfl)).trans
        ((congrArg Fund.acc same).trans reading.symm)
    rw [acc]
    change _ ≤ (positionOf ((openTranche _ _ _ _).tranche _)).start
    rw [rows, update_self]
    exact le_rfl

/-- What is paid after a deposit for the time since comes out of what is held then and of what
arrives.
-/
theorem Run.paid_since {now : Nat} {rest : List Request} (books : LpBooks w.rows)
    (deposited : Deposited o w.rows) (run : Run (fun w q => q.LpFits w) w now rest)
    : total (paidTo (o.ctx.sender, w.rows.getU64 (.lpSeq o.ctx.sender))) w rest
        + total (paidToOthers (fundOf w.rows).acc
          (o.ctx.sender, w.rows.getU64 (.lpSeq o.ctx.sender))) w rest
        + ∑ᶠ key, (fundOf (after w rest).rows).entitledSince (fundOf w.rows).acc key
        + (after w rest).rows.getAmount .poolAccHeld
      ≤ w.rows.getAmount .poolAccHeld + total accrued w rest + total donated w rest := by
  obtain ⟨counted, late⟩ := deposited.late
  have since := books.fund.since_now
  rw [counted, sub_self, add_zero] at since
  obtain ⟨books', since'⟩ := run.paid books since late
  have covered := since'.covers books'.fund
  change _ + (after w rest).rows.getAmount .poolAccHeld
    ≤ w.rows.getAmount .poolAccHeld + _ + _ - _ - _ at covered
  linarith

/-- The emission of a run from a day that the accrual has reached is of no earlier day. -/
theorem Run.accrued_since {now day : Nat} {rest : List Request} (books : LpBooks w.rows)
    (reached : day ≤ accruedDays w.rows) (run : Run (fun w q => q.LpFits w) w now rest)
    : 4 * total accrued w rest ≤ issuedAfter (accruedDays (after w rest).rows * heightsPerDay)
        - issuedAfter (day * heightsPerDay) := by
  have books' := run.invariant (I := fun _ w => LpBooks w.rows)
    (fun w now q books later fits => Request.exec_lpBooks books fits) books
  have emitted := books.calendar.emitted
  have emitted' := books'.calendar.emitted
  have sum := total_accrued_le w rest
  have earlier := issuedAfter_day_mono reached
  omega

/-- In a run from `Init`, on any ledger and assets, whose sums fit: what a tranche is paid after
its deposit, what all the others are paid and still entitled to for that time and what is then
held come out of what is held at the deposit and what arrives after it. The emission among it is
of no day before the deposit's, where its accrual has caught up.
-/
theorem late_provider_earns_later (store : Store) (assets : A) (genesis : UInt64)
    (before rest : List Request) (q : Request) {lcIn maxHbd : Int64}
    (fresh : store.rows = .empty) (asked : q.action = .addLiquidity lcIn maxHbd)
    (run : Run (fun w q => q.LpFits w) (initialised store assets genesis) 0 (before ++ q :: rest))
    (added : (q.exec (after (initialised store assets genesis) before)).2.ok = true)
    : let w := (q.exec (after (initialised store assets genesis) before)).1
      let w' := after w rest
      let key := (q.ctx.sender, w.rows.getU64 (.lpSeq q.ctx.sender))
      let base := (fundOf w.rows).acc
      total (paidTo key) w rest + total (paidToOthers base key) w rest
            + ∑ᶠ key, (fundOf w'.rows).entitledSince base key + w'.rows.getAmount .poolAccHeld
          ≤ w.rows.getAmount .poolAccHeld + total accrued w rest + total donated w rest
        ∧ (dayOf w.rows q.ctx.height ≤ accruedDays w.rows
          → 4 * total accrued w rest ≤ issuedAfter (accruedDays w'.rows * heightsPerDay)
            - issuedAfter (dayOf w.rows q.ctx.height * heightsPerDay)) := by
  obtain ⟨begun, later, fits, tail⟩ := run.append
  have books := Request.exec_lpBooks (begun.invariant (I := fun _ w => LpBooks w.rows)
    (fun w now q books later fits => Request.exec_lpBooks books fits)
    (initialised_lpBooks store assets genesis fresh)) fits
  have deposited := q.exec_deposits _ asked added
  dsimp only
  generalize (q.exec (after (initialised store assets genesis) before)).1 = w at *
  have paid := tail.paid_since books deposited
  exact ⟨paid, fun current => tail.accrued_since books current⟩

end Requests

/-- A provider who joins after a donation is paid for the next one only, its part of which is not
more than all of it.
-/
theorem late_provider_earns_later_small
    : let requests : List Request :=
        [⟨{ sender := "hive:owner", height := 1 }, .creditMigration "hive:a" 300000000000 0, true⟩,
          ⟨{ sender := "hive:a", height := 2 }, .addLiquidity 10000000000 50000000000, true⟩,
          ⟨{ sender := "hive:a", height := 3 }, .fundPool "liquidity" 100000000000, true⟩]
      let q : Request := ⟨{ sender := "hive:a", height := 4 }, .addLiquidity 10000000000 50000000000,
        true⟩
      let rest : List Request :=
        [⟨{ sender := "hive:a", height := 5 }, .fundPool "liquidity" 5000, true⟩,
          ⟨{ sender := "hive:a", height := 6 }, .claimPoolRewards 2, true⟩]
      let w := (q.exec (after (initialised Store.newMem MemAssets.new 1) requests)).1
      total (paidTo ("hive:a", 2)) w rest + total (paidToOthers (fundOf w.rows).acc ("hive:a", 2)) w
            rest + ∑ᶠ key, (fundOf (after w rest).rows).entitledSince (fundOf w.rows).acc key
          + (after w rest).rows.getAmount .poolAccHeld
        ≤ w.rows.getAmount .poolAccHeld + total accrued w rest + total donated w rest := by
  intro requests q rest w
  have earned := (late_provider_earns_later Store.newMem MemAssets.new 1 requests rest q rfl rfl
    ⟨by decide, ⟨⟨nofun, nofun, nofun, nofun⟩, nofun⟩, by decide, ⟨⟨?_, ?_, nofun, nofun⟩, nofun⟩,
      by decide, ⟨⟨nofun, nofun, nofun, ?_⟩, nofun⟩, by decide, ⟨⟨?_, ?_, nofun, nofun⟩, nofun⟩,
      by decide, ⟨⟨nofun, nofun, nofun, ?_⟩, nofun⟩, by decide, ⟨⟨nofun, nofun, ?_, nofun⟩, nofun⟩,
      trivial⟩ (by decide +kernel)).1
  · have key : (q.ctx.sender, w.rows.getU64 (.lpSeq q.ctx.sender)) = ("hive:a", 2) := by
      decide +kernel
    rw [← key]
    exact earned
  · intro lcIn maxHbd asked _
    cases asked
    decide +kernel
  · intro lcIn maxHbd asked _
    cases asked
    decide +kernel
  · intro target amt asked _
    cases asked
    decide +kernel
  · intro lcIn maxHbd asked _
    cases asked
    decide +kernel
  · intro lcIn maxHbd asked _
    cases asked
    decide +kernel
  · intro target amt asked _
    cases asked
    decide +kernel
  · intro owner id asked
    cases asked
    decide +kernel

/-- A donation that arrives before any provider is held, and the first one is paid it: more than all
that arrives after its deposit.
-/
theorem late_provider_earns_held
    : let before : List Request :=
        [⟨{ sender := "hive:owner", height := 1 }, .creditMigration "hive:a" 300000000000 0, true⟩,
          ⟨{ sender := "hive:a", height := 2 }, .fundPool "liquidity" 100000000000, true⟩]
      let q : Request :=
        ⟨{ sender := "hive:a", height := 3 }, .addLiquidity 10000000000 50000000000, true⟩
      let rest : List Request :=
        [⟨{ sender := "hive:a", height := 4 }, .fundPool "liquidity" 1, true⟩,
          ⟨{ sender := "hive:a", height := 5 }, .claimPoolRewards 1, true⟩]
      let w₀ := after (initialised Store.newMem MemAssets.new 1) before
      let w := (q.exec w₀).1
      (results (initialised Store.newMem MemAssets.new 1) (before ++ q :: rest)).all Result.ok = true
        ∧ total accrued w rest + total donated w rest = 1
        ∧ total (paidTo ("hive:a", 1)) w rest = 100000000001 := by
  decide +kernel

end LasseCash.State
