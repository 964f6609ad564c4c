import LasseCash.Lib.ConstantProduct
import LasseCash.State.StepSides

/-! What a share of the pool is worth: the reserves and the shares change by deposits, withdrawals
and trades only, and none of them takes from a share, however it rounds.
-/

namespace LasseCash.State

open Engine MachineInt ConstantProduct

-----------------------------------------------------------------------------------------
-- The stock of the pool
-----------------------------------------------------------------------------------------

/-- The reserves of the pool and the shares that own them. -/
structure Stock where
  lc : Int
  hbd : Int
  shares : Int

/-- The reserves are words, and the shares of a pool own some of both. -/
structure Stock.Sound (s : Stock) : Prop where
  lc_nonneg : 0 ≤ s.lc
  lc_word : s.lc < 2 ^ 63
  hbd_nonneg : 0 ≤ s.hbd
  hbd_word : s.hbd < 2 ^ 63
  shares_word : InI64 s.shares
  funded : 0 < s.shares → 0 < s.lc ∧ 0 < s.hbd

/-- What a share is worth. -/
def Stock.worth (s : Stock) : ℚ := ConstantProduct.worth (s.lc : ℚ) s.hbd s.shares

/-- A share's claim by the geometric mean of the reserves. -/
noncomputable def Stock.mean (s : Stock) : ℝ := √((s.lc : ℝ) * s.hbd) / s.shares

/-- (s.Change s') says that a deposit, a withdrawal or a trade takes the stock from `s` to `s'`,
with the roundings of the contract.
-/
inductive Stock.Change (s : Stock) : Stock → Prop
  | deposit (lcIn hbdIn shares : Int) (lc_pos : 0 < lcIn) (hbd_pos : 0 < hbdIn)
      (lc_fits : s.lc + lcIn < 2 ^ 63) (hbd_fits : s.hbd + hbdIn < 2 ^ 63)
      (earned : 0 < shares) (word : shares < 2 ^ 63)
      (priced : 0 < s.shares → s.hbd * lcIn ≤ hbdIn * s.lc ∧ shares = s.shares * lcIn / s.lc)
      : Change s ⟨s.lc + lcIn, s.hbd + hbdIn, i64 (s.shares + shares)⟩
  | withdraw (burnt lcOut hbdOut : Int) (some : 0 < burnt) (le : burnt ≤ s.shares)
      (lcOut_nonneg : 0 ≤ lcOut) (lcOut_le : lcOut ≤ s.lc * burnt / s.shares)
      (hbdOut_nonneg : 0 ≤ hbdOut) (hbdOut_le : hbdOut ≤ s.hbd * burnt / s.shares)
      : Change s ⟨s.lc - lcOut, s.hbd - hbdOut, s.shares - burnt⟩
  | sellLC (lcIn out : Int) (some : 0 < lcIn) (fits : s.lc + lcIn < 2 ^ 63)
      (floor : out = s.hbd * lcIn / (s.lc + lcIn)) (positive : 0 < out) (left : out < s.hbd)
      : Change s ⟨s.lc + lcIn, s.hbd - out, s.shares⟩
  | buyLC (hbdIn out : Int) (some : 0 < hbdIn) (fits : s.hbd + hbdIn < 2 ^ 63)
      (floor : out = s.lc * hbdIn / (s.hbd + hbdIn)) (positive : 0 < out) (left : out < s.lc)
      : Change s ⟨s.lc - out, s.hbd + hbdIn, s.shares⟩

namespace Stock

variable {s s' : Stock}

/-- The mean of a share's parts follows what it is worth. -/
theorem mean_le (issued : 0 < s.shares) (issued' : 0 < s'.shares) (worth : s.worth ≤ s'.worth)
    : s.mean ≤ s'.mean := by
  have cast (t : Stock) : ConstantProduct.worth (t.lc : ℝ) t.hbd t.shares = (t.worth : ℝ) := by
    simp [Stock.worth, ConstantProduct.worth]
  rw [mean, mean, ← sqrt_worth _ _ (by exact_mod_cast issued),
    ← sqrt_worth _ _ (by exact_mod_cast issued'), cast, cast]
  exact Real.sqrt_le_sqrt (by exact_mod_cast worth)

/-- What remains of a reserve after a withdrawal that leaves shares. -/
theorem left_of_withdraw {x shares burnt out : Int} (x_nonneg : 0 ≤ x) (some : 0 < burnt)
    (le : burnt ≤ shares) (out_le : out ≤ x * burnt / shares)
    : 0 ≤ x - out ∧ (0 < shares - burnt → 0 < x → 0 < x - out) := by
  have issued : 0 < shares := by omega
  have part := withdraw_floor issued out_le
  refine ⟨?_, fun others stocked => ?_⟩
  · by_contra negative
    have := mul_neg_of_neg_of_pos (not_le.mp negative) issued
    have := mul_nonneg x_nonneg (by omega : 0 ≤ shares - burnt)
    omega
  · by_contra none_left
    have := mul_nonpos_of_nonpos_of_nonneg (not_lt.mp none_left) issued.le
    have := mul_pos stocked others
    omega

/-- Every change keeps the stock sound, by cases on the change. -/
theorem Change.sound (h : s.Change s') (sound : s.Sound) : s'.Sound := by
  obtain ⟨lc_nonneg, lc_word, hbd_nonneg, hbd_word, shares_word, funded⟩ := sound
  cases h with
  | deposit lcIn hbdIn shares lc_pos hbd_pos lc_fits hbd_fits earned word priced =>
      exact ⟨by dsimp only; omega, lc_fits, by dsimp only; omega, hbd_fits, i64_mem _, fun _ => by
        dsimp only
        omega⟩
  | withdraw burnt lcOut hbdOut some le lcOut_nonneg lcOut_le hbdOut_nonneg hbdOut_le =>
      obtain ⟨lc_left, lc_funded⟩ := left_of_withdraw lc_nonneg some le lcOut_le
      obtain ⟨hbd_left, hbd_funded⟩ := left_of_withdraw hbd_nonneg some le hbdOut_le
      have shares_lt := shares_word.upper
      obtain ⟨stocked, stocked'⟩ := funded (by omega)
      exact ⟨lc_left, by dsimp only; omega, hbd_left, by dsimp only; omega,
        ⟨by dsimp only; omega, by dsimp only; omega⟩,
        fun others => ⟨lc_funded others stocked, hbd_funded others stocked'⟩⟩
  | sellLC lcIn out some fits floor positive left =>
      exact ⟨by dsimp only; omega, fits, by dsimp only; omega, by dsimp only; omega, shares_word,
        fun _ => by dsimp only; omega⟩
  | buyLC hbdIn out some fits floor positive left =>
      exact ⟨by dsimp only; omega, by dsimp only; omega, by dsimp only; omega, fits, shares_word,
        fun _ => by dsimp only; omega⟩

/-- No change takes from what a share is worth, by cases on the change. -/
theorem Change.worth_le (h : s.Change s') (sound : s.Sound) (issued : 0 < s.shares)
    (issued' : 0 < s'.shares)
    : s.worth ≤ s'.worth := by
  obtain ⟨lc_pos, hbd_pos⟩ := sound.funded issued
  have shares_lt := sound.shares_word.upper
  unfold Stock.worth
  cases h with
  | deposit lcIn hbdIn shares lcIn_pos hbdIn_pos lc_fits hbd_fits earned word priced =>
      obtain ⟨price, floor⟩ := priced issued
      -- a sum past the word is negative, so these shares are the exact sum
      have sum : i64 (s.shares + shares) = s.shares + shares := by
        simp only [i64] at *
        omega
      simp only [sum]
      refine ConstantProduct.worth_le (by exact_mod_cast issued) ?_ (by exact_mod_cast lc_pos.le)
        (by exact_mod_cast hbd_pos.le) ?_ ?_
      · exact_mod_cast show 0 < s.shares + shares by omega
      · exact_mod_cast floor ▸ deposit_floor lc_pos
      · exact_mod_cast floor ▸ deposit_priced lc_pos hbd_pos.le issued.le price
  | withdraw burnt lcOut hbdOut some le lcOut_nonneg lcOut_le hbdOut_nonneg hbdOut_le =>
      refine ConstantProduct.worth_le (by exact_mod_cast issued) (by exact_mod_cast issued')
        (by exact_mod_cast lc_pos.le) (by exact_mod_cast hbd_pos.le) ?_ ?_
      · exact_mod_cast withdraw_floor issued lcOut_le
      · exact_mod_cast withdraw_floor issued hbdOut_le
  | sellLC lcIn out some fits floor positive left =>
      refine worth_trade ?_
      exact_mod_cast floor ▸ trade_floor (show 0 < s.lc + lcIn by omega)
  | buyLC hbdIn out some fits floor positive left =>
      refine worth_trade ?_
      rw [mul_comm (s.lc : ℚ), mul_comm ((s.lc - out : Int) : ℚ)]
      exact_mod_cast floor ▸ trade_floor (show 0 < s.hbd + hbdIn by omega)

end Stock

-----------------------------------------------------------------------------------------
-- The stock of the rows
-----------------------------------------------------------------------------------------

/-- The stock that the rows hold. -/
def stockOf (r : Rows) : Stock :=
  ⟨r.getAmount .poolLC, r.getAmount .poolHBD, r.getAmount .poolShares⟩

variable {o : Origin} {whole : Prop} {r r' : Rows}

theorem Touches.stockOf {sides : List Side} (h : Touches sides r r')
    (away : sides.contains .reserves = false)
    : stockOf r' = stockOf r := by
  simp only [State.stockOf, h.amount .poolLC away, h.amount .poolHBD away,
    h.amount .poolShares away]

/-- The reserves hold a deposit of `hbdIn`, which is some HBD. -/
def DepositFits (r : Rows) (lcIn hbdIn : Int) : Prop :=
  0 < hbdIn ∧ r.getAmount .poolLC + lcIn < 2 ^ 63 ∧ r.getAmount .poolHBD + hbdIn < 2 ^ 63

instance (r : Rows) (lcIn hbdIn : Int) : Decidable (DepositFits r lcIn hbdIn) :=
  inferInstanceAs (Decidable (_ ∧ _ ∧ _))

/-- Where the operation succeeds as a deposit, the reserves that it found hold it. -/
def Origin.depositFits (o : Origin) (whole : Prop) : Prop :=
  ∀ lcIn maxHbd, o.action = .addLiquidity lcIn maxHbd → whole
    → ∀ hbdIn ∈ (hbdForDeposit o.start lcIn.toInt maxHbd.toInt).toOption,
      DepositFits o.start lcIn.toInt hbdIn

/-- A priced deposit that the reserves hold is a change of the stock, by cases on whether the
pool is empty.
-/
theorem depositRows_change {lcIn maxHbd hbdIn shares : Int} (sound : (stockOf r).Sound)
    (positive : 0 < lcIn) (word : lcIn < 2 ^ 63)
    (priced : hbdForDeposit r lcIn maxHbd = .ok hbdIn) (fits : DepositFits r lcIn hbdIn)
    (earned : shares
      = (lpSharesFor lcIn (r.getAmount .poolLC) (r.getAmount .poolShares)).getD 0)
    (some_earned : 0 < shares)
    : (stockOf r).Change (stockOf (depositRows r lcIn hbdIn shares)) := by
  obtain ⟨hbd_pos, lc_fits, hbd_fits⟩ := fits
  have lc_nonneg : 0 ≤ r.getAmount .poolLC := sound.lc_nonneg
  have hbd_nonneg : 0 ≤ r.getAmount .poolHBD := sound.hbd_nonneg
  have rows : stockOf (depositRows r lcIn hbdIn shares)
      = ⟨r.getAmount .poolLC + lcIn, r.getAmount .poolHBD + hbdIn,
        i64 (r.getAmount .poolShares + shares)⟩ := by
    simp [stockOf, depositRows, i64_of_nonneg (add_nonneg lc_nonneg positive.le) lc_fits,
      i64_of_nonneg (add_nonneg hbd_nonneg hbd_pos.le) hbd_fits]
  rw [rows]
  by_cases issued : 0 < r.getAmount .poolShares
  · obtain ⟨lc_pos, hbd_stocked⟩ := sound.funded issued
    have lc_pos : 0 < r.getAmount .poolLC := lc_pos
    cases minted : lpSharesFor lcIn (r.getAmount .poolLC) (r.getAmount .poolShares) with
    | none =>
        rw [minted] at earned
        simp only [Option.getD_none] at earned
        omega
    | some s =>
        obtain ⟨floor, s_lt⟩ := lpSharesFor_eq_some lc_pos issued minted
        obtain rfl : shares = s := by rw [earned, minted, Option.getD_some]
        refine .deposit lcIn hbdIn shares positive hbd_pos lc_fits hbd_fits some_earned s_lt
          fun _ => ⟨?_, floor⟩
        unfold hbdForDeposit at priced
        dsimp only at priced
        have stocked : ¬(r.getAmount .poolShares ≤ 0 ∨ r.getAmount .poolLC ≤ 0
            ∨ r.getAmount .poolHBD ≤ 0) := by
          simp only [stockOf] at hbd_stocked
          omega
        rw [if_neg stocked] at priced
        split at priced
        · cases priced
        rename_i need required
        split at priced
        · cases priced
        · cases priced
          exact hbdRequiredFor_price word required hbd_pos
  · rw [lpSharesFor_first positive (.inl (not_lt.mp issued)), Option.getD_some] at earned
    subst earned
    exact .deposit shares hbdIn shares positive hbd_pos lc_fits hbd_fits positive word
      fun h => absurd h issued

/-- What a withdrawal takes of a reserve is a part of it. -/
theorem part_le {x burnt shares : Int} (x_nonneg : 0 ≤ x) (some : 0 < burnt) (le : burnt ≤ shares)
    : 0 ≤ x * burnt / shares ∧ x * burnt / shares ≤ x :=
  ⟨Int.ediv_nonneg (mul_nonneg x_nonneg some.le) (some.le.trans le),
    Int.ediv_le_of_le_mul (some.trans_le le) (mul_le_mul_of_nonneg_left le x_nonneg)⟩

/-- What a withdrawal leaves, whatever dust it withholds. -/
theorem takeFromPool_stock {t : Tranche} {lcOut hbdOut paid : Int} (sound : (stockOf r).Sound)
    (amounts : withdrawAmounts t.shares (r.getAmount .poolShares) (r.getAmount .poolLC)
      (r.getAmount .poolHBD) = some (lcOut, hbdOut))
    (dust : PaidHbd hbdOut paid)
    : stockOf (takeFromPool r t lcOut paid)
        = ⟨(stockOf r).lc - lcOut, (stockOf r).hbd - paid, (stockOf r).shares - t.shares⟩
      ∧ 0 < t.shares ∧ t.shares ≤ (stockOf r).shares
      ∧ lcOut = (stockOf r).lc * t.shares / (stockOf r).shares
      ∧ 0 ≤ paid ∧ paid ≤ (stockOf r).hbd * t.shares / (stockOf r).shares := by
  obtain ⟨lc_nonneg, lc_lt, hbd_nonneg, hbd_lt, shares_word, funded⟩ := sound
  simp only [stockOf] at lc_nonneg lc_lt hbd_nonneg hbd_lt shares_word
  have shares_lt := shares_word.upper
  obtain ⟨some, le, rfl, rfl⟩ := withdrawAmounts_eq_some lc_nonneg hbd_nonneg amounts
  obtain ⟨lcOut_nonneg, lcOut_le⟩ := part_le lc_nonneg some le
  obtain ⟨hbdOut_nonneg, hbdOut_le⟩ := part_le hbd_nonneg some le
  have paid_part : 0 ≤ paid
      ∧ paid ≤ r.getAmount .poolHBD * t.shares / r.getAmount .poolShares := by
    rcases dust with rfl | ⟨_, _, rfl⟩
    · exact ⟨hbdOut_nonneg, le_rfl⟩
    · exact ⟨le_rfl, hbdOut_nonneg⟩
  refine ⟨?_, some, le, rfl, paid_part⟩
  simp [stockOf, takeFromPool, i64_of_nonneg (sub_nonneg.mpr lcOut_le) (by omega),
    i64_of_nonneg (sub_nonneg.mpr (paid_part.2.trans hbdOut_le)) (by omega),
    i64_of_nonneg (sub_nonneg.mpr le) (by omega)]

/-- A withdrawal is a change of the stock. -/
theorem takeFromPool_change {t : Tranche} {lcOut hbdOut paid : Int} (sound : (stockOf r).Sound)
    (amounts : withdrawAmounts t.shares (r.getAmount .poolShares) (r.getAmount .poolLC)
      (r.getAmount .poolHBD) = some (lcOut, hbdOut))
    (dust : PaidHbd hbdOut paid)
    : (stockOf r).Change (stockOf (takeFromPool r t lcOut paid)) := by
  obtain ⟨rows, some, le, rfl, paid_nonneg, paid_le⟩ := takeFromPool_stock sound amounts dust
  rw [rows]
  exact .withdraw t.shares _ paid some le (part_le sound.lc_nonneg some le).1 le_rfl paid_nonneg
    paid_le

/-- Closing the tranche leaves the stock alone. -/
theorem withdrawn_stock {owner : String} {id : Nat} {t : Tranche} {lcOut paid : Int}
    (noted : r' = takeFromPool r t lcOut paid ∨ r' = noteAccount (takeFromPool r t lcOut paid) owner)
    : stockOf (r'.putTranche id { t with closed := true, weight := 0 })
      = stockOf (takeFromPool r t lcOut paid) := by
  refine ((Touches.refl r').putTranche id _ (by rfl) : Touches [.tranches] _ _).stockOf rfl |>.trans ?_
  rcases noted with rfl | rfl
  · rfl
  · exact ((Touches.refl _).noteAccount owner (by rfl) : Touches [.roll] _ _).stockOf (by rfl)

/-- So are the trades. -/
theorem sellLC_change {lcIn : Int64} {out : Int} (sound : (stockOf r).Sound)
    (swap : swapOut (r.getAmount .poolLC) (r.getAmount .poolHBD) lcIn.toInt = some out)
    : (stockOf r).Change (stockOf
        ((r.setAmount .poolLC (i64 (r.getAmount .poolLC + lcIn.toInt))).setAmount .poolHBD
          (i64 (r.getAmount .poolHBD - out)))) := by
  have hbd_lt : r.getAmount .poolHBD < 2 ^ 63 := sound.hbd_word
  obtain ⟨lc_pos, in_pos, sum, floor, out_pos, left⟩ := swapOut_eq_some
    (show r.getAmount .poolLC < 2 ^ 63 from sound.lc_word) (Int64.toInt_lt lcIn) swap
  have rows : stockOf ((r.setAmount .poolLC (i64 (r.getAmount .poolLC + lcIn.toInt))).setAmount
        .poolHBD (i64 (r.getAmount .poolHBD - out)))
      = ⟨r.getAmount .poolLC + lcIn.toInt, r.getAmount .poolHBD - out, r.getAmount .poolShares⟩ := by
    simp [stockOf, i64_of_nonneg (add_nonneg lc_pos.le in_pos.le) sum,
      i64_of_nonneg (sub_nonneg.mpr left.le) (by omega)]
  rw [rows]
  exact .sellLC lcIn.toInt out in_pos sum floor out_pos left

theorem buyLC_change {hbdIn : Int64} {out : Int} (sound : (stockOf r).Sound)
    (swap : swapOut (r.getAmount .poolHBD) (r.getAmount .poolLC) hbdIn.toInt = some out)
    : (stockOf r).Change (stockOf
        ((r.setAmount .poolHBD (i64 (r.getAmount .poolHBD + hbdIn.toInt))).setAmount .poolLC
          (i64 (r.getAmount .poolLC - out)))) := by
  have lc_lt : r.getAmount .poolLC < 2 ^ 63 := sound.lc_word
  obtain ⟨hbd_pos, in_pos, sum, floor, out_pos, left⟩ := swapOut_eq_some
    (show r.getAmount .poolHBD < 2 ^ 63 from sound.hbd_word) (Int64.toInt_lt hbdIn) swap
  have rows : stockOf ((r.setAmount .poolHBD (i64 (r.getAmount .poolHBD + hbdIn.toInt))).setAmount
        .poolLC (i64 (r.getAmount .poolLC - out)))
      = ⟨r.getAmount .poolLC - out, r.getAmount .poolHBD + hbdIn.toInt, r.getAmount .poolShares⟩ := by
    simp [stockOf, i64_of_nonneg (add_nonneg hbd_pos.le in_pos.le) sum,
      i64_of_nonneg (sub_nonneg.mpr left.le) (by omega)]
  rw [rows]
  exact .buyLC hbdIn.toInt out in_pos sum floor out_pos left

/-- Every step leaves the stock alone or changes it, by cases on the step. Only a deposit, which
starts from the rows that its operation found, puts shares into an empty pool.
-/
theorem Step.stock (h : Step o whole r r') (sound : (stockOf r).Sound)
    (fits : o.depositFits whole)
    : stockOf r' = stockOf r ∨ (stockOf r).Change (stockOf r')
      ∧ (0 < (stockOf r').shares → 0 < (stockOf r).shares ∨ r = o.start) := by
  cases h with
  | ledger step => exact .inl (step.touches.stockOf rfl)
  | mint step => exact .inl (step.touches.stockOf rfl)
  | content step => exact .inl (step.touches.stockOf rfl)
  | migration step => exact .inl (step.touches.stockOf rfl)
  | liquidity step =>
      have issued {burnt : Int} (le : burnt ≤ r.getAmount .poolShares) (some : 0 < burnt)
          : 0 < (stockOf r).shares := some.trans_le le
      cases step with
      | settle owner id t asked accrued found going own =>
          exact .inl ((settleRows_touches r _ id t).stockOf (by rfl))
      | touch id t found going =>
          exact .inl (((Touches.refl r).putTranche id _ (by rfl) : Touches [.tranches] _ _).stockOf (by rfl))
      | deposit done lcIn maxHbd hbdIn shares r₁ asked first positive priced earned some_earned
          accrues strides =>
          obtain ⟨opened, accrued⟩ := deposited_touches accrues o.ctx
          have change := depositRows_change sound positive (Int64.toInt_lt lcIn) priced
            (by subst first; exact fits lcIn maxHbd asked done hbdIn (by rw [priced]; rfl)) earned some_earned
          rw [← (accrued.stockOf rfl), ← (opened.stockOf rfl)] at change
          exact .inr ⟨change, fun _ => .inr first⟩
      | withdraw asked owner id t lcOut hbdOut paid r₁ found going own amounts dust noted =>
          have change := takeFromPool_change sound amounts dust
          rw [withdrawn_stock noted]
          obtain ⟨some, le, _⟩ := withdrawAmounts_eq_some sound.lc_nonneg sound.hbd_nonneg amounts
          exact .inr ⟨change, fun _ => .inl (issued le some)⟩
      | strand torn asked owner id t lcOut hbdOut paid found going own amounts dust =>
          obtain ⟨some, le, _⟩ := withdrawAmounts_eq_some sound.lc_nonneg sound.hbd_nonneg amounts
          exact .inr ⟨takeFromPool_change sound amounts dust, fun _ => .inl (issued le some)⟩
      | sellLC lcIn minOut out asked swap =>
          exact .inr ⟨sellLC_change sound swap, fun shares => .inl (by simpa [stockOf] using shares)⟩
      | buyLC hbdIn minOut out asked swap =>
          exact .inr ⟨buyLC_change sound swap, fun shares => .inl (by simpa [stockOf] using shares)⟩

/-- What the steps of an operation keep: the stock stays sound, and what a share was worth when
the operation began.
-/
structure Preserves (o : Origin) (r : Rows) : Prop where
  sound : (stockOf r).Sound
  kept : 0 < (stockOf o.start).shares → 0 < (stockOf r).shares
    → (stockOf o.start).worth ≤ (stockOf r).worth

theorem Preserves.step (h : Preserves o r) (step : Step o whole r r') (fits : o.depositFits whole)
    : Preserves o r' := by
  rcases step.stock h.sound fits with same | ⟨change, shares⟩
  · exact ⟨same ▸ h.sound, same ▸ h.kept⟩
  · refine ⟨change.sound h.sound, fun issued issued' => ?_⟩
    have here : 0 < (stockOf r).shares := by
      rcases shares issued' with here | rfl
      · exact here
      · exact issued
    exact (h.kept issued here).trans (change.worth_le h.sound here issued')

section Requests

variable {A : Type} [Assets A]

/-- Where the request succeeds as a deposit, the reserves that it finds hold it: the HBD that it
is priced at is positive, and neither reserve reaches 2^63 with it.
-/
def Request.depositFits (w : World A) (q : Request) : Prop :=
  (q.origin w).depositFits ((q.exec w).2.ok = true)

/-- A request keeps the stock sound and what a share is worth, by its steps. -/
theorem Request.exec_worth {q : Request} {w : World A} (sound : (stockOf w.rows).Sound)
    (fits : q.depositFits w)
    : (stockOf (q.exec w).1.rows).Sound
      ∧ (0 < (stockOf w.rows).shares → 0 < (stockOf (q.exec w).1.rows).shares
        → (stockOf w.rows).worth ≤ (stockOf (q.exec w).1.rows).worth) := by
  have preserves : Preserves (q.origin w) (q.exec w).1.rows :=
    (q.exec_steps w).keep (fun r r' h step => h.step step fits) ⟨sound, fun _ _ => le_rfl⟩
  exact ⟨preserves.sound, preserves.kept⟩

/-- A run that meets the guard, by induction on its requests. -/
theorem Run.worth {w : World A} {now : Nat} {requests : List Request}
    (run : Run (fun w q => q.depositFits w) w now requests) (sound : (stockOf w.rows).Sound)
    (issued : ∀ first, first <+: requests → 0 < (stockOf (after w first).rows).shares)
    : (stockOf w.rows).worth ≤ (stockOf (after w requests).rows).worth := by
  induction requests generalizing w now with
  | nil => exact le_rfl
  | cons q rest ih =>
      obtain ⟨_, fits, tail⟩ := run
      obtain ⟨sound', kept⟩ := Request.exec_worth sound fits
      have here := issued [] (List.nil_prefix)
      have next := issued [q] (List.prefix_append [q] rest)
      refine (kept here next).trans (ih tail sound' fun first start => ?_)
      exact issued (q :: first) (List.prefix_cons_inj q |>.mpr start)

theorem Run.sound {w : World A} {now : Nat} {requests : List Request}
    (run : Run (fun w q => q.depositFits w) w now requests) (sound : (stockOf w.rows).Sound)
    : (stockOf (after w requests).rows).Sound :=
  run.invariant (I := fun _ w => (stockOf w.rows).Sound)
    (fun _ _ _ h _ fits => (Request.exec_worth h fits).1) sound

-----------------------------------------------------------------------------------------
-- Liquidity is never diluted
-----------------------------------------------------------------------------------------

/-- Initialising a fresh store leaves the pool empty. -/
theorem initialised_stock (store : Store) (assets : A) (genesis : UInt64)
    (fresh : store.rows = .empty)
    : (stockOf (initialised store assets genesis).rows).Sound := by
  rw [((initialised_touches store assets genesis fresh).stockOf rfl)]
  exact ⟨le_rfl, by decide, le_rfl, by decide, ⟨by decide, by decide⟩, by decide⟩

/-- While the pool has shares, no sequence of requests whose deposits fit the reserves takes from
what a share is worth, nor from its claim by the geometric mean of the reserves.
-/
theorem share_worth_never_falls (store : Store) (assets : A) (genesis : UInt64)
    (before during : List Request) (fresh : store.rows = .empty)
    (run : Run (fun w q => q.depositFits w) (initialised store assets genesis) 0
      (before ++ during))
    (issued : ∀ first, first <+: during
      → 0 < (stockOf (after (initialised store assets genesis) (before ++ first)).rows).shares)
    : let s := stockOf (after (initialised store assets genesis) before).rows
      let s' := stockOf (after (initialised store assets genesis) (before ++ during)).rows
      s.worth ≤ s'.worth ∧ s.mean ≤ s'.mean := by
  obtain ⟨first, second⟩ := run.append
  have sound := first.sound (initialised_stock store assets genesis fresh)
  simp only [after_append] at issued ⊢
  have worth := second.worth sound issued
  exact ⟨worth, Stock.mean_le (issued [] List.nil_prefix) (issued during List.prefix_rfl) worth⟩

end Requests

/-- A second deposit and a trade keep what a share is worth after the first deposit. -/
theorem share_worth_small_deposits
    : let w := initialised Store.newMem MemAssets.new 1
      let before : List Request :=
        [⟨{ sender := "hive:owner", height := 1 },
            .creditMigration "hive:a" 300000000000 0, true⟩,
          ⟨{ sender := "hive:a", height := 2 }, .addLiquidity 100000000000 50000000000, true⟩]
      let during : List Request :=
        [⟨{ sender := "hive:a", height := 3 }, .addLiquidity 333 1000, true⟩,
          ⟨{ sender := "hive:a", height := 4 }, .swapLCForHBD 70000000 1, true⟩]
      (stockOf (after w before).rows).worth ≤ (stockOf (after w (before ++ during)).rows).worth
        ∧ (stockOf (after w before).rows).mean ≤ (stockOf (after w (before ++ during)).rows).mean := by
  intro w before during
  refine share_worth_never_falls Store.newMem MemAssets.new 1 before during rfl
    ⟨by decide, nofun, by decide, ?_, by decide, ?_, by decide, nofun, trivial⟩ ?_
  · intro lcIn maxHbd asked _
    cases asked
    decide +kernel
  · intro lcIn maxHbd asked _
    cases asked
    decide +kernel
  · have issued : ∀ first ∈ during.inits,
        0 < (stockOf (after w (before ++ first)).rows).shares := by
      decide +kernel
    exact fun first start => issued first (List.mem_inits first during |>.mpr start)

/-- A second deposit takes the HBD reserve past the largest word, where it wraps: the reserve is
negative, and so is what a share is worth.
-/
theorem share_worth_lost_by_wrap
    : let w := initialised Store.newMem MemAssets.new 1
      let before : List Request :=
        [⟨{ sender := "hive:owner", height := 1 },
            .creditMigration "hive:a" 200000000000 0, true⟩,
          ⟨{ sender := "hive:a", height := 2 },
            .addLiquidity 100000000000 9223372036854775807, true⟩]
      let deposit : Request :=
        ⟨{ sender := "hive:a", height := 3 }, .addLiquidity 100000000 9223372036854775807, true⟩
      (results w (before ++ [deposit])).all Result.ok = true
        ∧ 0 < (stockOf (after w before).rows).shares
        ∧ 0 < (stockOf (after w (before ++ [deposit])).rows).shares
        ∧ (stockOf (after w (before ++ [deposit])).rows).worth
          < (stockOf (after w before).rows).worth := by
  decide +kernel

end LasseCash.State
