import LasseCash.Api.Answers
import LasseCash.Lib.DoubleRounding

/-! The RC limit that a call is sent with, `sizeRc` of `api/src/aioha-signer.ts`: sized by a dry run
and by the account's meter. A JavaScript number is the rational that its double holds.
-/

namespace LasseCash.Api

open App DoubleRounding

-----------------------------------------------------------------------------------------
-- Numbers
-----------------------------------------------------------------------------------------

def minus (x y : ℚ) : ℚ := toDouble (x - y)

def plus (x y : ℚ) : ℚ := toDouble (x + y)

def times (x y : ℚ) : ℚ := toDouble (x * y)

def quotient (x y : ℚ) : ℚ := toDouble (x / y)

/-- The whole part of a number, toward zero. -/
def trunc (x : ℚ) : ℤ := if 0 ≤ x then ⌊x⌋ else ⌈x⌉

def gasPerRc : ℚ := 100000

/-- Headroom over the simulated figure. -/
def rcHeadroom : ℚ := 3

/-- Never freeze more than this for one call. -/
def rcCeiling : ℚ := 30000

/-- Slack between what a call draws and the balance it is checked against. -/
def probeMarginMilli : ℚ := 1000

-----------------------------------------------------------------------------------------
-- The wallet and the page
-----------------------------------------------------------------------------------------

/-- A call that is broadcast immediately before another. -/
structure Precall where
  contractId : Option String
  action : String
  payload : String

/-- What a dry run answers. -/
inductive DryRun
  | ran (gas : ℕ)
  | refused (msg : String) (gasLimitHit : Bool)

/-- The wallet's answers: the meter where it is readable, and dry runs where they do not throw. -/
structure AiohaWallet where
  availableRc : Option ℚ
  maxRc : Option ℚ
  simulate (entrypoint args : String) (intents : List Intent) (probeRcLimit : Option ℚ)
    (precall : Option Precall) : Option DryRun

/-- The page around the signer: how it writes numbers, and the question that it may ask. -/
structure Page where
  toLocaleString : ℚ → String
  toFixed : ℚ → String
  confirmUnreadableRc : Option (ℚ → Bool)

/-- Whether a text mentions some words, in whatever case. -/
def mentions (words text : String) : Bool := words.toList <:+: text.toList.map Char.toLower

variable (s : AiohaSigner) (w : AiohaWallet) (page : Page)

/-- The one wording for being out of credits. -/
def rcRefusal (needed avail : ℚ) (max : Option ℚ) : TxResult :=
  let hbd (gap : ℚ) : String := page.toFixed (quotient ⌈quotient gap 10⌉ 100)
  let head := "Needs ~" ++ page.toLocaleString needed ++ " credits, you have "
    ++ page.toLocaleString avail ++ ". "
  let refill : TxResult := {
    ok := false
    msg := head ++ "Add ~" ++ hbd (minus needed avail)
      ++ " HBD on MAGI (Wallet → Move funds) to fix it at once, "
      ++ "or wait: credits refill over 5 days." }
  match max with
  | none => refill
  | some max =>
      if needed > max then {
        ok := false
        msg := head ++ "That is more than your meter can hold (" ++ page.toLocaleString max
          ++ "), so waiting " ++ "will not help. Add ~" ++ hbd (minus needed max)
          ++ " HBD on MAGI (Wallet → Move funds); it works at once." }
      else refill

-----------------------------------------------------------------------------------------
-- Sizing
-----------------------------------------------------------------------------------------

/-- The milli-HBD that a call draws, where its argument tells. -/
def drawMilli (entrypoint args : String) : Option ℚ :=
  (hbdDrawOps.lookup entrypoint).bind fun idx =>
    let raw := trim ((field args idx).getD "")
    if allDigits raw then
      (numeral raw.toList).map fun n => toDouble (((n + 99999) / 100000 : ℕ) : ℤ)
    else none

/-- What an account has left beside what the call draws. -/
def roomBeside (avail draw : ℚ) : ℚ := minus (minus (trunc avail) draw) probeMarginMilli

/-- The limit that the dry run is probed with. -/
def probeRcLimit (entrypoint args : String) (tableLimit : ℕ) : Option ℚ :=
  if (hbdDrawOps.lookup entrypoint).isSome then
    match w.availableRc, drawMilli entrypoint args with
    | some avail, some draw =>
        some (max tableLimit (min rcCeiling (max 0 (roomBeside avail draw))))
    | _, _ => some tableLimit
  else none

/-- The dry run of a call, with the allowance that rides with it. -/
def dryRun (entrypoint args : String) (intents : List Intent) (tableLimit : ℕ) : Option DryRun :=
  w.simulate entrypoint args intents (probeRcLimit w entrypoint args tableLimit)
    ((s.allowanceCall entrypoint args).map fun c => ⟨c.contractId, c.action, c.payload⟩)

/-- What the page is told of a call that the dry run refuses. -/
def refusalOf (entrypoint msg : String) (gasLimitHit : Bool) : TxResult :=
  let text :=
    if mentions "wasm function not found" msg then
      "This page is out of date — reload it (Ctrl+Shift+R, or Cmd+Shift+R on a Mac) and try again."
    else if gasLimitHit then
      "this call would exceed the per-call gas ceiling — call advance first to close the "
        ++ "accrual gap"
    else if "Insufficient balance".toList <:+: msg.toList then
      "The contract could not pay this out: its token reported too "
        ++ "little backing. That should not happen since the 4 October fix — "
        ++ "please report it on the LasseCash Discord. Your position is safe "
        ++ "and recorded on chain, and nothing has been spent."
    else if (hbdDrawOps.lookup entrypoint).isSome ∧ mentions "insufficient balance" msg then
      "Not enough RC — hold more HBD on MAGI, it's free RC."
    else msg
  { ok := false, msg := text }

/-- The credits that a dry run's gas amounts to. -/
def needOf (gas : ℕ) : ℚ := ⌈quotient (toDouble gas) gasPerRc⌉

/-- The limit that is asked for where the meter allows it. -/
def sizedFor (tableLimit : ℕ) (need : ℚ) : ℚ :=
  min rcCeiling (max tableLimit (times need rcHeadroom))

/-- Measured costs are a part of the table's limits; a walk is cut to what the account holds. -/
def tableFloor (entrypoint : String) (tableLimit : ℕ) : ℚ :=
  if entrypoint = "advance" then 0 else ⌈times tableLimit (toDouble (3 / 5))⌉

/-- What the call cannot do without. -/
def floorFor (entrypoint : String) (tableLimit : ℕ) (need : ℚ) : ℚ :=
  max (⌈times need (toDouble (13 / 10))⌉ : ℚ) (tableFloor entrypoint tableLimit)

/-- The limit for a call, or why it is not sent. -/
def sizeRc (entrypoint args : String) (intents : List Intent) (tableLimit : ℕ)
    : Except TxResult ℚ :=
  match dryRun s w entrypoint args intents tableLimit with
  | none =>
      match w.availableRc with
      | some avail =>
          if avail < tableLimit then .error (rcRefusal page tableLimit avail w.maxRc)
          else .ok tableLimit
      | none => .ok tableLimit
  | some (.refused msg gasLimitHit) => .error (refusalOf entrypoint msg gasLimitHit)
  | some (.ran gas) =>
      let need := needOf gas
      let sized := sizedFor tableLimit need
      let floor := floorFor entrypoint tableLimit need
      match w.availableRc with
      | some avail =>
          match drawMilli entrypoint args with
          | some draw =>
              let room := roomBeside avail draw
              if room < floor then
                .error (rcRefusal page (plus (plus floor draw) probeMarginMilli) (trunc avail)
                  w.maxRc)
              else .ok (min sized room)
          | none =>
              if sized > avail then
                if avail < floor then .error (rcRefusal page floor avail w.maxRc) else .ok avail
              else .ok sized
      | none =>
          match page.confirmUnreadableRc with
          | some confirm =>
              if confirm floor then .ok sized
              else .error { ok := false, msg := "Cancelled — nothing was sent, no credits used." }
          | none => .ok sized

-----------------------------------------------------------------------------------------
-- What rounding keeps
-----------------------------------------------------------------------------------------

/-- More than a sixteenth above a whole number, a number is not rounded down to it. -/
theorem le_ceil_toDouble {n : ℤ} (nonneg : 0 ≤ n) (small : n ≤ 2 ^ 48) {x : ℚ}
    (above : (n : ℚ) - 1 + 1 / 16 ≤ x)
    : n ≤ ⌈toDouble x⌉ := by
  have double := toDouble_dyadic (16 * n - 15) (-4) (abs_le.mpr (by omega))
  have value : ((16 * n - 15 : ℤ) : ℚ) * 2 ^ (-4 : ℤ) = n - 1 + 1 / 16 := by
    norm_num
    ring
  rw [value] at double
  have kept := toDouble_lower double above
  have below : ((n - 1 : ℤ) : ℚ) < toDouble x := by
    push_cast
    linarith
  have ceil := Int.lt_ceil.mpr below
  omega

/-- A count of credits is kept up to the ceiling. -/
theorem min_le_toDouble {n : ℤ} (nonneg : 0 ≤ n) : min rcCeiling n ≤ toDouble n := by
  rcases le_or_gt n 30000 with small | large
  · rw [toDouble_intCast n (abs_le.mpr (by omega))]
    exact min_le_right _ _
  · have more : (30000 : ℚ) ≤ n := by exact_mod_cast large.le
    exact (min_le_left _ _).trans (toDouble_lower (toDouble_intCast 30000 (by decide)) more)

theorem needOf_whole (gas : ℕ) : ∃ n : ℤ, 0 ≤ n ∧ needOf gas = n := by
  refine ⟨_, Int.ceil_nonneg (toDouble_nonneg ?_), rfl⟩
  exact div_nonneg (toDouble_nonneg (Nat.cast_nonneg gas)) (by decide)

/-- Thirteen tenths of what a call needs are within the ceiling or kept. -/
theorem min_le_headroom {n : ℤ} (nonneg : 0 ≤ n)
    : min rcCeiling (13 / 10 * n) ≤ (⌈times n (toDouble (13 / 10))⌉ : ℚ) := by
  have factor : (13 / 10 : ℚ) ≤ toDouble (13 / 10) := by decide +kernel
  have real : (0 : ℚ) ≤ n := by exact_mod_cast nonneg
  have more : 13 / 10 * (n : ℚ) ≤ n * toDouble (13 / 10) := by
    rw [mul_comm]
    exact mul_le_mul_of_nonneg_left factor real
  have whole : (((13 * n + 9) / 10 : ℤ) : ℚ) ≤ 13 / 10 * n + 9 / 10
      ∧ 13 / 10 * n ≤ (((13 * n + 9) / 10 : ℤ) : ℚ) := by
    have parts := Int.mul_ediv_add_emod (13 * n + 9) 10
    have low := Int.emod_nonneg (13 * n + 9) (by decide : (10 : ℤ) ≠ 0)
    have high := Int.emod_lt_of_pos (13 * n + 9) (by decide : (0 : ℤ) < 10)
    generalize (13 * n + 9) / 10 = q at parts
    have upper : 10 * q ≤ 13 * n + 9 := by omega
    have lower : 13 * n ≤ 10 * q := by omega
    have upper' : 10 * (q : ℚ) ≤ 13 * n + 9 := by exact_mod_cast upper
    have lower' : 13 * (n : ℚ) ≤ 10 * q := by exact_mod_cast lower
    constructor <;> linarith
  rcases le_or_gt n 30000 with small | large
  · refine (min_le_right _ _).trans (whole.2.trans ?_)
    exact_mod_cast le_ceil_toDouble (x := n * toDouble (13 / 10)) (by omega) (by omega)
      (by linarith [whole.1])
  · refine (min_le_left _ _).trans (le_trans ?_ (Int.le_ceil _))
    have large : (30000 : ℚ) < n := by exact_mod_cast large
    have enough : (30000 : ℚ) ≤ n * toDouble (13 / 10) := by linarith
    exact toDouble_lower (toDouble_intCast 30000 (by decide)) enough

/-- Three fifths of the table's limit are kept. -/
theorem le_tableFloor {tableLimit : ℕ} (most : tableLimit ≤ 30000)
    : 3 / 5 * (tableLimit : ℚ) ≤ (⌈times tableLimit (toDouble (3 / 5))⌉ : ℚ) := by
  have factor : (3 / 5 - 1 / 2 ^ 40 : ℚ) ≤ toDouble (3 / 5) := by decide +kernel
  have upper : 5 * ((3 * tableLimit + 4) / 5) ≤ 3 * tableLimit + 4 := Nat.mul_div_le _ _
  have lower : 3 * tableLimit ≤ 5 * ((3 * tableLimit + 4) / 5) := by omega
  generalize (3 * tableLimit + 4) / 5 = q at upper lower
  have upper' : 5 * (q : ℚ) ≤ 3 * tableLimit + 4 := by exact_mod_cast upper
  have lower' : 3 * (tableLimit : ℚ) ≤ 5 * q := by exact_mod_cast lower
  have most' : (tableLimit : ℚ) ≤ 30000 := by exact_mod_cast most
  have less : 3 / 5 * (tableLimit : ℚ) - 1 / 16 ≤ tableLimit * toDouble (3 / 5) := by
    have scaled := mul_le_mul_of_nonneg_left factor (Nat.cast_nonneg (α := ℚ) tableLimit)
    norm_num at scaled ⊢
    linarith
  have kept := le_ceil_toDouble (n := q) (x := tableLimit * toDouble (3 / 5)) (by omega)
    (by omega) (by push_cast; linarith)
  have kept' : (q : ℚ) ≤ (⌈times tableLimit (toDouble (3 / 5))⌉ : ℚ) := by exact_mod_cast kept
  linarith

-----------------------------------------------------------------------------------------
-- Limits fit the meter
-----------------------------------------------------------------------------------------

/-- What a call needs to survive: its simulated cost and three tenths more, and the part of the
table's limit that measured costs come to; a walk is exempt from the latter.
-/
def survivableFloor (entrypoint : String) (tableLimit : ℕ) (need : ℚ) : ℚ :=
  max (13 / 10 * need) (if entrypoint = "advance" then 0 else 3 / 5 * tableLimit)

variable {entrypoint args : String} {tableLimit : ℕ} {n : ℤ}

theorem survivableFloor_nonneg (nonneg : 0 ≤ n) : 0 ≤ survivableFloor entrypoint tableLimit n := by
  have real : (0 : ℚ) ≤ n := by exact_mod_cast nonneg
  exact le_max_of_le_left (mul_nonneg (by norm_num) real)

/-- The code's floor is not below it, up to the ceiling. -/
theorem min_le_floorFor (nonneg : 0 ≤ n) (most : tableLimit ≤ 30000)
    : min rcCeiling (survivableFloor entrypoint tableLimit n)
      ≤ floorFor entrypoint tableLimit n := by
  rw [survivableFloor, min_max_distrib_left]
  refine max_le_max (min_le_headroom nonneg) ((min_le_right _ _).trans ?_)
  unfold tableFloor
  split
  · exact le_rfl
  · exact le_tableFloor most

/-- Nor is what is asked for. -/
theorem min_le_sizedFor (nonneg : 0 ≤ n)
    : min rcCeiling (survivableFloor entrypoint tableLimit n) ≤ sizedFor tableLimit n := by
  have real : (0 : ℚ) ≤ n := by exact_mod_cast nonneg
  have whole : times n rcHeadroom = toDouble ((3 * n : ℤ) : ℚ) := by
    rw [times, rcHeadroom, mul_comm]
    push_cast
    rfl
  refine le_min (min_le_left _ _) ?_
  rw [survivableFloor, min_max_distrib_left, max_comm (tableLimit : ℚ)]
  refine max_le_max ?_ ((min_le_right _ _).trans ?_)
  · rw [whole]
    refine le_trans (min_le_min_left _ ?_) (min_le_toDouble (by omega))
    push_cast
    linarith
  · split
    · exact Nat.cast_nonneg _
    · have table : (0 : ℚ) ≤ tableLimit := Nat.cast_nonneg _
      linarith

/-- A draw is a whole number. -/
theorem drawMilli_whole {draw : ℚ} (draws : drawMilli entrypoint args = some draw)
    : ∃ m : ℤ, 0 ≤ m ∧ draw = m := by
  obtain ⟨idx, -, read⟩ := Option.bind_eq_some_iff.mp draws
  dsimp only at read
  split at read
  · obtain ⟨k, -, rfl⟩ := Option.map_eq_some_iff.mp read
    obtain ⟨m, whole⟩ := toDouble_whole (((k + 99999) / 100000 : ℕ) : ℤ)
    have nonneg := toDouble_nonneg (x := (((k + 99999) / 100000 : ℕ) : ℤ)) (by positivity)
    rw [whole] at nonneg ⊢
    exact ⟨m, by exact_mod_cast nonneg, rfl⟩
  · cases read

theorem trunc_le {x : ℚ} (nonneg : 0 ≤ trunc x) : (trunc x : ℚ) ≤ x ∨ trunc x = 0 := by
  unfold trunc at nonneg ⊢
  split
  · exact .inl (Int.floor_le x)
  · rename_i negative
    rw [if_neg negative] at nonneg
    exact .inr (le_antisymm (Int.ceil_le.mpr (by simpa using (not_le.mp negative).le)) nonneg)

/-- A limit within what is left beside a draw is affordable with it: what is left is exact, unless
it is negative or more than any limit.
-/
theorem le_roomBeside {avail draw L : ℚ} {m : ℤ} (whole : draw = m) (nonneg : 0 ≤ L)
    (small : L ≤ rcCeiling) (fits : L ≤ roomBeside avail draw)
    : L + draw + probeMarginMilli ≤ trunc avail := by
  have difference : (trunc avail : ℚ) - draw = ((trunc avail - m : ℤ) : ℚ) := by
    rw [whole]
    push_cast
    rfl
  have margin : probeMarginMilli = 1000 := rfl
  have ceiling : rcCeiling = 30000 := rfl
  rw [roomBeside, minus, minus, difference] at fits
  suffices left : L ≤ ((trunc avail - m : ℤ) : ℚ) - probeMarginMilli by
    rw [← difference] at left
    linarith
  generalize trunc avail - m = x at fits
  rcases lt_or_ge x 0 with negative | nonneg_x
  · have below : toDouble x ≤ 0 := by
      have le : (x : ℚ) ≤ 0 := by exact_mod_cast negative.le
      exact (toDouble_mono le).trans_eq toDouble_zero
    have least := toDouble_upper (toDouble_intCast (-1000) (by decide))
      (show toDouble x - probeMarginMilli ≤ ((-1000 : ℤ) : ℚ) by push_cast; linarith)
    push_cast at least
    linarith
  rcases le_or_gt x (2 ^ 53) with within | large
  · rw [toDouble_intCast x (abs_le.mpr (by omega))] at fits
    have exact := toDouble_intCast (x - 1000) (abs_le.mpr (by omega))
    push_cast at exact
    rwa [margin, exact] at fits
  · have large : (2 : ℚ) ^ 53 < x := by exact_mod_cast large
    norm_num at large
    linarith

/-- (Fits L avail least draw) says that a limit is within the meter, carries what the call needs,
and leaves what the call draws.
-/
structure Fits (L avail : ℚ) (least draw : Option ℚ) : Prop where
  within : L ≤ avail
  survives : ∀ l ∈ least, min rcCeiling l ≤ L
  beside : ∀ d ∈ draw, L + d + probeMarginMilli ≤ avail

variable {s w page} {intents : List Intent} {avail : ℚ}

/-- A limit that a dry run has sized fits. -/
theorem sizeRc_ran {gas : ℕ} {L : ℚ} (readable : w.availableRc = some avail)
    (most : tableLimit ≤ 30000) (ran : dryRun s w entrypoint args intents tableLimit = some (.ran gas))
    (sized : sizeRc s w page entrypoint args intents tableLimit = .ok L)
    : Fits L avail (some (survivableFloor entrypoint tableLimit (needOf gas)))
      (drawMilli entrypoint args) := by
  obtain ⟨n, nonneg, need⟩ := needOf_whole gas
  have least : min rcCeiling (survivableFloor entrypoint tableLimit n) ≤ floorFor entrypoint
      tableLimit n := min_le_floorFor nonneg most
  have asked : min rcCeiling (survivableFloor entrypoint tableLimit n) ≤ sizedFor tableLimit n :=
    min_le_sizedFor nonneg
  have some_least : 0 ≤ min rcCeiling (survivableFloor entrypoint tableLimit n) :=
    le_min (by decide) (survivableFloor_nonneg nonneg)
  unfold sizeRc at sized
  simp only [ran, readable, need] at sized
  rw [need]
  cases draws : drawMilli entrypoint args with
  | some draw =>
      simp only [draws] at sized
      split at sized
      · cases sized
      · rename_i room
        obtain rfl := Except.ok.inj sized
        have survives := le_min asked (least.trans (not_lt.mp room))
        obtain ⟨m, draw_nonneg, whole⟩ := drawMilli_whole draws
        have beside := le_roomBeside whole (some_least.trans survives)
          ((min_le_left _ _).trans (min_le_left _ _)) (min_le_right _ _)
        have real : (0 : ℚ) ≤ draw := by rw [whole]; exact_mod_cast draw_nonneg
        have margin : probeMarginMilli = 1000 := rfl
        have large : (0 : ℚ) < trunc avail := by linarith [some_least.trans survives]
        have large : 0 < trunc avail := by exact_mod_cast large
        have below := (trunc_le large.le).resolve_right large.ne'
        refine ⟨?_, ?_, ?_⟩
        · linarith [some_least.trans survives]
        · rintro _ ⟨⟩
          exact survives
        · rintro _ ⟨⟩
          exact beside.trans below
  | none =>
      simp only [draws] at sized
      refine ⟨?_, ?_, nofun⟩
      all_goals split at sized
      · split at sized
        · cases sized
        · exact (Except.ok.inj sized).ge
      · exact (Except.ok.inj sized).symm.trans_le (not_lt.mp ‹_›)
      · split at sized
        · cases sized
        · rintro _ ⟨⟩
          rw [← Except.ok.inj sized]
          exact least.trans (not_lt.mp ‹_›)
      · rintro _ ⟨⟩
        rwa [← Except.ok.inj sized]

/-- Every limit fits the meter exactly if no call that draws HBD goes out at the table's limit,
since its dry run threw, with a meter that carries the limit and not the draw besides.
-/
theorem sizeRc_fits_iff (readable : w.availableRc = some avail) (most : tableLimit ≤ 30000)
    : (∀ L, sizeRc s w page entrypoint args intents tableLimit = .ok L
        → L ≤ avail
          ∧ (∀ gas, dryRun s w entrypoint args intents tableLimit = some (.ran gas)
            → min rcCeiling (survivableFloor entrypoint tableLimit (needOf gas)) ≤ L)
          ∧ ∀ draw, drawMilli entrypoint args = some draw
            → L + draw + probeMarginMilli ≤ avail)
      ↔ ¬(dryRun s w entrypoint args intents tableLimit = none
        ∧ ∃ draw, drawMilli entrypoint args = some draw ∧ tableLimit ≤ avail
          ∧ avail < tableLimit + draw + probeMarginMilli) := by
  cases answered : dryRun s w entrypoint args intents tableLimit with
  | none =>
      have sized : sizeRc s w page entrypoint args intents tableLimit
          = if avail < tableLimit then .error (rcRefusal page tableLimit avail w.maxRc)
            else .ok tableLimit := by
        unfold sizeRc
        simp only [answered, readable]
      rw [sized]
      constructor
      · rintro fits ⟨-, draw, draws, enough, short⟩
        rw [if_neg (not_lt.mpr enough)] at fits
        exact absurd ((fits _ rfl).2.2 draw draws) (not_le.mpr short)
      · intro apart L limit
        split at limit
        · cases limit
        · rename_i enough
          obtain rfl := Except.ok.inj limit
          refine ⟨not_lt.mp enough, nofun, fun draw draws => ?_⟩
          by_contra short
          exact apart ⟨rfl, draw, draws, not_lt.mp enough, not_le.mp short⟩
  | some answer =>
      refine iff_of_true (fun L limit => ?_) nofun
      cases answer with
      | refused msg gasLimitHit =>
          unfold sizeRc at limit
          simp only [answered] at limit
          cases limit
      | ran gas =>
          have fits := sizeRc_ran readable most answered limit
          refine ⟨fits.within, ?_, fits.beside⟩
          rintro _ ⟨⟩
          exact fits.survives _ rfl

/-- A signer, a page that asks nothing, and a wallet whose meter is at 4,000. -/
def someSigner : AiohaSigner := ⟨"hive:alice", "vsc1core", some "vsc1token"⟩

def plainPage : Page := ⟨fun x => toString ⌊x⌋, fun x => toString ⌊x⌋, none⟩

def walletAnswering (answer : Option DryRun) : AiohaWallet :=
  ⟨some 4000, some 12000, fun _ _ _ _ _ => answer⟩

theorem sizeRc_fits_swap
    : sizeRc someSigner (walletAnswering (some (.ran 100000000))) plainPage "swap_hbd_lassecash"
        "50000000|1" [⟨"transfer.allow", "hbd", "0.500"⟩] 3000 = .ok 2500
      ∧ (2500 : ℚ) + 500 + probeMarginMilli ≤ 4000 := by
  have limit : sizeRc someSigner (walletAnswering (some (.ran 100000000))) plainPage
      "swap_hbd_lassecash" "50000000|1" [⟨"transfer.allow", "hbd", "0.500"⟩] 3000
      = .ok 2500 := by
    have draws : drawMilli "swap_hbd_lassecash" "50000000|1" = some 500 := by decide +kernel
    have enough : ¬roomBeside 4000 500
        < floorFor "swap_hbd_lassecash" 3000 (needOf 100000000) := by decide +kernel
    have least : min (sizedFor 3000 (needOf 100000000)) (roomBeside 4000 500) = 2500 := by
      decide +kernel
    unfold sizeRc
    simp only [dryRun, walletAnswering, draws, if_neg enough, least]
  have readable : (walletAnswering (some (.ran 100000000))).availableRc = some (4000 : ℚ) := rfl
  have fits := (sizeRc_fits_iff readable (by decide)).mpr (fun threw => nomatch threw.1) 2500 limit
  exact ⟨limit, fits.2.2 500 (by decide +kernel)⟩

/-- A swap whose dry run throws is sent with a limit that leaves too little for its draw. -/
theorem sizeRc_crowds_out_draw
    : sizeRc someSigner (walletAnswering none) plainPage "swap_hbd_lassecash" "100000000|1"
        [⟨"transfer.allow", "hbd", "1.000"⟩] 3000 = .ok 3000
      ∧ drawMilli "swap_hbd_lassecash" "100000000|1" = some 1000
      ∧ ¬(3000 : ℚ) + 1000 + probeMarginMilli ≤ 4000 := by
  refine ⟨rfl, by decide +kernel, by decide +kernel⟩

end LasseCash.Api
