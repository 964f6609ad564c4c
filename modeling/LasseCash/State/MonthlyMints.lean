import LasseCash.Lib.PeriodicLots
import LasseCash.State.PendingWrites

/-! The monthly mint over whole runs: every account mints all that is pending at most once in an epoch
and never in the epoch of its first reward, and whatever is credited to it is minted or pending, as
long as no credit overflows the balance.
-/

namespace LasseCash.State

open Engine Function MachineInt PeriodicLots Program

variable {A : Type} [Assets A]

-----------------------------------------------------------------------------------------
-- What a run credits and mints
-----------------------------------------------------------------------------------------

/-- What a write adds to an account's pending balance. -/
def rise (account : String) (r x : Rows) : Int :=
  max 0 (i64 ((x.getPending account).balance - (r.getPending account).balance))

/-- What a call credits to an account's pending balance. -/
def creditOf (account : String) : Call × World A → Int
  | (.setRows x, w) => rise account w.rows x
  | _ => 0

/-- The calls of a request whose writes last: none where the chain unwinds it. -/
def Request.lasting (q : Request) (w : World A) : List (Call × World A) :=
  if q.unwinds && !(q.action.exec q.ctx w).2.ok then []
  else ((q.action.program q.ctx).map fun p => p.issued serve w).getD []

/-- What a request credits to an account's pending balance. -/
def Request.credited (q : Request) (account : String) (w : World A) : Int :=
  ((q.lasting w).map (creditOf account)).sum

/-- The mints of an account that are entered from `r` to `r'`. -/
def mintsSince (r r' : Rows) (account : String) : List Mint :=
  (List.range' (r.getU64 (.mintSeq account) + 1)
    (r'.getU64 (.mintSeq account) - r.getU64 (.mintSeq account))).filterMap (r'.getMint account)

/-- The mints of an account that a settlement of pending balances enters. -/
def Request.monthlyMints (q : Request) (account : String) (w : World A) : List Mint :=
  match q.action with
  | .settlePending _ => mintsSince w.rows (q.exec w).1.rows account
  | _ => []

/-- What a run credits to an account's pending balance. -/
def creditedAlong (account : String) : World A → List Request → Int
  | _, [] => 0
  | w, q :: rest => q.credited account w + creditedAlong account (q.exec w).1 rest

/-- The monthly mints of an account in a run, each with its epoch. -/
def mintedAlong (account : String) : World A → List Request → List (Nat × Mint)
  | _, [] => []
  | w, q :: rest =>
      (q.monthlyMints account w).map (q.ctx.epoch, ·) ++ mintedAlong account (q.exec w).1 rest

/-- The epoch of a run in which an account first appears, with its pending record. -/
def sightedIn (account : String) : World A → List Request → Option Nat
  | _, [] => none
  | w, q :: rest =>
      if ((q.exec w).1.rows.pend account).isSome then some q.ctx.epoch
      else sightedIn account (q.exec w).1 rest

-----------------------------------------------------------------------------------------
-- Rewards
-----------------------------------------------------------------------------------------

/-- (Held account r) says that an account's pending balance is one, and anchored if it is recorded. -/
structure Held (account : String) (r : Rows) : Prop where
  nonneg : 0 ≤ (r.getPending account).balance
  word : (r.getPending account).balance < 2 ^ 63
  anchored : (r.pend account).isSome → (r.getPending account).lastEpoch ≠ 0

/-- (PendCredited account epoch r n x) says that `x` has `n` more pending for an account than `r`, and the
same anchor unless it is `epoch`.
-/
structure PendCredited (account : String) (epoch : Nat) (r : Rows) (n : Int) (x : Rows) : Prop where
  balance : (x.getPending account).balance = (r.getPending account).balance + n
  anchor : (x.getPending account).lastEpoch = (r.getPending account).lastEpoch
    ∨ (x.getPending account).lastEpoch = epoch

section Credits

variable {account : String} {epoch : Nat} {r x : Rows}

theorem PendCredited.trans {r₁ r₂ r₃ : Rows} {m n : Int} (h : PendCredited account epoch r₁ m r₂)
    (h' : PendCredited account epoch r₂ n r₃)
    : PendCredited account epoch r₁ (m + n) r₃ where
  balance := by rw [h'.balance, h.balance, Int.add_assoc]
  anchor := by
    rcases h'.anchor with same | next
    · rw [same]
      exact h.anchor
    · exact .inr next

/-- Rows with the same pending record. -/
theorem getPending_same (same : x.pend account = r.pend account)
    : x.getPending account = r.getPending account := by
  rw [Rows.getPending, same, Rows.getPending]

theorem Held.same (held : Held account r) (same : x.pend account = r.pend account)
    : Held account x := by
  obtain ⟨nonneg, word, anchored⟩ := held
  rw [← getPending_same same] at nonneg word anchored
  exact ⟨nonneg, word, fun recorded => anchored (same ▸ recorded)⟩

theorem PendCredited.same (same : x.pend account = r.pend account)
    : PendCredited account epoch r 0 x where
  balance := by rw [getPending_same same, Int.add_zero]
  anchor := .inl (by rw [getPending_same same])

theorem rise_same (same : x.pend account = r.pend account) : rise account r x = 0 := by
  rw [rise, getPending_same same, Int.sub_self, i64_zero]
  rfl

/-- A pending write credits an account what it adds, unless that overflows. -/
theorem PendWrite.credits (write : PendWrite epoch r x) (held : Held account r)
    (started : 1 ≤ epoch) (room : (r.getPending account).balance + rise account r x < 2 ^ 63)
    : Held account x ∧ PendCredited account epoch r (rise account r x) x := by
  have untouched (same : x.pend account = r.pend account)
      : Held account x ∧ PendCredited account epoch r (rise account r x) x := by
    rw [rise_same same]
    exact ⟨held.same same, .same same⟩
  rcases write with quiet | ⟨who, amount, nonneg, word, added⟩
  · exact untouched (congrFun quiet account)
  by_cases same : account = who
  · subst same
    have after : x.getPending account
        = ⟨i64 ((r.getPending account).balance + amount),
          if (r.getPending account).lastEpoch = 0 then epoch else (r.getPending account).lastEpoch⟩ := by
      rw [Rows.getPending, added]
      simp only [accruePending, Rows.putPending_pend, update_self, Option.getD_some]
    have gain : rise account r x = amount := by
      rw [rise, after, i64_sub_left, add_sub_cancel_left, i64_of_nonneg nonneg word]
      exact max_eq_right nonneg
    rw [gain] at room ⊢
    have held_nonneg := held.nonneg
    have sum := i64_of_nonneg (x := (r.getPending account).balance + amount) (by omega) room
    rw [sum] at after
    have epoch_ne : (if (r.getPending account).lastEpoch = 0 then epoch
        else (r.getPending account).lastEpoch) ≠ 0 := by
      split <;> omega
    refine ⟨⟨?_, ?_, fun _ => ?_⟩, ?_, ?_⟩
    · rw [after]
      exact Int.add_nonneg held.nonneg nonneg
    · rw [after]
      exact room
    · rw [after]
      exact epoch_ne
    · rw [after]
    · rw [after]
      by_cases first : (r.getPending account).lastEpoch = 0
      · exact .inr (if_pos first)
      · exact .inl (if_neg first)
  · refine untouched ?_
    rw [added]
    simp only [accruePending, Rows.putPending_pend, update_of_ne same]

end Credits

/-- No call but a write of the rows moves anything pending. -/
theorem rowsMay_pend {c : Call} {r x : Rows} {reply : Reply c} (may : rowsMay c r reply x)
    (reads : ∀ y, c ≠ .setRows y)
    : x.pend = r.pend := by
  cases c with
  | setRows y => exact absurd rfl (reads y)
  | rows => rw [may.2]
  | credit account amt =>
      rcases may with rfl | ⟨-, rfl⟩
      · rfl
      · exact ((Touches.refl r).noteAccount account rfl : Touches [.roll] _ _).pend (by rfl)
  | mintSupply key delta =>
      rcases may with ⟨-, rfl⟩ | ⟨-, -, next, -, rfl⟩
      · rfl
      · rfl
  | balance account => exact congrArg Rows.pend may
  | debit account amt => exact congrArg Rows.pend may
  | draw amount => exact congrArg Rows.pend may
  | transferHbd recipient amount => exact congrArg Rows.pend may

/-- A call leaves room for what it credits: with that, the pending balance is still a word. -/
def LeavesRoom (account : String) (e : Call × World A) : Prop :=
  (e.2.rows.getPending account).balance + creditOf account e < 2 ^ 63

instance (account : String) (e : Call × World A) : Decidable (LeavesRoom account e) :=
  inferInstanceAs (Decidable (_ < _))

/-- A program that only rewards credits an account the sum of what its calls credit. -/
theorem rewards_run {α : Type} {p : Op α} {account : String} {epoch : Nat}
    (rewards : Rewards epoch p) (started : 1 ≤ epoch) {w : World A} (held : Held account w.rows)
    (room : ∀ e ∈ p.issued serve w, LeavesRoom account e)
    : Held account (p.run serve w).1.rows
      ∧ PendCredited account epoch w.rows ((p.issued serve w).map (creditOf account)).sum
        (p.run serve w).1.rows := by
  have step (c : Call) (w : World A) (held : Held account w.rows)
      (write : writeNeeds (PendWrite epoch) c w.rows) (room : LeavesRoom account (c, w))
      : Held account (serve c w).1.rows
        ∧ PendCredited account epoch w.rows (creditOf account (c, w)) (serve c w).1.rows := by
    have quiet (reads : ∀ x, c ≠ .setRows x) : (serve c w).1.rows.pend account = w.rows.pend account :=
      congrFun (rowsMay_pend (serve_rowsMay c w) reads) account
    cases c with
    | setRows x => exact PendWrite.credits write held started room
    | _ => exact ⟨held.same (quiet nofun), .same (quiet nofun)⟩
  exact wp_sum (R := fun w n w' => PendCredited account epoch w.rows n w'.rows)
    (fun w => .same rfl) PendCredited.trans step serve_rowsMay (rewards w.rows) room held

-----------------------------------------------------------------------------------------
-- Entering one mint
-----------------------------------------------------------------------------------------

/-- A mint without its chunk. -/
def unchunked (m : Mint) : Mint := { m with expChunk := 0 }

/-- Mints that agree but for their chunks. -/
theorem eq_of_unchunked {m m' : Mint} (same : unchunked m' = unchunked m)
    : m' = { m with expChunk := m'.expChunk } := by
  cases m'
  cases m
  simpa only [unchunked, Mint.mk.injEq, and_true] using same

/-- A single mint is entered under its owner's next id, as it is but for its reading and its chunk. -/
theorem enterMints_one (r : Rows) (m : Mint)
    : ∃ chunk,
        (∀ account, (enterMints r [m]).1.getU64 (.mintSeq account)
          = r.getU64 (.mintSeq account) + if account = m.owner then 1 else 0)
        ∧ (enterMints r [m]).1.mint = update r.mint (m.owner, r.getU64 (.mintSeq m.owner) + 1)
          (some { m with accStart := accPerShare r, expChunk := chunk }) := by
  unfold enterMints
  simp only [stampMints]
  generalize accPerShare r = acc
  generalize given : r.setU64 (.mintSeq m.owner) (r.getU64 (.mintSeq m.owner) + 1) = r₀
  have seq (account : String) : r₀.getU64 (.mintSeq account)
      = r.getU64 (.mintSeq account) + if account = m.owner then 1 else 0 := by
    rw [← given]
    by_cases same : account = m.owner
    · subst same
      simp
    · simp [same]
  have mints : r₀.mint = r.mint := by rw [← given, Rows.setU64_mint]
  generalize stamped : offer (r₀.setAmount (.shares m.owner) _) m.owner = r₁
  have offered : Touches [.shares, .board] r₀ r₁ := by
    rw [← stamped]
    exact ((Touches.refl r₀).setAmount (.shares m.owner) _ (by rfl)).offer m.owner (by rfl)
  generalize total : r₁.setAmount .sharesTotal _ = r₂
  have summed : Touches [.shares, .board] r₀ r₂ := by
    rw [← total]
    exact offered.setAmount .sharesTotal _ (by rfl)
  generalize ([m].map (maturityDay r₂)).eraseDups = days
  obtain ⟨aside, ids⟩ := scheduleDays_aside days r₂
    [(r.getU64 (.mintSeq m.owner) + 1, { m with accStart := acc })]
  generalize scheduleDays days r₂ _ = scheduled at aside ids ⊢
  obtain ⟨r₃, entered⟩ := scheduled
  obtain ⟨e, rfl, same⟩ := List.map_eq_singleton_iff.mp ids
  obtain ⟨id, m'⟩ := e
  rw [Prod.mk.injEq] at same
  obtain ⟨rfl, chunked⟩ := same
  dsimp only at chunked
  have kept := eq_of_unchunked (m := { m with accStart := acc }) chunked
  have own : m'.owner = m.owner := (Mint.mk.inj chunked).1
  have noted : Touches [.roll] (r₃.putMint (r.getU64 (.mintSeq m.owner) + 1) m')
      (storeMints r₃ [(r.getU64 (.mintSeq m.owner) + 1, m')]) :=
    (Touches.refl _).noteAccount m'.owner (by rfl)
  refine ⟨m'.expChunk, fun account => ?_, ?_⟩
  · rw [noted.count (.mintSeq account) rfl, ← seq, ← summed.count (.mintSeq account) rfl,
      ← aside.getU64 (.mintSeq account) rfl]
    rfl
  · rw [(noted.mint rfl), Rows.putMint_mint, aside.mint, (summed.mint rfl), mints, own, ← kept]

/-- The entry of one mint is its owner's one new mint. -/
theorem mintsSince_own (r : Rows) {m : Mint} {account : String} (own : m.owner = account)
    : ∃ m', mintsSince r (enterMints r [m]).1 account = [m'] ∧ m'.principal = m.principal := by
  obtain ⟨chunk, seq, mints⟩ := enterMints_one r m
  rw [own] at mints
  have found : (enterMints r [m]).1.getMint account (r.getU64 (.mintSeq account) + 1)
      = some { m with owner := account, accStart := accPerShare r, expChunk := chunk } := by
    rw [Rows.getMint, mints, update_self]
    rfl
  unfold mintsSince
  rw [seq, if_pos own.symm, add_tsub_cancel_left]
  exact ⟨{ m with owner := account, accStart := accPerShare r, expChunk := chunk },
    by simp [found], rfl⟩

/-- It is nobody else's. -/
theorem mintsSince_other (r : Rows) {m : Mint} {account : String} (other : m.owner ≠ account)
    : mintsSince r (enterMints r [m]).1 account = [] := by
  obtain ⟨chunk, seq, -⟩ := enterMints_one r m
  rw [mintsSince, seq, if_neg (Ne.symm other), add_zero, Nat.sub_self]
  rfl

/-- Where no id is given out, no mint is entered. -/
theorem mintsSince_none {r r' : Rows} {account : String}
    (seq : r'.getU64 (.mintSeq account) = r.getU64 (.mintSeq account))
    : mintsSince r r' account = [] := by
  rw [mintsSince, seq, Nat.sub_self]
  rfl

-----------------------------------------------------------------------------------------
-- The settlement of a pending balance
-----------------------------------------------------------------------------------------

/-- What is left of a settlement once the account's curation is drained. -/
def convertPending (ctx : Ctx) (account : String) : Op Result := do
  let r ← rows
  let p := r.getPending account
  if p.lastEpoch = 0 then
    setRows (r.putPending account { p with lastEpoch := ctx.epoch })
    return ok "anchored"
  if ctx.epoch ≤ p.lastEpoch then return ok "not due yet"
  if p.balance < minMintAmount then return ok "below minimum, rolled over"
  if !(← accrue ctx.height) then
    return fail "accrual is behind; call advance then settle again"
  let r := (← rows).putPending account { balance := 0, lastEpoch := ctx.epoch }
  let days := mintDuration r account
  match newMint account p.balance days ctx.height (mintParamsNow r ctx.height) with
  | none =>
      setRows (r.putPending account { balance := p.balance, lastEpoch := ctx.epoch })
      return fail "mint would yield no shares"
  | some m =>
      setRows r
      let _ ← registerMints ctx.height [m]
      return ok ("minted " ++ encI64 p.balance ++ " for " ++ encI64 days ++ " days")

/-- (Converted ctx account r res x) says that the rows `x` are what converting an account's pending
balance leaves of `r`: the balance waits, it waits with a new anchor, or all of it is minted.
-/
inductive Converted (ctx : Ctx) (account : String) (r : Rows) : Result → Rows → Prop
  | waits (res : Result) (x : Rows) (accrued : Touches accrualSides r x)
      : Converted ctx account r res x
  | rolls (res : Result) (x : Rows) (accrued : Touches accrualSides r x)
      : Converted ctx account r res
          (x.putPending account ⟨(r.getPending account).balance, ctx.epoch⟩)
  | mints (msg : String) (x : Rows) (m : Mint) (accrued : Touches accrualSides r x)
      (sighted : (r.getPending account).lastEpoch ≠ 0)
      (due : (r.getPending account).lastEpoch < ctx.epoch)
      (floor : minMintAmount ≤ (r.getPending account).balance)
      (own : m.owner = account) (whole : m.principal = (r.getPending account).balance)
      : Converted ctx account r (ok msg)
          (enterMints (x.putPending account ⟨0, ctx.epoch⟩) [m]).1

/-- A new position belongs to its owner. -/
theorem newMint_owner {owner : String} {principal days : Int} {height : Nat} {p : MintParams}
    {m : Mint} (made : newMint owner principal days height p = some m)
    : m.owner = owner := by
  unfold newMint at made
  split at made
  · cases made
  · split at made
    · cases made
    · obtain rfl := Option.some.inj made
      rfl

/-- The conversion, by its checks in their order. -/
theorem convertPending_asks {o : Origin} {r : Rows} (account : String)
    : Asks o (convertPending o.ctx account) (Converted o.ctx account r) r := by
  have kept (res : Result) : Converted o.ctx account r res r := .waits res r (.refl r)
  simp only [convertPending, Asks, wp_bind, asks_rows, wp_ite, wp_pure, asks_setRows]
  refine ⟨fun _ => ⟨putPending_supply _ _ _, .rolls _ r (.refl r)⟩, fun sighted =>
    ⟨fun _ => kept _, fun due => ⟨fun _ => kept _, fun floor => ?_⟩⟩⟩
  refine (accrue_asks o).mono fun b x h => ?_
  obtain ⟨⟨accrues, -⟩, caught⟩ := h
  have accrued : Touches accrualSides r x := accrues.touches
  refine ⟨fun _ => .waits _ x accrued, fun caughtUp => ?_⟩
  have current : dayOf x o.ctx.height ≤ accruedDays x := caught (by simpa using caughtUp)
  cases made : newMint account (r.getPending account).balance
      (mintDuration (x.putPending account ⟨0, o.ctx.epoch⟩) account) o.ctx.height
      (mintParamsNow (x.putPending account ⟨0, o.ctx.epoch⟩) o.ctx.height) with
  | none =>
      simp only [wp_bind, asks_setRows, wp_pure]
      have rolled : Converted o.ctx account r (fail "mint would yield no shares") _ :=
        .rolls _ x accrued
      exact ⟨⟨rfl, rfl, fun _ => id⟩, by simpa [Rows.putPending] using rolled⟩
  | some m =>
      simp only [wp_bind, asks_setRows, wp_pure]
      refine ⟨putPending_supply _ _ _, (registerMints_asks o [m] ?_).mono fun _ _ entered => ?_⟩
      · exact current
      · rw [entered.2]
        exact .mints _ x m accrued sighted (by omega) (by omega) (newMint_owner made)
          (newMint_principal made)

/-- (Ebbs r x) says that every account has in `x` what is pending for it in `r`, or nothing. -/
def Ebbs (r x : Rows) : Prop :=
  ∀ account, (x.getPending account).balance = (r.getPending account).balance
    ∨ (x.getPending account).balance = 0

theorem Ebbs.putPending {r x : Rows} (same : x.pend = r.pend) (account : String) (p : PendingAccount)
    (ebb : p.balance = (r.getPending account).balance ∨ p.balance = 0)
    : Ebbs r (x.putPending account p) := by
  intro other
  simp only [Rows.getPending, Rows.putPending_pend, update_apply, same] at ebb ⊢
  split
  · rename_i here
    rw [here]
    exact ebb
  · exact .inl rfl

/-- PendKept writes leave what is pending as it was, by induction on the program. -/
theorem pendKept_ends {α : Type} {p : Op α} {r r₀ : Rows} (still : Writes PendKept p (fun _ _ => True) r)
    (same : r.pend = r₀.pend)
    : Writes PendKept p (fun _ x => x.pend = r₀.pend) r := by
  induction p generalizing r with
  | done value => exact same
  | call c next ih =>
      refine ⟨still.1, fun reply x moved => ih reply (still.2 reply x moved) ?_⟩
      cases c with
      | setRows y =>
          obtain rfl : x = y := moved
          exact Eq.trans still.1 same
      | _ => exact (rowsMay_pend moved nofun).trans same

theorem Still.ends {α : Type} {p : Op α} (still : Still p) (r : Rows)
    : Writes PendKept p (fun _ x => x.pend = r.pend) r :=
  pendKept_ends (still r) rfl

/-- The conversion credits nobody. -/
theorem convertPending_ebbs (ctx : Ctx) (account : String) (r : Rows)
    : Writes Ebbs (convertPending ctx account) (fun _ _ => True) r := by
  have ebbs {α : Type} {p : Op α} {Q : α → Rows → Prop} {r : Rows} (quiet : Writes PendKept p Q r)
      : Writes Ebbs p Q r := by
    refine wp_pre (fun c r needs => ?_) quiet
    cases c with
    | setRows x => exact fun account => .inl (by rw [getPending_same (congrFun needs account)])
    | _ => trivial
  simp only [convertPending, Writes, wp_bind, writes_rows, wp_ite, wp_pure, writes_setRows]
  refine ⟨fun _ => ⟨.putPending rfl account _ (.inl rfl), trivial⟩, fun _ => ⟨fun _ => trivial, fun _ =>
    ⟨fun _ => trivial, fun _ => ?_⟩⟩⟩
  refine wp_mono (fun b x same => ⟨fun _ => trivial, fun _ => ?_⟩)
    (ebbs ((accrue_still ctx.height).ends r))
  cases newMint account (r.getPending account).balance
      (mintDuration (x.putPending account ⟨0, ctx.epoch⟩) account) ctx.height
      (mintParamsNow (x.putPending account ⟨0, ctx.epoch⟩) ctx.height) with
  | none =>
      simp only [wp_bind, writes_setRows, wp_pure]
      have back : Ebbs x (x.putPending account ⟨(r.getPending account).balance, ctx.epoch⟩) :=
        .putPending rfl account _ (.inl (by rw [getPending_same (congrFun same account)]))
      exact ⟨by simpa [Rows.putPending] using back, trivial⟩
  | some m =>
      simp only [wp_bind, writes_setRows, wp_pure]
      exact ⟨.putPending rfl account _ (.inr rfl),
        (ebbs (registerMints_still ctx.height [m] _)).any fun _ _ => trivial⟩

/-- What ebbs credits no account. -/
theorem ebbs_run {α : Type} {p : Op α} {account : String} {w : World A}
    (ebbs : Writes Ebbs p (fun _ _ => True) w.rows) (held : Held account w.rows)
    : ((p.issued serve w).map (creditOf account)).sum = 0 := by
  let Word (w : World A) : Prop :=
    0 ≤ (w.rows.getPending account).balance ∧ (w.rows.getPending account).balance < 2 ^ 63
  have step (c : Call) (w : World A) (word : Word w) (ebb : writeNeeds Ebbs c w.rows) (_ : True)
      : Word (serve c w).1 ∧ creditOf account (c, w) = 0 := by
    have quiet (reads : ∀ x, c ≠ .setRows x) : Word (serve c w).1 := by
      have same := getPending_same (congrFun (rowsMay_pend (serve_rowsMay c w) reads) account)
      simp only [Word, same]
      exact word
    cases c with
    | setRows x =>
        obtain ⟨nonneg, below⟩ := word
        rcases ebb account with same | gone
        · refine ⟨?_, ?_⟩
          · change 0 ≤ (x.getPending account).balance ∧ (x.getPending account).balance < 2 ^ 63
            rw [same]
            exact ⟨nonneg, below⟩
          · change rise account w.rows x = 0
            rw [rise, same, Int.sub_self, i64_zero]
            rfl
        · refine ⟨?_, ?_⟩
          · change 0 ≤ (x.getPending account).balance ∧ (x.getPending account).balance < 2 ^ 63
            rw [gone]
            decide
          · change rise account w.rows x = 0
            rw [rise, gone, i64_of_mem ⟨by omega, by omega⟩]
            exact max_eq_left (by omega)
    | _ => exact ⟨quiet nofun, rfl⟩
  have word : Word w := ⟨held.nonneg, held.word⟩
  exact (wp_sum (R := fun _ n _ => n = 0) (fun _ => rfl)
    (fun first second => by rw [first, second, Int.add_zero]) step serve_rowsMay ebbs
    (fun _ _ => trivial) word).2

/-- A settlement drains the curation and then converts what is pending. -/
theorem settlePending_run (ctx : Ctx) (settled : String) {account : String} (started : 1 ≤ ctx.epoch)
    {w : World A} (held : Held account w.rows)
    (room : ∀ e ∈ (settlePending ctx settled).issued serve w, LeavesRoom account e)
    : let out := (settlePending ctx settled).run serve w
      ∃ r, Held account r
        ∧ PendCredited account ctx.epoch w.rows
          (((settlePending ctx settled).issued serve w).map (creditOf account)).sum r
        ∧ r.getU64 (.mintSeq account) = w.rows.getU64 (.mintSeq account)
        ∧ Converted ctx settled r out.2 out.1.rows := by
  let o : Origin := ⟨ctx, .settlePending settled, w.rows, False⟩
  let drain := drainCuration ctx settled maxCurationDrain
  let rest : Op Result := drain >>= fun _ => convertPending ctx settled
  have ran : (settlePending ctx settled).run serve w
      = (if !w.rows.init then pure (fail "not initialised") else rest).run serve w := rfl
  have asked : (settlePending ctx settled).issued serve w
      = (.rows, w) :: (if !w.rows.init then pure (fail "not initialised") else rest).issued serve w :=
    rfl
  rw [asked] at room ⊢
  rw [ran]
  cases running : w.rows.init with
  | false => exact ⟨w.rows, held, .same rfl, rfl, .waits _ _ (.refl _)⟩
  | true =>
      rw [running] at room
      have rewards : Rewards ctx.epoch drain := drainCuration_rewards ctx settled maxCurationDrain
      have split : rest.issued serve w = drain.issued serve w
          ++ (convertPending ctx settled).issued serve (drain.run serve w).1 :=
        issued_bind serve drain _ w
      have room' : ∀ e ∈ drain.issued serve w, LeavesRoom account e := by
        intro e there
        have later : e ∈ rest.issued serve w := by
          rw [split]
          exact List.mem_append_left _ there
        exact room e (List.mem_cons_of_mem _ later)
      obtain ⟨held', credited⟩ := rewards_run rewards started held room'
      have drained : Touches drainSides w.rows (drain.run serve w).1.rows :=
        asks_serve (o := o) False.elim
          ((drainCuration_asks settled maxCurationDrain).mono fun _ _ drained => drained.2)
      have converted := asks_serve (o := o) (w := (drain.run serve w).1) False.elim
        (convertPending_asks settled)
      have none_credited := ebbs_run (convertPending_ebbs ctx settled (drain.run serve w).1.rows) held'
      refine ⟨(drain.run serve w).1.rows, held', ?_, drained.count (.mintSeq account) rfl, ?_⟩
      · change PendCredited account ctx.epoch w.rows
          (List.map (creditOf account) ((.rows, w) :: rest.issued serve w)).sum _
        rw [split, List.map_cons, List.map_append, List.sum_cons, List.sum_append, none_credited,
          Int.add_zero]
        exact (Int.zero_add _).symm ▸ credited
      · change Converted ctx settled _ (rest.run serve w).2 (rest.run serve w).1.rows
        rw [run_bind]
        exact converted

-----------------------------------------------------------------------------------------
-- One request
-----------------------------------------------------------------------------------------

/-- (MintsWhole account epoch r n ms x) says that all that is pending for an account in `r`, and `n`
more, is the principal of one mint, in an epoch beyond the account's anchor.
-/
structure MintsWhole (account : String) (epoch : Nat) (r : Rows) (n : Int) (ms : List Mint)
    (x : Rows) : Prop where
  sighted : (r.getPending account).lastEpoch ≠ 0
  due : (r.getPending account).lastEpoch < epoch
  floor : minMintAmount ≤ (r.getPending account).balance + n
  one : ∃ m, ms = [m] ∧ m.principal = (r.getPending account).balance + n
  emptied : x.getPending account = ⟨0, epoch⟩

/-- Mints entered since rows with as many ids are those entered since. -/
theorem mintsSince_from {r r₁ r' : Rows} {account : String}
    (seq : r₁.getU64 (.mintSeq account) = r.getU64 (.mintSeq account))
    : mintsSince r₁ r' account = mintsSince r r' account := by
  rw [mintsSince, mintsSince, seq]

/-- Reading a pending balance after one has been written. -/
theorem getPending_put (r : Rows) (who account : String) (p : PendingAccount)
    : (r.putPending who p).getPending account = if account = who then p else r.getPending account := by
  simp only [Rows.getPending, Rows.putPending_pend, update_apply]
  split <;> rfl

/-- A conversion leaves every account's balance as it was and mints nothing for it, or succeeds in
minting the whole of it.
-/
theorem Converted.turns {ctx : Ctx} {settled account : String} {r x : Rows} {res : Result}
    (converted : Converted ctx settled r res x) (started : 1 ≤ ctx.epoch) (held : Held account r)
    : Held account x
      ∧ (mintsSince r x account = [] ∧ PendCredited account ctx.epoch r 0 x
        ∨ MintsWhole account ctx.epoch r 0 (mintsSince r x account) x ∧ settled = account
          ∧ res.ok = true) := by
  cases converted with
  | waits res x accrued =>
      have same : x.pend account = r.pend account := congrFun (accrued.pend rfl) account
      exact ⟨held.same same,
        .inl ⟨mintsSince_none (accrued.count (.mintSeq account) rfl), .same same⟩⟩
  | rolls res x accrued =>
      have none_entered : mintsSince r (x.putPending settled
          ⟨(r.getPending settled).balance, ctx.epoch⟩) account = [] :=
        mintsSince_none (accrued.count (.mintSeq account) rfl)
      by_cases own : account = settled
      · subst own
        have read := getPending_put x account account ⟨(r.getPending account).balance, ctx.epoch⟩
        rw [if_pos rfl] at read
        refine ⟨⟨?_, ?_, fun _ => ?_⟩, .inl ⟨none_entered, ?_, ?_⟩⟩
        · rw [read]
          exact held.nonneg
        · rw [read]
          exact held.word
        · rw [read]
          exact Nat.one_le_iff_ne_zero.mp started
        · rw [read, Int.add_zero]
        · rw [read]
          exact .inr rfl
      · have same : (x.putPending settled ⟨(r.getPending settled).balance, ctx.epoch⟩).pend account
            = r.pend account := by
          rw [Rows.putPending_pend, update_of_ne own, (accrued.pend rfl)]
        exact ⟨held.same same, .inl ⟨none_entered, .same same⟩⟩
  | mints msg x m accrued sighted due floor own whole =>
      have seq : (x.putPending settled ⟨0, ctx.epoch⟩).getU64 (.mintSeq account)
          = r.getU64 (.mintSeq account) :=
        accrued.count (.mintSeq account) rfl
      have kept : (enterMints (x.putPending settled ⟨0, ctx.epoch⟩) [m]).1.pend account
          = (x.putPending settled ⟨0, ctx.epoch⟩).pend account :=
        congrFun ((enterMints_touches _ [m]).pend (by rfl)) account
      rw [← mintsSince_from seq]
      by_cases mine : account = settled
      · subst mine
        have read : (enterMints (x.putPending account ⟨0, ctx.epoch⟩) [m]).1.getPending account
            = ⟨0, ctx.epoch⟩ := by
          rw [getPending_same kept, getPending_put, if_pos rfl]
        obtain ⟨m', one, principal⟩ := mintsSince_own (x.putPending account ⟨0, ctx.epoch⟩) own
        refine ⟨⟨?_, ?_, fun _ => ?_⟩, .inr ⟨⟨sighted, due, ?_, ⟨m', one, ?_⟩, read⟩, rfl, rfl⟩⟩
        · rw [read]
        · rw [read]
          exact Int.pow_pos (by decide)
        · rw [read]
          exact Nat.one_le_iff_ne_zero.mp started
        · rw [Int.add_zero]
          exact floor
        · rw [Int.add_zero, principal, whole]
      · have same : (enterMints (x.putPending settled ⟨0, ctx.epoch⟩) [m]).1.pend account
            = r.pend account := by
          rw [kept, Rows.putPending_pend, update_of_ne mine, (accrued.pend rfl)]
        have other : m.owner ≠ account := fun same => mine (same.symm.trans own)
        exact ⟨held.same same, .inl ⟨mintsSince_other _ other, .same same⟩⟩

/-- Every credit of a request leaves room. -/
def Roomy (account : String) (w : World A) (q : Request) : Prop :=
  ∀ e ∈ q.lasting w, LeavesRoom account e

instance (account : String) (w : World A) (q : Request) : Decidable (Roomy account w q) :=
  inferInstanceAs (Decidable (∀ e ∈ _, _))

/-- (Turned account w q) says what a request leaves of an account's pending balance: the balance with
what the request credits, or nothing, where a settlement of the account mints the whole of it.
-/
def Turned (account : String) (w : World A) (q : Request) : Prop :=
  q.monthlyMints account w = []
      ∧ PendCredited account q.ctx.epoch w.rows (q.credited account w) (q.exec w).1.rows
    ∨ MintsWhole account q.ctx.epoch w.rows (q.credited account w) (q.monthlyMints account w)
        (q.exec w).1.rows
      ∧ q.action = .settlePending account ∧ (q.exec w).2.ok = true

/-- An operation that its chain unwinds credits and mints nothing. -/
theorem Request.unwound_turned {q : Request} {account : String} {w : World A}
    (unwound : (q.unwinds && !(q.action.exec q.ctx w).2.ok) = true) (held : Held account w.rows)
    : Held account (q.exec w).1.rows ∧ Turned account w q := by
  have same : (q.exec w).1 = w := by
    unfold Request.exec
    dsimp only
    rw [if_pos unwound]
  have none_credited : q.credited account w = 0 := by
    rw [Request.credited, Request.lasting, if_pos unwound]
    rfl
  have none_minted : q.monthlyMints account w = [] := by
    unfold Request.monthlyMints
    split
    · rw [same]
      exact mintsSince_none rfl
    · rfl
  unfold Turned
  rw [same, none_credited]
  exact ⟨held, .inl ⟨none_minted, .same rfl⟩⟩

/-- An operation other than a settlement credits what its calls credit. -/
theorem Request.rewarding_turned {q : Request} {account : String} {w : World A} {p : Op Result}
    (program : q.action.program q.ctx = some p) (other : ∀ settled, q.action ≠ .settlePending settled)
    (ran : q.exec w = p.run serve w) (calls : q.lasting w = p.issued serve w)
    (started : 1 ≤ q.ctx.epoch) (held : Held account w.rows) (room : Roomy account w q)
    : Held account (q.exec w).1.rows ∧ Turned account w q := by
  rw [Roomy, calls] at room
  have none_minted : q.monthlyMints account w = [] := by
    unfold Request.monthlyMints
    split
    · rename_i settled asked
      exact absurd asked (other settled)
    · rfl
  obtain ⟨held', credited⟩ :=
    rewards_run (Action.program_rewards q.ctx q.action program other) started held room
  rw [← ran] at held' credited
  rw [← calls] at credited
  exact ⟨held', .inl ⟨none_minted, credited⟩⟩

/-- A settlement credits what its drain credits, and then converts. -/
theorem Request.settling_turned {q : Request} {account settled : String} {w : World A}
    (asked : q.action = .settlePending settled)
    (ran : q.exec w = (settlePending q.ctx settled).run serve w)
    (calls : q.lasting w = (settlePending q.ctx settled).issued serve w)
    (started : 1 ≤ q.ctx.epoch) (held : Held account w.rows) (room : Roomy account w q)
    : Held account (q.exec w).1.rows ∧ Turned account w q := by
  rw [Roomy, calls] at room
  obtain ⟨r, drained, credited, seq, converted⟩ := settlePending_run q.ctx settled started held room
  rw [← calls] at credited
  rw [← ran] at converted
  have minted : q.monthlyMints account w = mintsSince r (q.exec w).1.rows account := by
    rw [Request.monthlyMints, asked]
    exact (mintsSince_from seq).symm
  obtain ⟨held', waits | ⟨mints, own, done⟩⟩ := converted.turns started drained
  · rw [← minted] at waits
    have both := credited.trans waits.2
    rw [Int.add_zero] at both
    exact ⟨held', .inl ⟨waits.1, both⟩⟩
  · subst own
    obtain ⟨sighted, due, floor, one, emptied⟩ := mints
    -- an anchor that the drain sets is the epoch itself, and then nothing is due
    have anchor : (r.getPending settled).lastEpoch = (w.rows.getPending settled).lastEpoch :=
      credited.anchor.resolve_right (by omega)
    have balance : (r.getPending settled).balance + 0
        = (w.rows.getPending settled).balance + q.credited settled w := by
      rw [Int.add_zero]
      exact credited.balance
    rw [anchor] at sighted due
    rw [balance] at floor one
    rw [← minted] at one
    exact ⟨held', .inr ⟨⟨sighted, due, floor, one, emptied⟩, asked, done⟩⟩

/-- A request turns every account's pending balance, by cases on its operation. -/
theorem Request.exec_turned (q : Request) {account : String} {w : World A}
    (started : 1 ≤ q.ctx.epoch) (held : Held account w.rows) (room : Roomy account w q)
    : Held account (q.exec w).1.rows ∧ Turned account w q := by
  cases unwound : q.unwinds && !(q.action.exec q.ctx w).2.ok with
  | true => exact q.unwound_turned unwound held
  | false =>
      have ran : q.exec w = q.action.exec q.ctx w := by
        unfold Request.exec
        dsimp only
        rw [unwound]
        rfl
      have calls : q.lasting w = ((q.action.program q.ctx).map fun p => p.issued serve w).getD [] := by
        rw [Request.lasting, unwound]
        rfl
      cases program : q.action.program q.ctx with
      | none =>
          have same : (q.exec w).1.rows = w.rows := by rw [ran, Action.exec_rows program]
          have none_credited : q.credited account w = 0 := by
            rw [Request.credited, calls, program]
            rfl
          have none_minted : q.monthlyMints account w = [] := by
            unfold Request.monthlyMints
            split
            · rw [same]
              exact mintsSince_none rfl
            · rfl
          unfold Turned
          rw [same, none_credited]
          exact ⟨held, .inl ⟨none_minted, .same rfl⟩⟩
      | some p =>
          have ran' := ran.trans (Action.exec_of_program program w)
          have calls' : q.lasting w = p.issued serve w := by
            rw [calls, program]
            rfl
          by_cases settles : ∃ settled, q.action = .settlePending settled
          · obtain ⟨settled, asked⟩ := settles
            obtain rfl : settlePending q.ctx settled = p := by
              rw [asked] at program
              exact Option.some.inj program
            exact q.settling_turned asked ran' calls' started held room
          · exact q.rewarding_turned program (fun settled asked => settles ⟨settled, asked⟩) ran'
              calls' started held room

-----------------------------------------------------------------------------------------
-- Runs
-----------------------------------------------------------------------------------------

/-- What is pending for an account, as an account whose lots are its monthly mints. -/
def pendingAccount (account : String) (r : Rows) : Account Nat Int :=
  ⟨(r.getPending account).balance,
    if (r.getPending account).lastEpoch = 0 then none else some (r.getPending account).lastEpoch⟩

/-- A request as a turn of an account. -/
def Request.turn (q : Request) (account : String) (w : World A) : Turn Nat Int :=
  ⟨q.ctx.epoch, q.credited account w, (q.monthlyMints account w).map (·.principal)⟩

/-- The requests of a run as turns of an account. -/
def turnsOf (account : String) : World A → List Request → List (Turn Nat Int)
  | _, [] => []
  | w, q :: rest => q.turn account w :: turnsOf account (q.exec w).1 rest

/-- Every request is a turn. -/
theorem Turned.takes {account : String} {w : World A} {q : Request} (turned : Turned account w q)
    (started : 1 ≤ q.ctx.epoch)
    : Takes (pendingAccount account w.rows) (q.turn account w)
      (pendingAccount account (q.exec w).1.rows) := by
  have epoch_ne : q.ctx.epoch ≠ 0 := Nat.one_le_iff_ne_zero.mp started
  unfold Request.turn pendingAccount
  rcases turned with ⟨none_minted, credited⟩ | ⟨mints, -, -⟩
  · rw [none_minted, credited.balance]
    refine .holds q.ctx.epoch _ _ ?_
    rcases credited.anchor with same | here
    · exact .inl (by rw [same])
    · exact .inr (by rw [here, if_neg epoch_ne])
  · obtain ⟨m, one, whole⟩ := mints.one
    rw [one, List.map_singleton, whole, mints.emptied, if_neg epoch_ne]
    exact .converts q.ctx.epoch (w.rows.getPending account).lastEpoch _ (if_neg mints.sighted)
      mints.due

section Turns

variable (account : String) (w : World A) (requests : List Request)

/-- The lots of a run are the principals of its monthly mints, by induction on the requests. -/
theorem turnsOf_lots
    : (turnsOf account w requests).flatMap (·.lots)
      = (mintedAlong account w requests).map fun e => e.2.principal := by
  induction requests generalizing w with
  | nil => rfl
  | cons q rest ih =>
      rw [turnsOf, mintedAlong, List.flatMap_cons, ih, List.map_append, List.map_map]
      rfl

theorem turnsOf_credits
    : ((turnsOf account w requests).map (·.credit)).sum = creditedAlong account w requests := by
  induction requests generalizing w with
  | nil => rfl
  | cons q rest ih =>
      rw [turnsOf, creditedAlong, List.map_cons, List.sum_cons, ih]
      rfl

theorem turnsOf_periods
    : (turnsOf account w requests).map (·.period) = requests.map (·.ctx.epoch) := by
  induction requests generalizing w with
  | nil => rfl
  | cons q rest ih =>
      rw [turnsOf, List.map_cons, List.map_cons, ih]
      rfl

theorem turnsOf_lotPeriods
    : lotPeriods (turnsOf account w requests) = (mintedAlong account w requests).map Prod.fst := by
  induction requests generalizing w with
  | nil => rfl
  | cons q rest ih =>
      change (q.turn account w).lots.map (fun _ => q.ctx.epoch)
        ++ lotPeriods (turnsOf account (q.exec w).1 rest) = _
      rw [ih, mintedAlong, List.map_append, List.map_map, Request.turn, List.map_map]
      rfl

end Turns

/-- A run takes an account's pending balance from turn to turn, by induction on the requests. -/
theorem pending_run {account : String} {w : World A} {requests : List Request}
    (held : Held account w.rows) (started : ∀ q ∈ requests, 1 ≤ q.ctx.epoch)
    (room : Along (Roomy account) w requests)
    : Path (pendingAccount account w.rows) (turnsOf account w requests)
        (pendingAccount account (after w requests).rows)
      ∧ Along (Turned account) w requests := by
  induction requests generalizing w with
  | nil => exact ⟨.done _, trivial⟩
  | cons q rest ih =>
      obtain ⟨first, later⟩ := List.forall_mem_cons.mp started
      obtain ⟨held', turned⟩ := q.exec_turned first held room.1
      obtain ⟨path, along⟩ := ih held' later room.2
      exact ⟨.turn (turned.takes first) path, turned, along⟩

/-- An account without a pending record was never sighted. -/
theorem unsighted_of_none {account : String} {r : Rows} (absent : r.pend account = none)
    : (pendingAccount account r).anchor = none := by
  rw [pendingAccount, Rows.getPending, absent]
  rfl

/-- A recorded account is anchored, at an epoch that has come. -/
theorem Held.sighted {account : String} {r : Rows} (held : Held account r)
    (recorded : (r.pend account).isSome)
    : (pendingAccount account r).anchor = some (r.getPending account).lastEpoch :=
  if_neg (held.anchored recorded)

/-- No mint is made up to the epoch of the account's first appearance, by induction on the requests
until it appears.
-/
theorem minted_after_sighting {account : String} {w : World A} {requests : List Request}
    (absent : w.rows.pend account = none) (held : Held account w.rows)
    (ordered : (1 :: requests.map (·.ctx.epoch)).Pairwise (· ≤ ·))
    (room : Along (Roomy account) w requests) {epoch : Nat}
    (sighted : sightedIn account w requests = some epoch)
    : ∀ e ∈ mintedAlong account w requests, epoch < e.1 := by
  induction requests generalizing w with
  | nil => exact nofun
  | cons q rest ih =>
      obtain ⟨started, rising⟩ := List.pairwise_cons.mp ordered
      obtain ⟨later, ordered'⟩ := List.pairwise_cons.mp rising
      have begun : 1 ≤ q.ctx.epoch := started q.ctx.epoch List.mem_cons_self
      have started' : ∀ e ∈ rest.map (·.ctx.epoch), 1 ≤ e := fun e there =>
        started e (List.mem_cons_of_mem _ there)
      obtain ⟨held', turned⟩ := q.exec_turned begun held room.1
      have none_minted : q.monthlyMints account w = [] :=
        List.map_eq_nil_iff.mp ((turned.takes begun).unsighted (unsighted_of_none absent))
      rw [mintedAlong, none_minted]
      change ∀ e ∈ mintedAlong account (q.exec w).1 rest, epoch < e.1
      unfold sightedIn at sighted
      split at sighted
      · rename_i recorded
        obtain rfl := Option.some.inj sighted
        have path := (pending_run held' (fun q' there => started' _ (List.mem_map_of_mem there))
          room.2).1
        have anchor : (pendingAccount account (q.exec w).1.rows).anchor = some q.ctx.epoch :=
          ((turned.takes begun).sights (unsighted_of_none absent)).resolve_left
            (by rw [held'.sighted recorded]; nofun)
        have beyond := path.once_anchored anchor (by rw [turnsOf_periods]; exact rising)
        rw [turnsOf_lotPeriods] at beyond
        exact fun e there => (List.pairwise_cons.mp beyond).1 e.1 (List.mem_map_of_mem there)
      · rename_i unrecorded
        exact ih (Option.not_isSome_iff_eq_none.mp unrecorded) held'
          (List.pairwise_cons.mpr ⟨started', ordered'⟩) room.2 sighted

/-- (SettlesWhole account w q) says what a request does about an account's pending balance: it keeps
the balance with what it credits, or it is a settlement of the account that succeeds and mints the
whole of it.
-/
def SettlesWhole (account : String) (w : World A) (q : Request) : Prop :=
  let pending := (w.rows.getPending account).balance + q.credited account w
  let left := ((q.exec w).1.rows.getPending account).balance
  q.monthlyMints account w = [] ∧ left = pending
    ∨ (∃ m, q.monthlyMints account w = [m] ∧ m.principal = pending) ∧ minMintAmount ≤ pending
      ∧ left = 0 ∧ q.action = .settlePending account ∧ (q.exec w).2.ok = true

/-- The discipline of an account's monthly mints in a run: at most one in an epoch, none in the epoch
in which the account first appears, each of them the whole of what is pending, and all that is credited
minted or still pending.
-/
structure MonthlyDiscipline (account : String) (w : World A) (requests : List Request) : Prop where
  once : ((mintedAlong account w requests).map Prod.fst).Pairwise (· < ·)
  never_first : ∀ epoch, sightedIn account w requests = some epoch
    → ∀ e ∈ mintedAlong account w requests, epoch < e.1
  each : Along (SettlesWhole account) w requests
  whole : creditedAlong account w requests
    = ((mintedAlong account w requests).map fun e => e.2.principal).sum
      + ((after w requests).rows.getPending account).balance

theorem Turned.settlesWhole {account : String} {w : World A} {q : Request}
    (turned : Turned account w q)
    : SettlesWhole account w q := by
  rcases turned with ⟨none_minted, credited⟩ | ⟨mints, asked, done⟩
  · exact .inl ⟨none_minted, credited.balance⟩
  · exact .inr ⟨mints.one, mints.floor, by rw [mints.emptied], asked, done⟩

theorem Along.imp {P P' : World A → Request → Prop} (weaker : ∀ w q, P w q → P' w q) {w : World A}
    {requests : List Request} (along : Along P w requests)
    : Along P' w requests := by
  induction requests generalizing w with
  | nil => trivial
  | cons q rest ih => exact ⟨weaker w q along.1, ih along.2⟩

/-- From any contract set up on a store without rows, whatever requests run at epochs that start at one
and never fall: as long as every credit leaves room in the account's balance, its mints are disciplined.
-/
theorem monthly_mints_disciplined (store : Store) (assets : A) (genesis : UInt64)
    (fresh : store.rows = .empty) (account : String) (requests : List Request)
    (epochs : (1 :: requests.map (·.ctx.epoch)).Pairwise (· ≤ ·))
    (room : Along (Roomy account) (initialised store assets genesis) requests)
    : MonthlyDiscipline account (initialised store assets genesis) requests := by
  have absent : (initialised store assets genesis).rows.pend account = none :=
    congrFun ((initialised_touches store assets genesis fresh).pend rfl) account
  generalize initialised store assets genesis = w at absent room ⊢
  have nothing : w.rows.getPending account = {} := by rw [Rows.getPending, absent]; rfl
  have held : Held account w.rows := by
    refine ⟨by rw [nothing], by rw [nothing]; decide, fun recorded => ?_⟩
    rw [absent] at recorded
    cases recorded
  have started : ∀ q ∈ requests, 1 ≤ q.ctx.epoch := fun q there =>
    (List.pairwise_cons.mp epochs).1 _ (List.mem_map_of_mem there)
  obtain ⟨path, along⟩ := pending_run held started room
  refine ⟨?_, fun epoch sighted => minted_after_sighting absent held epochs room sighted,
    along.imp fun w q => Turned.settlesWhole, ?_⟩
  · rw [← turnsOf_lotPeriods]
    refine path.once (unsighted_of_none absent) ?_
    rw [turnsOf_periods]
    exact (List.pairwise_cons.mp epochs).2
  · have balanced := path.balanced
    rw [turnsOf_lots, turnsOf_credits] at balanced
    have empty : (pendingAccount account w.rows).balance = 0 := by rw [pendingAccount, nothing]
    rw [empty, Int.zero_add] at balanced
    exact balanced.symm

-----------------------------------------------------------------------------------------
-- Two runs
-----------------------------------------------------------------------------------------

instance Along.decidable {P : World A → Request → Prop} [∀ w q, Decidable (P w q)]
    : ∀ (w : World A) (requests : List Request), Decidable (Along P w requests)
  | _, [] => .isTrue trivial
  | w, q :: rest =>
      have := Along.decidable (P := P) (q.exec w).1 rest
      inferInstanceAs (Decidable (P w q ∧ Along P (q.exec w).1 rest))

/-- A request of one author at a height, which its chain unwinds when it fails. -/
def authored (height : UInt64) (epoch : Nat) (action : Action) : Request :=
  ⟨.of "hive:alice" height epoch, action, true⟩

/-- A post's week: it is published, voted on and, once its pool has been funded, paid out. -/
def weekOf (height : UInt64) (permlink : String) (amt : Int64) : List Request :=
  [authored height 1 (.createPost permlink .viral .powerUp),
    authored height 1 (.vote "hive:alice" permlink 100),
    authored height 1 (.fundPool "viral" amt),
    authored (height + 201600) 1 (.payout "hive:alice" permlink)]

/-- One week and its settlement in the next epoch. -/
def mintingRun : List Request :=
  authored 1 1 (.creditMigration "hive:alice" 1000000000000000 100000000000)
    :: (weekOf 1 "a" 1000000000000
      ++ [authored 201601 1 (.settlePending "hive:alice"),
        authored 201602 2 (.settlePending "hive:alice")])

theorem monthly_mints_disciplined_once
    : MonthlyDiscipline "hive:alice" (initialised Store.newMem MemAssets.new 1) mintingRun
      ∧ ((mintedAlong "hive:alice" (initialised Store.newMem MemAssets.new 1) mintingRun).map
        fun e => (e.1, e.2.principal)) = [(2, 1709132396540)] :=
  ⟨monthly_mints_disciplined Store.newMem MemAssets.new 1 rfl "hive:alice" mintingRun
    (by decide +kernel) (by decide +kernel), by decide +kernel⟩

/-- Five weeks whose rewards exceed a word, and a settlement in the next epoch. -/
def overflowingRun : List Request :=
  authored 1 1 (.creditMigration "hive:alice" 9223371936854775807 100000000000)
    :: (weekOf 1 "a" 9223361936854775807 ++ weekOf 201601 "b" 461178136797075450
      ++ weekOf 403201 "c" 23058946794190432 ++ weekOf 604801 "d" 1152987294046181
      ++ weekOf 806401 "e" 57689319038969 ++ [authored 1008001 2 (.settlePending "hive:alice")])

/-- Then every operation succeeds, but the balance has wrapped: what was credited is neither minted nor
pending.
-/
theorem monthly_mints_overflow
    : (1 :: overflowingRun.map (·.ctx.epoch)).Pairwise (· ≤ ·)
      ∧ (results (initialised Store.newMem MemAssets.new 1) overflowingRun).all (·.ok) = true
      ∧ creditedAlong "hive:alice" (initialised Store.newMem MemAssets.new 1) overflowingRun
        = 9223373007868153199
      ∧ ((after (initialised Store.newMem MemAssets.new 1) overflowingRun).rows.getPending
        "hive:alice").balance = -9223371065841398417
      ∧ ¬MonthlyDiscipline "hive:alice" (initialised Store.newMem MemAssets.new 1)
        overflowingRun := by
  have credited : creditedAlong "hive:alice" (initialised Store.newMem MemAssets.new 1)
      overflowingRun = 9223373007868153199 := by
    decide +kernel
  have pending : ((after (initialised Store.newMem MemAssets.new 1) overflowingRun).rows.getPending
      "hive:alice").balance = -9223371065841398417 := by
    decide +kernel
  have minted : mintedAlong "hive:alice" (initialised Store.newMem MemAssets.new 1) overflowingRun
      = [] := by
    decide +kernel
  refine ⟨by decide +kernel, by decide +kernel, credited, pending, fun disciplined => ?_⟩
  have whole := disciplined.whole
  rw [credited, pending, minted] at whole
  exact absurd whole (by decide)

end LasseCash.State
