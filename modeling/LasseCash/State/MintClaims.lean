import LasseCash.State.MintTerms

/-! What a successful claim of a mint does: the settlement that it credits to the owner, the
message that it returns, and the record that it leaves.
-/

namespace LasseCash.State

open Engine MachineInt Function Program

-----------------------------------------------------------------------------------------
-- Credits
-----------------------------------------------------------------------------------------

/-- (Credits s s' account amt) says that the ledger takes a credit of `amt` to the account, and
that `s'` holds the balances which it leaves.
-/
structure Credits (s s' : Store) (account : String) (amt : Int) : Prop where
  made : (s.credit account amt).2 = true
  bal : s'.bal = (s.credit account amt).1.bal
  token : s'.token = (s.credit account amt).1.token

/-- A credit does not depend on the rows. -/
theorem Store.credit_modify (s : Store) (f : Rows → Rows) (account : String) (amt : Int)
    : ((s.modify f).credit account amt).2 = (s.credit account amt).2
      ∧ ((s.modify f).credit account amt).1.bal = (s.credit account amt).1.bal
      ∧ ((s.modify f).credit account amt).1.token = (s.credit account amt).1.token := by
  obtain ⟨r, bal, token⟩ := s
  by_cases negative : amt < 0
  · simp only [Store.credit, negative, if_true, Store.modify, and_self]
  by_cases zero : amt = 0
  · subst zero
    exact ⟨rfl, rfl, rfl⟩
  cases token with
  | none =>
      simp only [Store.credit, negative, zero, if_false, Store.modify, Store.balance,
        Store.legacyBalance]
      cases addAmount ((bal account).getD 0) amt <;> exact ⟨rfl, rfl, rfl⟩
  | some t =>
      simp only [Store.credit, negative, zero, if_false, Store.modify, Store.ensureMigrated,
        Store.legacyBalance]
      by_cases nothing : (bal account).getD 0 ≤ 0
      · simp only [nothing, if_true]
        cases t.transfer account amt <;> exact ⟨rfl, rfl, rfl⟩
      · simp only [nothing, if_false]
        cases t.mint ((bal account).getD 0) with
        | none => exact ⟨rfl, rfl, rfl⟩
        | some t =>
            dsimp only
            cases t.transfer account ((bal account).getD 0) with
            | none => exact ⟨rfl, rfl, rfl⟩
            | some t =>
                dsimp only
                cases t.transfer account amt <;> exact ⟨rfl, rfl, rfl⟩

/-- Where nothing is owed, nothing is credited. -/
theorem Credits.refl (s : Store) (account : String) : Credits s s account 0 := ⟨rfl, rfl, rfl⟩

-----------------------------------------------------------------------------------------
-- Claims
-----------------------------------------------------------------------------------------

variable {A : Type} [Assets A]

/-- The world after the walk that an operation carries. -/
def caughtUp (ctx : Ctx) (w : World A) : World A := ((accrue ctx.height).run serve w).1

/-- What a mint is settled with at a reading of the accumulator. -/
def settlementOf (ctx : Ctx) (w : World A) (m : Mint) (accEnd : Int) : Settlement :=
  m.settle ctx.height (accruedYield (caughtUp ctx w).rows m accEnd)

/-- (MintClaimed ctx id w w' msg m accEnd) says that `w'` and `msg` are what a claim of `m` leaves
and returns, settled at the reading `accEnd`.
-/
structure MintClaimed (ctx : Ctx) (id : Nat) (w w' : World A) (msg : String) (m : Mint) (accEnd : Int)
    : Prop where
  found : w.rows.getMint ctx.sender id = some m
  going : m.ended = false
  reading : accEndOf (caughtUp ctx w).rows m ctx.height = some accEnd
  credits : Credits (caughtUp ctx w).store w'.store ctx.sender
    (max 0 (settlementOf ctx w m accEnd).toOwner)
  told : msg
    = if (settlementOf ctx w m accEnd).early then
        "ended early, recovered " ++ encI64 (settlementOf ctx w m accEnd).toOwner
      else "claimed " ++ encI64 (settlementOf ctx w m accEnd).toOwner
  ended : w'.rows.getMint ctx.sender id = some { m with ended := true }

/-- What the owner is owed is credited, and nothing is where that is not positive. -/
theorem payOwner_credits {owner : String} {amt : Int} {w : World A}
    (paid : ((endMint.payOwner owner amt).run serve w).2 = true)
    : Credits w.store ((endMint.payOwner owner amt).run serve w).1.store owner (max 0 amt) := by
  unfold endMint.payOwner at paid ⊢
  by_cases owed : amt > 0
  · rw [if_pos owed] at paid ⊢
    rw [max_eq_right owed.le]
    exact ⟨paid, rfl, rfl⟩
  · rw [if_neg owed, max_eq_left (not_lt.mp owed)]
    exact .refl w.store owner

/-- A payment to an owner may note the account, no more. -/
theorem payOwner_touches (owner : String) (amt : Int) (w : World A)
    : Touches [.roll] w.rows ((endMint.payOwner owner amt).run serve w).1.rows := by
  unfold endMint.payOwner
  by_cases owed : amt > 0
  · rw [if_pos owed]
    change Touches [.roll] w.store.rows (w.store.credit owner amt).1.rows
    rcases w.store.credit_rows owner amt with same | ⟨-, noted⟩
    · rw [same]
      exact .refl _
    · rw [noted]
      exact (Touches.refl _).noteAccount owner (by rfl)
  · rw [if_neg owed]
    exact .refl w.rows

/-- The refusal of a claim whose maturity day has not closed. -/
def unclosedDay : String :=
  "mint matured today; the day has not closed yet — call advance, then claim again"

/-- What a claim of `m` leaves and answers once it has its reading. -/
def closing (ctx : Ctx) (id : Nat) (w : World A) (m : Mint) (accEnd : Int) : World A × Result :=
  let settled := settlementOf ctx w m accEnd
  let closed : World A :=
    { caughtUp ctx w with
      store := (caughtUp ctx w).store.modify fun r => closeMint r id m (accruedYield r m accEnd) }
  let paid := (endMint.payOwner ctx.sender settled.toOwner).run serve closed
  if paid.2 then
    ({ paid.1 with store := paid.1.store.modify (recycle · settled.toRewardPool) },
      ok (if settled.early then "ended early, recovered " ++ encI64 settled.toOwner
        else "claimed " ++ encI64 settled.toOwner))
  else (paid.1, fail "credit failed")

/-- The end of a claim, in the words of the source. -/
theorem closing_eq (ctx : Ctx) (id : Nat) (w : World A) (m : Mint) (accEnd : Int)
    : let settled := settlementOf ctx w m accEnd
      let closed : World A :=
        { caughtUp ctx w with
          store := (caughtUp ctx w).store.modify fun r => closeMint r id m (accruedYield r m accEnd) }
      let paid := (endMint.payOwner ctx.sender settled.toOwner).run serve closed
      let left : World A :=
        { paid.1 with store := paid.1.store.modify (recycle · settled.toRewardPool) }
      (if (!paid.2) = true then (paid.1, fail "credit failed")
        else if settled.early = true then
          (left, ok ("ended early, recovered " ++ encI64 settled.toOwner))
        else (left, ok ("claimed " ++ encI64 settled.toOwner)))
      = closing ctx id w m accEnd := by
  intro settled closed paid left
  change _ = if paid.2 then (left, ok (if settled.early then _ else _)) else (paid.1, _)
  cases paid.2 with
  | false => rfl
  | true => cases settled.early <;> rfl

/-- A claim, in the words of its checks. -/
theorem claimMint_run (ctx : Ctx) (id : Nat) (w : World A)
    : (claimMint ctx id).run serve w
      = if w.rows.init then
          match w.rows.getMint ctx.sender id with
          | none => (w, fail "no such mint")
          | some m =>
              if m.ended then (w, fail "mint already ended")
              else
                match accEndOf (caughtUp ctx w).rows m ctx.height with
                | none => (caughtUp ctx w, fail unclosedDay)
                | some accEnd => closing ctx id w m accEnd
        else (w, fail "not initialised") := by
  have read (w : World A) : rows.run serve w = (w, w.rows) := rfl
  unfold claimMint endMint
  simp only [run_bind, run_ite, run_pure, read]
  cases started : w.rows.init with
  | false => rfl
  | true =>
      cases found : w.rows.getMint ctx.sender id with
      | none => rfl
      | some m =>
          simp only [run_bind, run_ite, run_pure, read]
          cases going : m.ended with
          | true => rfl
          | false =>
              change Program.run serve (match accEndOf (caughtUp ctx w).rows m ctx.height with
                | none => _
                | some accEnd => _) (caughtUp ctx w) = _
              cases reading : accEndOf (caughtUp ctx w).rows m ctx.height with
              | none => rfl
              | some accEnd =>
                  simp only [run_bind, run_ite, run_pure, Bool.false_eq_true, false_and, if_false,
                    if_true]
                  exact closing_eq ctx id w m accEnd

/-- A claim that succeeds closes the open mint that it found, at its reading. -/
theorem claimMint_closes {ctx : Ctx} {id : Nat} {w w' : World A} {msg : String}
    (claims : (claimMint ctx id).run serve w = (w', ok msg))
    : ∃ m accEnd, w.rows.getMint ctx.sender id = some m ∧ m.ended = false
      ∧ accEndOf (caughtUp ctx w).rows m ctx.height = some accEnd
      ∧ closing ctx id w m accEnd = (w', ok msg) := by
  rw [claimMint_run] at claims
  split at claims
  case isFalse => cases claims
  split at claims
  case h_1 => cases claims
  rename_i m found
  split at claims
  case isTrue => cases claims
  rename_i going
  split at claims
  case h_1 => cases claims
  rename_i accEnd reading
  exact ⟨m, accEnd, found, Bool.eq_false_iff.mpr going, reading, claims⟩

/-- It settles that mint. -/
theorem claimMint_claimed {ctx : Ctx} {id : Nat} {w w' : World A} {msg : String}
    (claims : (claimMint ctx id).run serve w = (w', ok msg))
    : ∃ m accEnd, MintClaimed ctx id w w' msg m accEnd := by
  obtain ⟨m, accEnd, found, going, reading, closes⟩ := claimMint_closes claims
  unfold closing at closes
  dsimp only at closes
  split at closes
  case isFalse => cases closes
  rename_i credited
  obtain ⟨made, bal, token⟩ := payOwner_credits credited
  obtain ⟨same, sameBal, sameToken⟩ := (caughtUp ctx w).store.credit_modify
    (fun r => closeMint r id m (accruedYield r m accEnd)) ctx.sender
    (max 0 (settlementOf ctx w m accEnd).toOwner)
  obtain ⟨rfl, told⟩ := Prod.mk.inj closes
  refine ⟨m, accEnd, found, going, reading,
    ⟨same ▸ made, bal.trans sameBal, token.trans sameToken⟩, (congrArg Result.msg told).symm, ?_⟩
  have recycled (w : World A) (amt : Int)
      : ({ w with store := w.store.modify (recycle · amt) } : World A).rows.mint = w.rows.mint :=
    (recycle_touches w.rows amt).mint rfl
  rw [Rows.getMint, recycled, ((payOwner_touches _ _ _).mint (by rfl))]
  change Option.map _ ((closeMint (caughtUp ctx w).rows id m _).mint _) = _
  rw [closeMint_mints, getMint_owner found, update_self]
  simp only [Option.map_some, ← getMint_owner found]

-----------------------------------------------------------------------------------------
-- Settlements
-----------------------------------------------------------------------------------------

/-- The sign of an amount is the sign of its fraction. -/
theorem mulDiv_neg {a num den : Int} (positive : 0 < a) (word : a < 2 ^ 63) (hn : 0 ≤ num)
    (hd : 0 < den)
    : mulDiv (-a) num den = (mulDiv a num den).map (-·) := by
  have least : ¬-a = -2 ^ 63 := by omega
  have least' : ¬a = -2 ^ 63 := by omega
  have signs : (decide (-a < 0)).xor ((decide (num < 0)).xor (decide (den < 0))) = true := by
    simp [positive, not_lt.mpr hn, not_lt.mpr hd.le]
  have signs' : (decide (a < 0)).xor ((decide (num < 0)).xor (decide (den < 0))) = false := by
    simp [not_lt.mpr positive.le, not_lt.mpr hn, not_lt.mpr hd.le]
  simp only [mulDiv, if_neg hd.ne', signs, signs', absU64, if_neg least, if_neg least',
    Int.natAbs_neg]
  split
  · split
    · rfl
    split
    · rfl
    · simp
  · rfl

/-- A fraction of a negative amount is negative once it is a whole unit; the least word is
refused.
-/
theorem mulDiv_fraction_nonneg {a num den : Int} (word : InI64 a) (hn : 0 ≤ num) (le : num ≤ den)
    (hd : 0 < den) (small : den < 2 ^ 63)
    : 0 ≤ (mulDiv a num den).getD 0 ↔ -den < a * num ∨ a = -2 ^ 63 := by
  rcases le_or_gt 0 a with positive | negative
  · have whole := mul_nonneg positive hn
    have part : a * num / den ≤ maxAmount := by
      have := Int.ediv_le_of_le_mul hd (mul_le_mul_of_nonneg_left le positive)
      have := word.upper
      unfold maxAmount
      omega
    rw [mulDiv_of_fits positive hn hd part, Option.getD_some]
    exact ⟨fun _ => .inl (by omega), fun _ => Int.ediv_nonneg whole hd.le⟩
  · by_cases least : a = -2 ^ 63
    · have refused : mulDiv a num den = none := by
        rw [mulDiv, if_neg hd.ne', absU64, if_pos least]
      rw [refused]
      exact ⟨fun _ => .inr least, fun _ => le_rfl⟩
    · have bounds := word.lower
      have magnitude : 0 < -a := by omega
      have whole := mul_nonneg magnitude.le hn
      have part : -a * num / den ≤ maxAmount := by
        have := Int.ediv_le_of_le_mul hd (mul_le_mul_of_nonneg_left le magnitude.le)
        unfold maxAmount
        omega
      have fraction := mulDiv_neg magnitude (by omega) hn hd
      rw [neg_neg, mulDiv_of_fits magnitude.le hn hd part] at fraction
      rw [fraction, Option.map_some, Option.getD_some, neg_nonneg]
      have none_left : -a * num / den ≤ 0 ↔ -a * num < den := by
        rw [← Int.lt_add_one_iff, Int.ediv_lt_iff_lt_mul hd]
        omega
      rw [none_left, neg_mul]
      omega

/-- (Collects m height total) says that what the bleed leaves of `total` is not a debt of one unit
or more.
-/
def Collects (m : Mint) (height : Nat) (total : Int) : Prop :=
  -multScale < total * m.bleedRemaining height ∨ total = -2 ^ 63

instance (m : Mint) (height : Nat) (total : Int) : Decidable (Collects m height total) :=
  inferInstanceAs (Decidable (_ ∨ _))

/-- A mature mint leaves its owner a debt exactly where its principal and its yield do. -/
theorem Mint.settle_collects {m : Mint} {height : Nat} (mature : m.isMature height = true)
    (accrued : Int)
    : 0 ≤ (m.settle height accrued).toOwner ↔ Collects m height (i64 (m.principal + accrued)) := by
  obtain ⟨nonneg, le⟩ := m.bleedRemaining_mem height
  simp only [Mint.settle, mature, Bool.true_eq_false, if_false]
  exact mulDiv_fraction_nonneg (i64_mem _) nonneg le (by decide) (by decide)

/-- Where the terms of a mint end within a word, they end at its maturity. -/
theorem maturityHeight_of_le {m : Mint} {height : Nat} (word : height < 2 ^ 64)
    (ends : (m.startHeight : Int) + m.days * heightsPerDay ≤ height)
    : (m.maturityHeight : Int) = m.startHeight + m.days * heightsPerDay := by
  obtain ⟨lower, upper⟩ := m.days_mem
  unfold minMintDays at lower
  unfold maxMintDays at upper
  unfold heightsPerDay at *
  rw [Mint.maturityHeight, toU64_of_nonneg (by omega) (by omega)]
  unfold u64 heightsPerDay
  omega

-----------------------------------------------------------------------------------------
-- Ids
-----------------------------------------------------------------------------------------

/-- (MintIds r) says that every mint is stored under an id that its owner has been given. -/
def MintIds (r : Rows) : Prop :=
  ∀ owner id m, r.mint (owner, id) = some m → id ≤ r.getU64 (.mintSeq owner)

/-- Storing mints gives out no ids, by induction on the mints. -/
theorem storeMints_mintSeq (r : Rows) (stamped : List (Nat × Mint)) (owner : String)
    : (storeMints r stamped).getU64 (.mintSeq owner) = r.getU64 (.mintSeq owner) := by
  induction stamped generalizing r with
  | nil => rfl
  | cons e rest ih =>
      exact (ih _).trans (((Touches.refl _).noteAccount e.2.owner (by rfl) : Touches [.roll] _ _).count _ (by rfl))

/-- Mints are entered under the ids that they are given. -/
theorem enterMints_ids {r : Rows} (ids : MintIds r) (mints : List Mint)
    : MintIds (enterMints r mints).1 := by
  intro owner id m found
  obtain ⟨steady, fresh⟩ := stampMints_steady (accPerShare r) mints r
  have kept := (stampMints_mints (accPerShare r) mints r).1
  unfold enterMints at found ⊢
  dsimp only at found ⊢
  generalize stampMints (accPerShare r) mints r = stamped at steady fresh kept found
  obtain ⟨r₁, stamped⟩ := stamped
  dsimp only at steady fresh kept found ⊢
  generalize total : r₁.setAmount .sharesTotal
    (i64 (totalShares r₁ + sumI64 (mints.map (·.shares)))) = r₂ at found ⊢
  obtain ⟨aside, sameIds⟩ := scheduleDays_aside (mints.map (maturityDay r₂)).eraseDups r₂ stamped
  generalize scheduleDays (mints.map (maturityDay r₂)).eraseDups r₂ stamped = scheduled
    at aside sameIds found
  obtain ⟨r₃, stamped'⟩ := scheduled
  dsimp only at aside sameIds found ⊢
  have counts : r₃.getU64 (.mintSeq owner) = r₁.getU64 (.mintSeq owner) := by
    rw [aside.getU64 (.mintSeq owner) rfl, ← total]
    rfl
  rw [storeMints_mintSeq, counts]
  rcases storeMints_mints _ _ found with before | ⟨new, rfl⟩
  · rw [aside.mint, ← total] at before
    exact (ids owner id m (kept ▸ before)).trans (steady.evolves.mintSeq owner)
  · exact sameIds.forall (P := fun id owner => id ≤ r₁.getU64 (.mintSeq owner)) fresh.counted _ new

/-- Writing over a stored mint gives out no id. -/
theorem MintIds.written {r r' : Rows} (ids : MintIds r) {owner : String} {id : Nat} {m m' : Mint}
    (found : r.getMint owner id = some m)
    (mints : r'.mint = update r.mint (owner, id) (some m'))
    (seq : ∀ account, r'.getU64 (.mintSeq account) = r.getU64 (.mintSeq account))
    : MintIds r' := by
  intro owner' id' m₁ there
  rw [seq]
  by_cases same : (owner', id') = (owner, id)
  · obtain ⟨rfl, rfl⟩ := Prod.mk.inj same
    obtain ⟨m₀, stored, -⟩ := Option.map_eq_some_iff.mp found
    exact ids _ _ m₀ stored
  · rw [mints, update_of_ne same] at there
    exact ids owner' id' m₁ there

/-- A step that touches no mint gives out no id. -/
theorem MintIds.aside {sides : List Side} {r r' : Rows} (ids : MintIds r)
    (touched : Touches sides r r') (away : sides.contains .mints = false)
    : MintIds r' := by
  intro owner id m there
  rw [touched.mint away] at there
  exact (ids owner id m there).trans (touched.count (.mintSeq owner) away).ge

theorem Step.mintIds {o : Origin} {whole : Prop} {r r' : Rows} (h : Step o whole r r')
    (ids : MintIds r)
    : MintIds r' := by
  cases h with
  | ledger step => exact ids.aside step.touches rfl
  | content step => exact ids.aside step.touches rfl
  | liquidity step => exact ids.aside step.touches rfl
  | migration step => exact ids.aside step.touches rfl
  | mint step =>
      cases step with
      | enter mints entries => exact enterMints_ids ids mints
      | convert account days params m made current =>
          have emptied : MintIds (r.putPending account ⟨0, o.ctx.epoch⟩) := ids
          exact enterMints_ids emptied [m]
      | close owner id m accEnd found going reading own =>
          have marked := closeMint_mints r id m (accruedYield r m accEnd)
          rw [getMint_owner found] at marked
          obtain ⟨r₁, pool, released⟩ := closeMint_marks r id m (accruedYield r m accEnd)
          exact ids.written found marked fun account =>
            (released.getU64 (.mintSeq account) rfl).trans (pool.getU64 (.mintSeq account) rfl)
      | arm id m found able =>
          have armed : (r.putMint id { m with goodAccounting := true }).mint
              = update r.mint (o.ctx.sender, id) (some { m with goodAccounting := true }) := by
            rw [← getMint_owner found]
            rfl
          exact ids.written found armed fun _ => rfl

/-- Initialising a fresh store stores no mint. -/
theorem initialised_mintIds (store : Store) (assets : A) (genesis : UInt64)
    (fresh : store.rows = .empty)
    : MintIds (initialised store assets genesis).rows := by
  intro owner id m there
  rw [((initialised_touches store assets genesis fresh).mint rfl)] at there
  cases there

/-- What a claim needs of the rows it finds, in every world that is reached. -/
structure MintLog (r : Rows) : Prop where
  settled : Settled r
  ids : MintIds r

theorem Request.exec_mintLog {w : World A} (q : Request) (log : MintLog w.rows)
    : MintLog (q.exec w).1.rows :=
  ⟨q.exec_settled log.settled,
    (q.exec_steps w).keep (fun _ _ kept step => step.mintIds kept) log.ids⟩

/-- A stored mint stays stored on its terms, and ended where it is, by induction on the requests. -/
theorem after_continues {w : World A} (log : MintLog w.rows) (requests : List Request)
    {owner : String} {id : Nat} {m : Mint} (found : w.rows.getMint owner id = some m)
    : ∃ m', (after w requests).rows.getMint owner id = some m' ∧ Continues m m' := by
  induction requests generalizing w m with
  | nil => exact ⟨m, found, .refl m⟩
  | cons q rest ih =>
      obtain ⟨m₀, stored, rfl⟩ := Option.map_eq_some_iff.mp found
      obtain ⟨m₁, stored₁, same⟩ := (q.exec_effect w log.settled.words).evolves.mint owner id m₀
        (log.ids owner id m₀ stored) stored
      obtain ⟨m₂, stored₂, later⟩ := ih (w := (q.exec w).1) (q.exec_mintLog log)
        (Option.map_eq_some_iff.mpr ⟨m₁, stored₁, rfl⟩)
      refine ⟨m₂, stored₂, Continues.trans ?_ later⟩
      exact ⟨same.principal, same.shares, same.startHeight, same.days, same.accStart,
        same.expChunk, same.ended⟩

/-- From the deployment on, whatever is asked, a mint that is stored is never lost or replaced: it
keeps its terms, and once it has ended it stays ended.
-/
theorem mint_terms_permanent (store : Store) (assets : A) (genesis : UInt64)
    (fresh : store.rows = .empty) (requests later : List Request) {owner : String} {id : Nat}
    {m : Mint}
    (found : (after (initialised store assets genesis) requests).rows.getMint owner id = some m)
    : ∃ m', (after (after (initialised store assets genesis) requests) later).rows.getMint owner id
          = some m'
        ∧ Continues m m' := by
  have log : MintLog (after (initialised store assets genesis) requests).rows :=
    after_keep (I := fun w => MintLog w.rows) (fun _ q log => q.exec_mintLog log)
      ⟨initialised_settled store assets genesis fresh,
        initialised_mintIds store assets genesis fresh⟩ requests
  exact after_continues log later found

/-- A mint that its owner ends on the next day, with another created in between. -/
theorem mint_terms_permanent_ended
    : let w := after (initialised Store.newMem MemAssets.new 1)
        [⟨.of "hive:owner" 1, .creditMigration "hive:a" 10000000000000 0, true⟩,
          ⟨.of "hive:a" 2, .createMint 1000000000000 30, true⟩]
      let w' := after w
        [⟨.of "hive:a" 3, .createMint 1000000000000 60, true⟩,
          ⟨.of "hive:a" 28804, .claimMint 1, true⟩]
      ∃ m m', w.rows.getMint "hive:a" 1 = some m ∧ w'.rows.getMint "hive:a" 1 = some m'
        ∧ m.ended = false ∧ m'.ended = true ∧ Continues m m' := by
  intro w w'
  have stored : (w.rows.getMint "hive:a" 1).isSome = true := by decide +kernel
  obtain ⟨m, found⟩ := Option.isSome_iff_exists.mp stored
  obtain ⟨m', found', same⟩ := mint_terms_permanent Store.newMem MemAssets.new 1 rfl _
    [⟨.of "hive:a" 3, .createMint 1000000000000 60, true⟩,
      ⟨.of "hive:a" 28804, .claimMint 1, true⟩] found
  have going : (w.rows.getMint "hive:a" 1).map (·.ended) = some false := by decide +kernel
  have closed : (w'.rows.getMint "hive:a" 1).map (·.ended) = some true := by decide +kernel
  rw [found] at going
  rw [show w'.rows.getMint "hive:a" 1 = some m' from found'] at closed
  exact ⟨m, m', found, found', Option.some.inj going, Option.some.inj closed, same⟩

end LasseCash.State
