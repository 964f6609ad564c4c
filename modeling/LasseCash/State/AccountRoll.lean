import LasseCash.Lib.ChunkedLog
import LasseCash.State.MintTerms
import LasseCash.State.TokenAdoption
import Mathlib.Data.List.Nodup

/-! The account roll is complete and exact: whoever has held a balance or a mint, or has been
credited, stands in its chunks once.
-/

namespace LasseCash.State

open Engine MachineInt Function Program ChunkedLog

-----------------------------------------------------------------------------------------
-- Reading the roll
-----------------------------------------------------------------------------------------

/-- The size of a chunk of the roll. -/
def accountChunkSize : Nat := 25

/-- The separator of a row's fields. -/
def sep : Char := '|'

/-- One row of the roll, cut back into its names; a row that is missing or empty has none. -/
def accountChunk (r : Rows) (i : Nat) : List String :=
  let raw := ((r.acctChunk i).map (text sep)).getD ""
  if raw = "" then [] else names sep raw

/-- All names, chunk by chunk. -/
def walkRoll (r : Rows) : List String :=
  (List.range ((r.getU64 .acctCount + accountChunkSize - 1) / accountChunkSize)).flatMap
    (accountChunk r)

-----------------------------------------------------------------------------------------
-- The roll as a list of names
-----------------------------------------------------------------------------------------

/-- (Enrols r roll) says that the rows hold this roll: each name once, in chunks. -/
structure Enrols (r : Rows) (roll : List String) : Prop where
  apart : roll.Nodup
  named : "" ∉ roll
  seen : ∀ account, r.seen account = true ↔ account ∈ roll
  count : r.getU64 .acctCount = roll.length
  chunk : ∀ i, (r.acctChunk i).getD [] = chunk accountChunkSize roll i

variable {o : Origin} {whole : Prop} {r r' : Rows} {roll : List String} {sides : List Side}

/-- A footprint without the roll keeps it. -/
theorem Enrols.touches (h : Enrols r roll) (touched : Touches sides r r')
    (away : sides.contains .roll = false)
    : Enrols r' roll := by
  have seen : r'.seen = r.seen := touched .seen away
  have chunks : r'.acctChunk = r.acctChunk := touched .acctChunk away
  refine ⟨h.apart, h.named, ?_, ?_, ?_⟩
  · rw [seen]
    exact h.seen
  · rw [touched.count .acctCount away]
    exact h.count
  · rw [chunks]
    exact h.chunk

/-- Noting an account appends it, unless it stands there already or is nobody. -/
theorem Enrols.note (h : Enrols r roll) (account : String)
    : ∃ roll', roll <+: roll' ∧ Enrols (noteAccount r account) roll'
      ∧ (account ≠ "" → account ∈ roll') := by
  unfold noteAccount
  split_ifs with nobody known
  · exact ⟨roll, List.prefix_refl roll, h, fun named => absurd nobody named⟩
  · exact ⟨roll, List.prefix_refl roll, h, fun _ => (h.seen account).mp known⟩
  · have new : account ∉ roll := fun there => known ((h.seen account).mpr there)
    refine ⟨roll ++ [account], List.prefix_append _ _, ⟨?_, ?_, fun other => ?_, ?_, fun i => ?_⟩,
      fun _ => by simp⟩
    · rw [← List.concat_eq_append]
      exact (List.nodup_concat roll account).mpr ⟨new, h.apart⟩
    · simp only [List.mem_append, List.mem_singleton, not_or]
      exact ⟨h.named, fun same => nobody same.symm⟩
    · have before := h.seen other
      by_cases same : other = account <;> simp [same, before]
    · simp [h.count]
    · have before := h.chunk i
      have grown := chunk_append (by decide : 0 < accountChunkSize) roll account i
      rw [grown]
      simp only [Rows.appendAccount_acctChunk, h.count, update_apply]
      change (if i = roll.length / accountChunkSize then _ else _ : Option (List String)).getD [] = _
      split
      case isTrue here =>
        rw [Option.getD_some, ← before, here]
        rfl
      case isFalse => exact before

/-- What an append writes is the text of the row with the separator and the name behind it, or the
name alone in a new row.
-/
theorem Enrols.appended (h : Enrols r roll) (clean : ∀ name ∈ roll, sep ∉ name.toList)
    (account : String)
    : let i := r.getU64 .acctCount / accountChunkSize
      let cur := ((r.acctChunk i).map (text sep)).getD ""
      ((r.appendAccount account).acctChunk i).map (text sep)
        = some (if cur = "" then account else cur ++ String.singleton sep ++ account) := by
  intro i cur
  have written : (r.appendAccount account).acctChunk i
      = some ((r.acctChunk i).getD [] ++ [account]) := by
    simp [i, accountChunkSize]
  have inside {name : String} (there : name ∈ (r.acctChunk i).getD []) : name ∈ roll := by
    rw [h.chunk i] at there
    exact List.mem_of_mem_drop (List.mem_of_mem_take there)
  rw [written, Option.map_some]
  cases row : r.acctChunk i with
  | none => simp [cur, row, text]
  | some written =>
      rw [row] at inside
      cases written with
      | nil => simp [cur, row, text]
      | cons name rest =>
          have full : cur ≠ "" := by
            have named : name ≠ "" := fun nobody => h.named (nobody ▸ inside List.mem_cons_self)
            simpa [cur, row] using text_ne sep named fun n there => clean n (inside there)
          rw [if_neg full, Option.getD_some, text_append sep (List.cons_ne_nil name rest)]
          simp [cur, row]

/-- Storing mints notes their owners, by induction on them. -/
theorem Enrols.store (h : Enrols r roll) (stamped : List (Nat × Mint))
    : ∃ roll', roll <+: roll' ∧ Enrols (storeMints r stamped) roll'
      ∧ ∀ e ∈ stamped, e.2.owner ≠ "" → e.2.owner ∈ roll' := by
  induction stamped generalizing r roll with
  | nil => exact ⟨roll, List.prefix_refl roll, h, nofun⟩
  | cons e rest ih =>
      have put : Enrols (r.putMint e.1 e.2) roll :=
        h.touches ((Touches.refl r).putMint e.1 e.2 rfl : Touches [.mints] _ _) (by rfl)
      obtain ⟨noted, longer, enrols, here⟩ := put.note e.2.owner
      obtain ⟨roll', longer', enrols', later⟩ := ih enrols
      refine ⟨roll', longer.trans longer', enrols', ?_⟩
      rintro e' (_ | ⟨_, there⟩) named
      · exact longer'.subset (here named)
      · exact later e' there named

-----------------------------------------------------------------------------------------
-- Steps
-----------------------------------------------------------------------------------------

/-- (Rolls r roll) says that the rows hold this roll, and that the owner of every mint stands in
it.
-/
structure Rolls (r : Rows) (roll : List String) : Prop where
  enrols : Enrols r roll
  owners : ∀ owner id m, r.getMint owner id = some m → owner ≠ "" → owner ∈ roll

/-- A footprint without the roll and the mints keeps both. -/
theorem Rolls.touches (h : Rolls r roll) (touched : Touches sides r r')
    (away : sides.contains .roll = false)
    (unminted : sides.contains .mints = false)
    : ∃ roll', roll <+: roll' ∧ Rolls r' roll' :=
  ⟨roll, List.prefix_refl roll, h.enrols.touches touched away, fun owner id m found =>
    h.owners owner id m (touched.getMint owner id unminted ▸ found)⟩

theorem Rolls.note (h : Rolls r roll) (account : String)
    : ∃ roll', roll <+: roll' ∧ Rolls (noteAccount r account) roll' := by
  obtain ⟨roll', longer, enrols, _⟩ := h.enrols.note account
  refine ⟨roll', longer, enrols, fun owner id m found named => longer.subset ?_⟩
  rw [((Touches.refl r).noteAccount account rfl : Touches [.roll] _ _).getMint owner id rfl] at found
  exact h.owners owner id m found named

/-- Entering mints enrols their owners. -/
theorem Rolls.enter (h : Rolls r roll) (mints : List Mint)
    : ∃ roll', roll <+: roll' ∧ Rolls (enterMints r mints).1 roll' := by
  obtain ⟨r₁, stamped, touched, unwritten, -, stored⟩ := enterMints_registers r mints
  obtain ⟨roll', longer, enrols, noted⟩ := (h.enrols.touches touched rfl).store stamped
  rw [stored]
  refine ⟨roll', longer, enrols, fun owner id m found named => ?_⟩
  obtain ⟨m', there, rfl⟩ := Option.map_eq_some_iff.mp found
  rcases storeMints_mints _ _ there with before | ⟨new, own⟩
  · rw [unwritten] at before
    exact longer.subset (h.owners owner id _ (Option.map_eq_some_iff.mpr ⟨m', before, rfl⟩) named)
  · exact own ▸ noted _ new (own ▸ named)

/-- Marking a mint that is there changes no owner. -/
theorem Rolls.mark (h : Rolls r roll) {owner : String} {id : Nat} {m : Mint}
    (found : r.getMint owner id = some m) {marked : Mint} (enrols : Enrols r' roll)
    (mints : r'.mint = update r.mint (m.owner, id) (some marked))
    : ∃ roll', roll <+: roll' ∧ Rolls r' roll' := by
  rw [getMint_owner found] at mints
  refine ⟨roll, List.prefix_refl roll, enrols, fun owner' id' m' found' named => ?_⟩
  rcases getMint_written mints found' with before | ⟨rfl, rfl, rfl⟩
  · exact h.owners owner' id' m' before named
  · exact h.owners _ _ m found named

theorem LedgerWrite.rolls (step : LedgerWrite o whole r r') (h : Rolls r roll)
    : ∃ roll', roll <+: roll' ∧ Rolls r' roll' := by
  cases step with
  | note account => exact h.note account
  | push delta next =>
      exact h.touches ((Touches.refl r).setAmount .migrated next rfl : Touches [.supply] _ _)
        (by rfl) (by rfl)
  | accrue accrues strides => exact h.touches accrues.touches rfl rfl
  | fund done target amt => exact h.touches (fundTarget_touches r target amt.toInt) rfl rfl
  | recycle amt => exact h.touches (recycle_touches r amt) rfl rfl
  | seat account => exact h.touches ((Touches.refl r).offer account rfl : Touches [.board] _ _) (by rfl) (by rfl)
  | prefer key value =>
      exact h.touches ((Touches.refl r).setPreference key _ value (by rfl) : Touches [.settings] _ _)
        (by rfl) (by rfl)
  | span days =>
      exact h.touches ((Touches.refl r).setDuration _ days (by rfl) : Touches [.settings] _ _)
        (by rfl) (by rfl)

theorem MintWrite.rolls (step : MintWrite o r r') (h : Rolls r roll)
    : ∃ roll', roll <+: roll' ∧ Rolls r' roll' := by
  cases step with
  | enter mints entries => exact h.enter mints
  | convert account days params m made current =>
      have emptied : Touches [.pending] r (r.putPending account ⟨0, o.ctx.epoch⟩) :=
        (Touches.refl r).putPending account _ (by rfl)
      obtain ⟨roll', longer, rolls⟩ := h.touches emptied rfl rfl
      obtain ⟨roll'', longer', rolls'⟩ := rolls.enter [m]
      exact ⟨roll'', longer.trans longer', rolls'⟩
  | close owner id m accEnd found going reading own =>
      exact h.mark found (h.enrols.touches (closeMint_touches r id m _) (by rfl)) (closeMint_mints r id m _)
  | arm id m found able =>
      have armed : Touches [.mints] r (r.putMint id { m with goodAccounting := true }) :=
        (Touches.refl r).putMint id _ (by rfl)
      exact h.mark found (h.enrols.touches armed rfl) rfl

theorem LiquidityWrite.rolls (step : LiquidityWrite o whole r r') (h : Rolls r roll)
    : ∃ roll', roll <+: roll' ∧ Rolls r' roll' := by
  cases step with
  | settle owner id t => exact h.touches (settleRows_touches r _ id t) (by rfl) (by rfl)
  | touch id t =>
      exact h.touches ((Touches.refl r).putTranche id _ (by rfl) : Touches [.tranches] _ _) (by rfl) (by rfl)
  | deposit done lcIn maxHbd hbdIn shares r' asked first positive priced earned some_earned
      accrues strides =>
      obtain ⟨opened, accrued⟩ := deposited_touches accrues o.ctx
      have deposited : Touches [.reserves] r (depositRows r lcIn.toInt hbdIn shares) :=
        depositRows_touches r _ hbdIn shares
      exact h.touches (((deposited.widen (by decide)).trans (accrued.widen (by decide))).trans
        (opened.widen (by decide)) :
        Touches [.reserves, .tranches, .lpAccumulator, .supply, .contentPools, .liquidityPool,
          .lsharePool, .accumulator, .shares, .calendar, .schedule, .checkpoints] _ _) (by rfl) (by rfl)
  | withdraw asked owner id t lcOut hbdOut paid r' found going own amounts dust noted =>
      have taken : Touches [.reserves, .tranches] r (takeFromPool r t lcOut paid) :=
        (takeFromPool_touches r t lcOut paid).widen (by decide)
      have closed (r₁ : Rows) : Touches [.tranches] r₁ (r₁.putTranche id { t with closed := true, weight := 0 }) :=
        (Touches.refl r₁).putTranche id _ (by rfl)
      obtain ⟨roll', longer, rolls⟩ := h.touches taken rfl rfl
      rcases noted with rfl | rfl
      · obtain ⟨roll'', longer', rolls'⟩ := rolls.touches (closed _) (by rfl) (by rfl)
        exact ⟨roll'', longer.trans longer', rolls'⟩
      · obtain ⟨roll₁, longer₁, rolls₁⟩ := rolls.note owner
        obtain ⟨roll₂, longer₂, rolls₂⟩ := rolls₁.touches (closed _) (by rfl) (by rfl)
        exact ⟨roll₂, (longer.trans longer₁).trans longer₂, rolls₂⟩
  | strand torn asked owner id t lcOut hbdOut paid =>
      exact h.touches (takeFromPool_touches r t lcOut paid) rfl rfl
  | sellLC lcIn minOut out =>
      exact h.touches (((Touches.refl r).setAmount .poolLC _ (by rfl)).setAmount .poolHBD _ (by rfl) :
        Touches [.reserves] _ _) (by rfl) (by rfl)
  | buyLC hbdIn minOut out =>
      exact h.touches (((Touches.refl r).setAmount .poolHBD _ (by rfl)).setAmount .poolLC _ (by rfl) :
        Touches [.reserves] _ _) (by rfl) (by rfl)

theorem Step.rolls (step : Step o whole r r') (h : Rolls r roll)
    : ∃ roll', roll <+: roll' ∧ Rolls r' roll' := by
  cases step with
  | ledger step => exact step.rolls h
  | mint step => exact step.rolls h
  | content step => exact h.touches step.touches rfl rfl
  | liquidity step => exact step.rolls h
  | migration step => exact h.touches step.touches rfl rfl

/-- A chain of steps only makes the roll longer. -/
theorem Steps.rolls (chain : Steps o whole r r') (h : Rolls r roll)
    : ∃ roll', roll <+: roll' ∧ Rolls r' roll' :=
  chain.keep (I := fun r' => ∃ roll', roll <+: roll' ∧ Rolls r' roll')
    (fun _ _ ⟨_, longer, rolls⟩ step =>
      let ⟨roll'', longer', rolls'⟩ := step.rolls rolls
      ⟨roll'', longer.trans longer', rolls'⟩)
    ⟨roll, List.prefix_refl roll, h⟩

-----------------------------------------------------------------------------------------
-- Balances
-----------------------------------------------------------------------------------------

/-- (s.Noted core) says that whoever holds something on either ledger has been seen, but for the
core of the token, if there is one.
-/
structure Store.Noted (core : Option String) (s : Store) : Prop where
  core : s.token.map (·.self) = core
  legacy : ∀ account ≠ "", 0 < s.legacyBalance account → s.rows.seen account = true
  words : ∀ t, s.token = some t → ∀ account, InI64 (t.bal account) ∧ 0 ≤ s.legacyBalance account
  token : ∀ t, s.token = some t → ∀ account ≠ "", account ≠ t.self → 0 < t.bal account
    → s.rows.seen account = true

namespace Store

variable {core : Option String} {s : Store} {t : MemToken}

/-- Whoever has a balance has been seen. -/
theorem Noted.seen (h : s.Noted core) {account : String} (named : account ≠ "")
    (other : core ≠ some account) (holds : 0 < s.balance account)
    : s.rows.seen account = true := by
  have legacy := h.legacy account named
  unfold balance at holds
  split at holds
  · rename_i t token
    obtain ⟨word, nonneg⟩ := h.words t token account
    rcases nonneg.lt_or_eq with old | moved
    · exact legacy old
    · rw [← moved, add_zero, i64_of_mem word] at holds
      refine h.token t token account named (fun same => other ?_) holds
      rw [← h.core, token, same]
      rfl
  · exact legacy holds

/-- The rows may change as long as nobody is forgotten. -/
theorem Noted.setRows (h : s.Noted core) {r : Rows}
    (kept : ∀ account, s.rows.seen account = true → r.seen account = true)
    : ({ s with rows := r } : Store).Noted core where
  core := h.core
  legacy account named holds := kept account (h.legacy account named holds)
  words := h.words
  token t token account named other holds := kept account (h.token t token account named other holds)

/-- Another token of the same core. -/
theorem Noted.issuer (h : s.Noted core) (token : s.token = some t) {t' : MemToken}
    (same : t'.self = t.self)
    : (some t').map (·.self) = core := by
  rw [← h.core, token, Option.map_some, Option.map_some, same]

/-- The core issues to itself. -/
theorem Noted.mint (h : s.Noted core) (token : s.token = some t) {amount : Int} {t' : MemToken}
    (minted : t.mint amount = some t')
    : ({ s with token := some t' } : Store).Noted core := by
  obtain ⟨_, _, rfl⟩ := MemToken.mint_eq_some minted
  refine ⟨h.issuer token rfl, h.legacy, ?_, ?_⟩
  · rintro _ ⟨⟩ account
    refine ⟨?_, (h.words t token account).2⟩
    dsimp only
    rw [update_apply]
    split
    · exact i64_mem _
    · exact (h.words t token account).1
  · rintro _ ⟨⟩ account named other holds
    dsimp only at other holds
    rw [update_of_ne other] at holds
    exact h.token t token account named other holds

/-- The core pays an account that has been seen. -/
theorem Noted.transfer (h : s.Noted core) (token : s.token = some t) {recipient : String} {amount : Int}
    {t' : MemToken} (sent : t.transfer recipient amount = some t')
    (seen : s.rows.seen recipient = true)
    : ({ s with token := some t' } : Store).Noted core := by
  obtain ⟨_, _, rfl⟩ := MemToken.transfer_eq_some sent
  refine ⟨h.issuer token rfl, h.legacy, ?_, ?_⟩
  · rintro _ ⟨⟩ account
    refine ⟨?_, (h.words t token account).2⟩
    dsimp only
    simp only [update_apply]
    split_ifs
    · exact i64_mem _
    · exact i64_mem _
    · exact i64_mem _
    · exact (h.words t token account).1
  · rintro _ ⟨⟩ account named other holds
    dsimp only at other holds
    by_cases same : account = recipient
    · exact same ▸ seen
    · rw [update_of_ne same, update_of_ne other] at holds
      exact h.token t token account named other holds

/-- The token pays nobody without a name. -/
theorem transfer_named {recipient : String} {amount : Int} {t' : MemToken}
    (sent : t.transfer recipient amount = some t')
    : recipient ≠ "" := by
  rintro rfl
  unfold MemToken.transfer at sent
  rw [if_pos (by simp)] at sent
  cases sent

/-- An account pays the core. -/
theorem Noted.transferFrom (h : s.Noted core) (token : s.token = some t) {payer : String} {amount : Int}
    {t' : MemToken} (sent : t.transferFrom payer amount = some t')
    : ({ s with token := some t' } : Store).Noted core := by
  obtain ⟨positive, enough, rfl⟩ := MemToken.transferFrom_eq_some sent
  refine ⟨h.issuer token rfl, h.legacy, ?_, ?_⟩
  · rintro _ ⟨⟩ account
    refine ⟨?_, (h.words t token account).2⟩
    dsimp only
    simp only [update_apply]
    split_ifs
    · exact i64_mem _
    · exact i64_mem _
    · exact i64_mem _
    · exact (h.words t token account).1
  · rintro _ ⟨⟩ account named other holds
    dsimp only at other holds
    rw [update_of_ne other] at holds
    refine h.token t token account named other ?_
    by_cases same : account = payer
    · subst same
      omega
    · rwa [update_of_ne same] at holds

/-- Moving a legacy row pays an account that was seen when it earned it. -/
theorem Noted.ensureMigrated (h : s.Noted core) (token : s.token = some t) (account : String)
    : (s.ensureMigrated t account).1.Noted core
      ∧ (s.ensureMigrated t account).1.token = some (s.ensureMigrated t account).2.1 := by
  unfold Store.ensureMigrated
  dsimp only
  split
  · exact ⟨h, token⟩
  rename_i owed
  split
  · exact ⟨h, token⟩
  rename_i t₁ minted
  have inCore := h.mint token minted
  split
  · exact ⟨inCore, rfl⟩
  rename_i t₂ sent
  have named := transfer_named sent
  have moved := inCore.transfer rfl sent (h.legacy account named (by omega))
  have emptied (a : String) : ((update s.bal account none a).getD 0 : Int)
      = if a = account then 0 else s.legacyBalance a := by
    by_cases same : a = account <;> simp [legacyBalance, same]
  refine ⟨⟨moved.core, fun a named holds => ?_, ?_, moved.token⟩, rfl⟩
  · simp only [legacyBalance, emptied] at holds
    split at holds
    · omega
    · exact h.legacy a named holds
  · rintro _ ⟨⟩ a
    have before := (h.words t token a).2
    refine ⟨(moved.words _ rfl a).1, ?_⟩
    simp only [legacyBalance, emptied]
    split
    · exact le_rfl
    · exact before

/-- A legacy row is written after its account has been seen, or lowered. -/
theorem Noted.write (h : s.Noted core) (legacy : s.token = none) {account : String} {v : Int}
    (seen : account ≠ "" → 0 < v → s.rows.seen account = true)
    : ({ s with bal := update s.bal account (some v) } : Store).Noted core := by
  refine ⟨h.core, fun a named holds => ?_, fun t token => ?_, h.token⟩
  · by_cases same : a = account
    · subst same
      simp only [legacyBalance, update_self, Option.getD_some] at holds
      exact seen named holds
    · simp only [legacyBalance, update_of_ne same] at holds
      exact h.legacy a named holds
  · rw [legacy] at token
    cases token

/-- A credit notes its account, and so does a positive one that is paid. -/
theorem Noted.credit (h : s.Noted core) (account : String) (amt : Int)
    : (s.credit account amt).1.Noted core ∧ (account ≠ "" → 0 < amt → (s.credit account amt).2 = true
      → (s.credit account amt).1.rows.seen account = true) := by
  have noted (r : Rows) (named : account ≠ "") : (noteAccount r account).seen account = true := by
    unfold noteAccount
    rw [if_neg named]
    split
    · assumption
    · simp
  unfold Store.credit
  split
  · exact ⟨h, fun _ _ => nofun⟩
  split
  · exact ⟨h, fun _ _ => by omega⟩
  rename_i nonneg positive
  split
  · rename_i t token
    have moved := h.ensureMigrated token account
    split
    · rename_i s₁ t₁ refused
      rw [refused] at moved
      exact ⟨moved.1, fun _ _ => nofun⟩
    · rename_i s₁ t₁ ready
      rw [ready] at moved
      split
      · exact ⟨moved.1, fun _ _ => nofun⟩
      · rename_i t₂ sent
        have named := transfer_named sent
        have seen := moved.1.setRows (noteAccount_seen s₁.rows account)
        exact ⟨seen.transfer moved.2 sent (noted _ named), fun named _ _ => noted _ named⟩
  · split
    · exact ⟨h, fun _ _ => nofun⟩
    · rename_i token _ next sum
      have seen := h.setRows (noteAccount_seen s.rows account)
      exact ⟨seen.write token fun named _ => noted _ named, fun named _ _ => noted _ named⟩

theorem Noted.debit (h : s.Noted core) (account : String) (amt : Int)
    : (s.debit account amt).1.Noted core := by
  unfold Store.debit
  split
  · exact h
  split
  · rename_i t token
    have moved := h.ensureMigrated token account
    split
    · rename_i s₁ t₁ refused
      rw [refused] at moved
      exact moved.1
    · rename_i s₁ t₁ ready
      rw [ready] at moved
      split
      · exact moved.1
      split
      · exact moved.1
      · rename_i t₂ pulled
        exact moved.1.transferFrom moved.2 pulled
  · rename_i token
    have balance : s.balance account = s.legacyBalance account := by
      unfold Store.balance
      rw [token]
    dsimp only
    rw [balance]
    split
    · exact h
    · rename_i nonneg enough
      refine h.write token fun named holds => h.legacy account named ?_
      by_contra none_left
      have zero : s.legacyBalance account - amt = 0 := by omega
      rw [zero] at holds
      exact absurd holds (by decide)

theorem Noted.mintSupply (h : s.Noted core) (key : AmountKey) (delta : Int)
    : (s.mintSupply key delta).1.Noted core := by
  unfold Store.mintSupply
  split
  · exact h
  split
  · exact h
  split
  · exact h
  rename_i next sum
  have raised : ({ s with rows := s.rows.setAmount key next } : Store).Noted core := h.setRows fun _ => id
  split
  · rename_i t token
    split
    · exact h
    · rename_i t₁ minted
      exact raised.mint token minted
  · exact raised

theorem Noted.migrateLedger (h : s.Noted core) (accounts : List String)
    : (s.migrateLedger accounts).1.Noted core := by
  have loop (moved : Nat) : (Store.migrateLedger.go s moved accounts).1.Noted core := by
    induction accounts generalizing s moved with
    | nil => exact h
    | cons account rest ih =>
        unfold Store.migrateLedger.go
        split
        · exact ih h moved
        split
        · exact ih h moved
        split
        · exact h
        · rename_i t token
          have kept := h.ensureMigrated token account
          split
          · rename_i s₁ t₁ refused
            rw [refused] at kept
            exact kept.1
          · rename_i s₁ t₁ ready
            rw [ready] at kept
            exact ih kept.1 (moved + 1)
  unfold Store.migrateLedger
  split
  · exact h
  · exact loop 0

theorem Noted.reconcileFloat (h : s.Noted core) : s.reconcileFloat.1.Noted core := by
  unfold Store.reconcileFloat
  split
  · exact h
  rename_i t token
  split
  · exact h
  split
  · exact h
  dsimp only
  split
  · exact h
  · rename_i t₁ minted
    exact h.mint token minted

end Store

-----------------------------------------------------------------------------------------
-- Runs
-----------------------------------------------------------------------------------------

section Worlds

variable {A : Type} [Assets A] {w : World A} {core : Option String}

/-- (Enrolled core w) says that the rows of a world hold a roll with all owners of mints, and that every
holder of a balance has been seen.
-/
structure Enrolled (core : Option String) (w : World A) : Prop where
  noted : w.store.Noted core
  rolls : ∃ roll, Rolls w.rows roll

/-- (q.Credits w account) says that the request pays the account something in one of its calls, and
that the chain does not unwind it.
-/
def Request.Credits (q : Request) (w : World A) (account : String) : Prop :=
  (q.unwinds && !(q.exec w).2.ok) = false
    ∧ ∃ p amt v, q.action.program q.ctx = some p ∧ (Call.credit account amt, v) ∈ p.issued serve w
      ∧ 0 < amt ∧ (v.store.credit account amt).2 = true

/-- (HoldsValue w account) says that the account has a balance or a mint, open or ended. -/
def HoldsValue (w : World A) (account : String) : Prop :=
  0 < w.store.balance account ∨ ∃ id m, w.rows.getMint account id = some m

/-- No call that an operation may make forgets anybody, by cases on the call. -/
theorem serve_seen {o : Origin} (c : Call) (w : World A) (met : callerNeeds o c w.rows)
    {account : String} (there : w.rows.seen account = true)
    : (serve c w).1.rows.seen account = true := by
  have may := serve_rowsMay c w
  cases c with
  | setRows r => exact met.seen account there
  | rows => exact there
  | balance account => exact there
  | draw amount => exact there
  | transferHbd recipient amount => exact there
  | credit payee amt =>
      rcases may with same | ⟨_, noted⟩
      · rw [same]
        exact there
      · rw [noted]
        exact noteAccount_seen w.rows payee account there
  | debit payer amt =>
      have same : (serve (.debit payer amt) w).1.rows = w.rows := may
      rw [same]
      exact there
  | mintSupply key delta =>
      rcases may with ⟨_, same⟩ | ⟨_, _, next, _, raised⟩
      · rw [same]
        exact there
      · rw [raised]
        exact there

/-- Every call that an operation may make keeps the holders noted, by cases on the call. -/
theorem serve_noted {o : Origin} (c : Call) (w : World A) (noted : w.store.Noted core)
    (met : callerNeeds o c w.rows)
    : (serve c w).1.store.Noted core := by
  cases c with
  | setRows r => exact noted.setRows met.seen
  | rows => exact noted
  | balance account => exact noted
  | draw amount => exact noted
  | transferHbd recipient amount => exact noted
  | credit account amt => exact (noted.credit account amt).1
  | debit account amt => exact noted.debit account amt
  | mintSupply key delta => exact noted.mintSupply key delta

/-- The roll is kept by every request, by cases on whether it has a program; whom the request pays
is on it afterwards.
-/
theorem Request.exec_enrolled (q : Request) (h : Enrolled core w)
    : Enrolled core (q.exec w).1
      ∧ (∀ account, w.rows.seen account = true → (q.exec w).1.rows.seen account = true)
      ∧ ∀ account ≠ "", q.Credits w account → (q.exec w).1.rows.seen account = true := by
  obtain ⟨roll, rolls⟩ := h.rolls
  obtain ⟨roll', longer, rolls'⟩ := (q.exec_steps w).rolls rolls
  have seen (account : String) (there : w.rows.seen account = true)
      : (q.exec w).1.rows.seen account = true :=
    (rolls'.enrols.seen account).mpr (longer.subset ((rolls.enrols.seen account).mp there))
  by_cases unwound : (q.unwinds && !(q.action.exec q.ctx w).2.ok) = true
  · have same : (q.exec w).1 = w := by
      unfold Request.exec
      exact if_pos unwound
    rw [same]
    refine ⟨h, fun _ => id, fun account _ credits => ?_⟩
    exact absurd (unwound.symm.trans credits.1) (by decide)
  have left : (q.exec w).1 = (q.action.exec q.ctx w).1 := by
    unfold Request.exec
    exact if_neg unwound
  rw [left] at seen rolls' ⊢
  cases program : q.action.program q.ctx with
  | some p =>
      rw [Action.exec_of_program program] at seen rolls' ⊢
      obtain ⟨-, calls⟩ := wp_issued (fun w : World A => w.store.Noted core)
        (fun w w' => ∀ account, w.rows.seen account = true → w'.rows.seen account = true)
        (fun _ _ => id) (fun _ _ _ first second account there => second account (first account there))
        (fun c w noted met => ⟨serve_noted c w noted met, fun _ => serve_seen c w met,
          serve_rowsMay c w, nofun⟩)
        (Action.program_moves (q.unsure w) program) h.noted
      have noted := (wp_run (fun c w noted met => ⟨serve_noted c w noted met, serve_rowsMay c w,
        nofun⟩) (Action.program_moves (q.unsure w) program) h.noted).1
      refine ⟨⟨noted, roll', rolls'⟩, seen, fun account named credits => ?_⟩
      obtain ⟨-, p', amt, v, same, issued, positive, paid⟩ := credits
      obtain rfl := Option.some.inj (program.symm.trans same)
      obtain ⟨before, later⟩ := calls _ issued
      exact later account ((before.credit account amt).2 named positive paid)
  | none =>
      have kept : (q.action.exec q.ctx w).1.store.Noted core := by
        cases asked : q.action <;> rw [asked] at program <;> cases program
        case migrateLedger.refl accounts => exact h.noted.migrateLedger accounts
        case reconcileFloat.refl => exact h.noted.reconcileFloat
      refine ⟨⟨kept, roll', rolls'⟩, seen, fun account named credits => ?_⟩
      obtain ⟨-, p', amt, v, same, -⟩ := credits
      rw [program] at same
      cases same

-----------------------------------------------------------------------------------------
-- Reading the roll of a world
-----------------------------------------------------------------------------------------

/-- Names without the separator are read back from their row. -/
theorem Enrols.accountChunk (h : Enrols r roll) (clean : ∀ name ∈ roll, sep ∉ name.toList) (i : Nat)
    : State.accountChunk r i = ChunkedLog.chunk accountChunkSize roll i := by
  have stored := h.chunk i
  have inside {name : String} (there : name ∈ ChunkedLog.chunk accountChunkSize roll i)
      : name ∈ roll :=
    List.mem_of_mem_drop (List.mem_of_mem_take there)
  unfold State.accountChunk
  rw [← stored] at inside ⊢
  cases row : r.acctChunk i with
  | none => rfl
  | some written =>
      rw [row] at inside
      simp only [Option.map_some, Option.getD_some] at inside ⊢
      cases written with
      | nil => rfl
      | cons name rest =>
          have cleanRow := fun n there => clean n (inside there)
          have named : name ≠ "" := fun nobody => h.named (nobody ▸ inside List.mem_cons_self)
          rw [if_neg (text_ne sep named cleanRow)]
          exact names_text sep (List.cons_ne_nil name rest) cleanRow

/-- Walking the roll reads it. -/
theorem Enrols.walkRoll (h : Enrols r roll) (clean : ∀ name ∈ roll, sep ∉ name.toList)
    : State.walkRoll r = roll := by
  have chunks : State.accountChunk r = ChunkedLog.chunk accountChunkSize roll :=
    funext (h.accountChunk clean)
  have covered : roll.length
      ≤ (roll.length + accountChunkSize - 1) / accountChunkSize * accountChunkSize := by
    simp only [accountChunkSize]
    omega
  rw [State.walkRoll, chunks, flatMap_chunks, h.count, List.take_of_length_le covered]

/-- (r.Separable) says that no name of the roll contains the separator. -/
def Rows.Separable (r : Rows) : Prop :=
  ∀ i < r.getU64 .acctCount, ∀ name ∈ (r.acctChunk i).getD [], sep ∉ name.toList

instance (r : Rows) : Decidable r.Separable :=
  inferInstanceAs (Decidable (∀ i < _, ∀ name ∈ (r.acctChunk i).getD [], _))

omit [Assets A] in
/-- What the roll of an enrolled world says. -/
theorem Enrolled.exact (h : Enrolled core w) (clean : w.rows.Separable)
    : (walkRoll w.rows).Nodup ∧ (walkRoll w.rows).length = w.rows.getU64 .acctCount
      ∧ (∀ i, (i + 1) * accountChunkSize < w.rows.getU64 .acctCount
        → (accountChunk w.rows i).length = accountChunkSize)
      ∧ ∀ account, w.rows.seen account = true → account ∈ walkRoll w.rows := by
  obtain ⟨roll, rolls⟩ := h.rolls
  have enrols := rolls.enrols
  have cleanRoll : ∀ name ∈ roll, sep ∉ name.toList := by
    intro name there
    have walked : name ∈ (List.range roll.length).flatMap (ChunkedLog.chunk accountChunkSize roll) := by
      rw [flatMap_chunks, List.take_of_length_le (by simp only [accountChunkSize]; omega)]
      exact there
    obtain ⟨i, below, inside⟩ := List.mem_flatMap.mp walked
    refine clean i ?_ name (enrols.chunk i ▸ inside)
    rw [enrols.count]
    exact List.mem_range.mp below
  have walk := enrols.walkRoll cleanRoll
  rw [walk, enrols.count]
  refine ⟨enrols.apart, rfl, fun i full => ?_, fun account => (enrols.seen account).mp⟩
  rw [enrols.accountChunk cleanRoll]
  exact length_chunk_full full.le

/-- (Lives core w ever) says that the contract can come to the world `w`: initialised on the legacy
rows or on a token whose core is `core`, it serves any requests, and on the legacy rows it may adopt
a token nobody holds. Of the accounts in `ever` each has had a balance or a mint by then, or has
been paid.
-/
inductive Lives : Option String → World A → (String → Prop) → Prop
  | start (core : Option String) (assets : A) (genesis : UInt64)
      : Lives core (initialised ⟨.empty, fun _ => none, core.map MemToken.new⟩ assets genesis)
          fun _ => False
  | request {core : Option String} {w : World A} {ever : String → Prop} (before : Lives core w ever)
      (q : Request)
      : Lives core (q.exec w).1 fun account =>
          ever account ∨ q.Credits w account ∨ HoldsValue (q.exec w).1 account
  | adopt {w : World A} {ever : String → Prop} (before : Lives none w ever) (core : String)
      (nonneg : ∀ account, 0 ≤ w.store.legacyBalance account)
      : Lives (some core) { w with store := { w.store with token := some (.new core) } } ever

theorem unspent (core account : String) : InI64 ((MemToken.new core).bal account) :=
  ⟨by simp [MemToken.new], by simp [MemToken.new]⟩

/-- By induction on the life of the contract. -/
theorem Lives.enrolled {ever : String → Prop} (lives : Lives core w ever)
    : Enrolled core w ∧ ∀ account, ever account → account ≠ "" → core ≠ some account
      → w.rows.seen account = true := by
  induction lives with
  | start core assets genesis =>
      have touched := initialised_touches
        (⟨.empty, fun _ => none, core.map MemToken.new⟩ : Store) assets genesis rfl
      have ledgers : (initialised (⟨.empty, fun _ => none, core.map MemToken.new⟩ : Store) assets
            genesis).store.bal = (fun _ => none)
          ∧ (initialised (⟨.empty, fun _ => none, core.map MemToken.new⟩ : Store) assets
            genesis).store.token = core.map MemToken.new := by
        simp only [initialised, init, rows, setRows, run_bind, run_issue, serve, Rows.empty]
        split_ifs <;> exact ⟨rfl, rfl⟩
      have poor (account : String) : (initialised (⟨.empty, fun _ => none, core.map MemToken.new⟩ :
          Store) assets genesis).store.legacyBalance account = 0 := by
        rw [Store.legacyBalance, ledgers.1]
        rfl
      have none_yet : Enrols Rows.empty [] :=
        ⟨List.nodup_nil, (by rintro ⟨⟩), fun _ => by simp [Rows.empty], rfl, fun i => by
          simp [Rows.empty, ChunkedLog.chunk]⟩
      refine ⟨⟨⟨?_, fun account _ holds => ?_, ?_, ?_⟩, [], none_yet.touches touched rfl, ?_⟩, (by rintro _ ⟨⟩)⟩
      · rw [ledgers.2]
        cases core <;> rfl
      · exact absurd holds (poor account).not_gt
      · intro t token account
        rw [ledgers.2] at token
        obtain ⟨self, rfl, rfl⟩ := Option.map_eq_some_iff.mp token
        exact ⟨unspent self account, (poor account).ge⟩
      · intro t token account _ _ holds
        rw [ledgers.2] at token
        obtain ⟨self, rfl, rfl⟩ := Option.map_eq_some_iff.mp token
        exact absurd holds (by simp [MemToken.new])
      · intro owner id m found
        rw [touched.getMint _ _ rfl] at found
        cases found
  | request before q ih =>
      obtain ⟨enrolled, seen⟩ := ih
      obtain ⟨enrolled', stays, paid⟩ := q.exec_enrolled enrolled
      refine ⟨enrolled', fun account ever named other => ?_⟩
      obtain ⟨roll, rolls⟩ := enrolled'.rolls
      rcases ever with earlier | credits | balance | ⟨id, m, found⟩
      · exact stays account (seen account earlier named other)
      · exact paid account named credits
      · exact enrolled'.noted.seen named other balance
      · exact (rolls.enrols.seen account).mpr (rolls.owners account id m found named)
  | @adopt w ever before core nonneg ih =>
      obtain ⟨enrolled, seen⟩ := ih
      refine ⟨⟨⟨rfl, enrolled.noted.legacy, ?_, ?_⟩, enrolled.rolls⟩, fun account earlier named _ =>
        seen account earlier named (by rintro ⟨⟩)⟩
      · rintro _ ⟨⟩ account
        exact ⟨unspent core account, nonneg account⟩
      · rintro _ ⟨⟩ account _ _ holds
        exact absurd holds (by simp [MemToken.new])

/-- The roll holds whoever has ever had a balance or a mint, or has been paid, once; its count is
that of its names, and every chunk before the last is full. It leaves out nobody but the empty name
and the core of the token.
-/
theorem roll_complete {ever : String → Prop} (lives : Lives core w ever)
    (clean : w.rows.Separable)
    : (walkRoll w.rows).Nodup ∧ (walkRoll w.rows).length = w.rows.getU64 .acctCount
      ∧ (∀ i, (i + 1) * accountChunkSize < w.rows.getU64 .acctCount
        → (accountChunk w.rows i).length = accountChunkSize)
      ∧ ∀ account, ever account → account ≠ "" → core ≠ some account
        → account ∈ walkRoll w.rows := by
  obtain ⟨enrolled, seen⟩ := lives.enrolled
  obtain ⟨apart, count, full, all⟩ := enrolled.exact clean
  exact ⟨apart, count, full, fun account had named other => all account (seen account had named other)⟩

end Worlds

/-- An account with a balance and one with nothing but a mint. -/
def twoHolders : World MemAssets :=
  after (initialised Store.newMem MemAssets.new 1)
    [⟨.of "hive:owner" 1, .creditMigration "hive:liquid" 5 0, true⟩,
      ⟨.of "hive:owner" 1, .creditMigration "hive:stakeonly" 0 7, true⟩]

theorem roll_complete_stakeonly
    : (walkRoll twoHolders.rows).Nodup ∧ "hive:stakeonly" ∈ walkRoll twoHolders.rows := by
  have lives := Lives.request (.request (.start none MemAssets.new 1)
    ⟨{ sender := "hive:owner", height := 1 }, .creditMigration "hive:liquid" 5 0, true⟩)
    ⟨{ sender := "hive:owner", height := 1 }, .creditMigration "hive:stakeonly" 0 7, true⟩
  obtain ⟨apart, -, -, all⟩ := roll_complete lives (by decide +kernel)
  have staked : (twoHolders.rows.getMint "hive:stakeonly" 1).isSome = true := by decide +kernel
  obtain ⟨m, found⟩ := Option.isSome_iff_exists.mp staked
  exact ⟨apart, all "hive:stakeonly" (.inr (.inr (.inr ⟨1, m, found⟩))) (by decide) nofun⟩

/-- A position credited to the empty name is not on the roll, nor is the float of a token. -/
theorem roll_leaves_out
    : (¬∀ (w : World MemAssets) (ever : String → Prop), Lives none w ever → w.rows.Separable
          → ∀ account, ever account → account ∈ walkRoll w.rows)
      ∧ ¬∀ (core : String) (w : World MemAssets) (ever : String → Prop), Lives (some core) w ever
          → w.rows.Separable → ∀ account ≠ "", ever account → account ∈ walkRoll w.rows := by
  constructor
  · intro always
    have absent := always _ _ (.request (.start none MemAssets.new 1)
      ⟨{ sender := "hive:owner", height := 1 }, .creditMigration "" 5 0, true⟩) (by decide +kernel) ""
      (.inr (.inr (.inl (by decide +kernel))))
    exact absurd absent (by decide +kernel)
  · intro always
    have absent := always "contract:core" _ _ (.request (.start (some "contract:core") MemAssets.new 1)
      ⟨{ sender := "hive:owner", height := 1 }, .creditMigration "hive:a" 0 7, true⟩)
      (by decide +kernel) "contract:core" (by decide) (.inr (.inr (.inl (by decide +kernel))))
    exact absurd absent (by decide +kernel)

end LasseCash.State
