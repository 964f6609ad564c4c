import LasseCash.Api.Answers
import LasseCash.Lib.DoubleRounding
import LasseCash.State.Codec
import LasseCash.State.MintClaims
import LasseCash.State.Reachable

/-! The life of one mint from the chain's own record, `api/src/position-history.ts`: what the
contract answered to its owner's calls, read for what was paid out and when. Heights and days are
Numbers here, so doubles; amounts are not.
-/

namespace LasseCash.Api

open App DoubleRounding Engine MachineInt State

-----------------------------------------------------------------------------------------
-- Amounts and records
-----------------------------------------------------------------------------------------

/-- The base units of one LASSECASH. -/
def unit : Nat := 100000000

def decimals : Nat := 8

/-- Base units as a text with eight decimals. -/
def fromUnits (units : Int) : String :=
  let v := units.natAbs
  let frac := toString (v % unit)
  (if units < 0 then "-" else "") ++ toString (v / unit) ++ "."
    ++ .ofList (.replicate (decimals - frac.length) '0') ++ frac

/-- The row of a mint; the order of its fields is frozen. -/
def encodeMint (m : Mint) : String :=
  let encBool (b : Bool) := if b then "1" else "0"
  encI64 m.principal ++ "|" ++ encI64 m.shares ++ "|" ++ encU64 m.startHeight ++ "|"
    ++ encI64 m.days ++ "|" ++ encBool m.goodAccounting ++ "|" ++ encBool m.ended ++ "|"
    ++ encI64 m.accStart ++ "|" ++ encU64 m.expChunk

-----------------------------------------------------------------------------------------
-- Stories
-----------------------------------------------------------------------------------------

/-- One contract call by the account, with what the contract answered. -/
structure AccountCall where
  txId : String
  height : Int
  time : String
  action : String
  payload : String
  ok : Bool
  ret : String

def daysForYear : Int := 365

/-- Below this many days nothing is scaled to a year. -/
def minYearDays : Int := 7

/-- The amount of a claim that the contract confirms. -/
def parseClaimed (ret : String) : Option Nat :=
  (following "claimed " ret.toList).bind fun rest => (leadingNumber rest).map (·.1)

inductive MintOrigin
  | migration
  | capital
  | earnings
  deriving DecidableEq

structure MintStory where
  id : Nat
  origin : MintOrigin
  principal : String
  shares : String
  days : Int
  startHeight : Int
  startTxId : Option String
  startTime : Option String
  ended : Bool
  claimTxId : Option String
  claimHeight : Option Int
  claimTime : Option String
  paidOut : Option String
  gain : Option String
  annualisedGain : Option String
  endedEarly : Bool

/-- One field of a row as a whole number, zero where it is empty. -/
def wholeField (f : List String) (i : Nat) : Option Int :=
  let text := f[i]?.getD ""
  bigInt (if text = "" then "0" else text)

/-- The call that is taken for the claim of a mint. -/
def claimOf (id : Nat) (calls : List AccountCall) : Option AccountCall :=
  calls.find? fun c => c.ok && c.action == "claim_mint" && field c.payload 0 == some (toString id)
    && (parseClaimed c.ret).isSome

/-- One mint's story out of its row and its owner's calls. -/
def mintStory (id : Nat) (row : String) (calls : List AccountCall) (genesisHeight : Int)
    : Option MintStory := do
  let f := (row.toList.splitOn '|').map String.ofList
  if f.length < 6 then none
  let principal ← wholeField f 0
  let startHeight ← (wholeField f 2).map number
  let days ← (wholeField f 3).map number
  let shares ← wholeField f 1
  let origin : MintOrigin :=
    if startHeight = genesisHeight then .migration
    else if calls.any fun c => c.ok && c.action == "mint" && decide (c.height = startHeight)
      then .capital
    else .earnings
  let start :=
    if origin = .migration then calls.find? fun c => c.ok && c.action == "claim_migration"
    else
      calls.find? fun c => c.ok && decide (c.height = startHeight)
        && (if origin = .capital then c.action == "mint" else true)
  let claim := claimOf id calls
  let paid : Option Int := (claim.bind (parseClaimed ·.ret)).map Int.ofNat
  let gain := paid.map (· - principal)
  let heldHeights : Int := (claim.map fun c => number (c.height - startHeight)).getD 0
  let annualisedGain := (gain.filter fun _ => decide (heldHeights ≥ minYearDays * heightsPerDay)).map
    fun g => (g * (daysForYear * heightsPerDay)).tdiv heldHeights
  some {
    id, origin, days, startHeight
    principal := fromUnits principal
    shares := fromUnits shares
    startTxId := start.map (·.txId)
    startTime := start.map (·.time)
    ended := f[5]? == some "1"
    claimTxId := claim.map (·.txId)
    claimHeight := claim.map (·.height)
    claimTime := claim.map (·.time)
    paidOut := paid.map fromUnits
    gain := gain.map fromUnits
    annualisedGain := annualisedGain.map fromUnits
    endedEarly := claim.any fun c =>
      decide (c.height < number (startHeight + number (days * heightsPerDay))) }

/-- A call as it is recorded. -/
def AccountCall.of (t : ChainCall) (res : Result) : AccountCall where
  txId := t.txId
  height := number t.ctx.height
  time := t.time
  action := t.invocation.action
  payload := t.invocation.payload
  ok := res.ok
  ret := res.msg

/-- The calls that an account made. -/
def accountCalls (account : String) (log : List (ChainCall × Result)) : List AccountCall :=
  (log.filter (·.1.ctx.sender = account)).map fun e => .of e.1 e.2

-----------------------------------------------------------------------------------------
-- What the story reads
-----------------------------------------------------------------------------------------

/-- A confirmed amount is read back. -/
theorem parseClaimed_written {v : Int} (nonneg : 0 ≤ v)
    : parseClaimed ("claimed " ++ encI64 v) = some v.toNat := by
  have number := leadingNumber_written v.toNat [] nofun
  rw [List.append_nil] at number
  rw [parseClaimed, String.toList_append, following_written, Option.bind_some,
    encI64_of_nonneg nonneg, number]
  rfl

/-- A negative amount is not read. -/
theorem parseClaimed_negative {v : Int} (negative : v < 0)
    : parseClaimed ("claimed " ++ encI64 v) = none := by
  have number := leadingNumber_negative negative []
  rw [List.append_nil] at number
  rw [parseClaimed, String.toList_append, following_written, Option.bind_some, number]
  rfl

/-- The answer to an early end is not read. -/
theorem parseClaimed_early (v : Int)
    : parseClaimed ("ended early, recovered " ++ encI64 v) = none := by
  have other : following "claimed " ("ended early, recovered " ++ encI64 v).toList = none := by
    rw [String.toList_append]
    rfl
  rw [parseClaimed, other]
  rfl

/-- The fields of a mint's row. -/
theorem fields_row (m : Mint)
    : ((encodeMint m).toList.splitOn '|').map String.ofList
      = [encI64 m.principal, encI64 m.shares, encU64 m.startHeight, encI64 m.days,
        if m.goodAccounting then "1" else "0", if m.ended then "1" else "0",
        encI64 m.accStart, encU64 m.expChunk] := by
  have joins : Codec.Joins (encodeMint m) [encI64 m.principal, encI64 m.shares,
      encU64 m.startHeight, encI64 m.days, Codec.encBool m.goodAccounting, Codec.encBool m.ended,
      encI64 m.accStart, encU64 m.expChunk] := by
    refine ⟨?_, List.cons_ne_nil _ _, ?_⟩
    · delta encodeMint
      simp only [Codec.join_cons, Codec.join_singleton, String.append_assoc, Codec.encBool]
    · simp only [List.forall_mem_cons]
      exact ⟨bar_not_written _, bar_not_written _, bar_not_written m.startHeight,
        bar_not_written _, Codec.encBool_plain _, Codec.encBool_plain _, bar_not_written _,
        bar_not_written m.expChunk, fun _ => nofun⟩
  exact joins.split_eq

/-- A field that holds a written number reads as it. -/
theorem wholeField_written {f : List String} {i : Nat} {v : Int} (there : f[i]? = some (encI64 v))
    : wholeField f i = some v := by
  have some_text : encI64 v ≠ "" := by
    intro nothing
    have value := bigInt_encI64 v
    rw [nothing] at value
    obtain rfl : (0 : Int) = v := Option.some.inj value
    exact absurd nothing (by decide)
  rw [wholeField, there, Option.getD_some, if_neg some_text, bigInt_encI64]

/-- The story of a mint out of its own row. -/
theorem mintStory_row (id : Nat) (m : Mint) (calls : List AccountCall) (genesisHeight : Int)
    : ∃ story, mintStory id (encodeMint m) calls genesisHeight = some story
      ∧ story.paidOut = (claimOf id calls).bind (fun c =>
          (parseClaimed c.ret).map (fromUnits ∘ Int.ofNat))
      ∧ story.endedEarly = (claimOf id calls).any (fun c =>
          decide (c.height < number (number m.startHeight + m.days * heightsPerDay))) := by
  have fields := fields_row m
  unfold mintStory
  generalize ((encodeMint m).toList.splitOn '|').map String.ofList = f at fields
  have principal : wholeField f 0 = some m.principal := wholeField_written (by rw [fields]; rfl)
  have shares : wholeField f 1 = some m.shares := wholeField_written (by rw [fields]; rfl)
  have start : wholeField f 2 = some (m.startHeight : Int) :=
    wholeField_written (by rw [fields]; rfl)
  have days : wholeField f 3 = some m.days := wholeField_written (by rw [fields]; rfl)
  have long : ¬f.length < 6 := by
    rw [fields]
    exact (by decide : ¬8 < 6)
  have term : number (number m.days * heightsPerDay) = m.days * heightsPerDay := by
    obtain ⟨lower, upper⟩ := m.days_mem
    unfold minMintDays at lower
    unfold maxMintDays at upper
    unfold heightsPerDay
    rw [number_safe (n := m.days) (abs_le.mpr (by omega)), number_safe (abs_le.mpr (by omega))]
  simp only [principal, shares, start, days, if_neg long, Option.bind_eq_bind, Option.map_some,
    Option.bind_some, term]
  refine ⟨_, rfl, ?_, rfl⟩
  cases claimOf id calls with
  | none => rfl
  | some c =>
      change Option.map fromUnits (Option.map Int.ofNat (parseClaimed c.ret)) = _
      exact Option.map_map ..

-----------------------------------------------------------------------------------------
-- Claims in a run
-----------------------------------------------------------------------------------------

variable {A : Type} [Assets A]

/-- Only a call of the entrypoint is recorded as a claim of a mint. -/
theorem claim_recorded {t : ChainCall} (named : t.invocation.action = "claim_mint")
    : ∃ payload, t.invocation = .entry .claimMint payload :=
  Invocation.of_name (e := .claimMint) (fun e' same => by
    cases e' <;> first | rfl | exact absurd same (by decide)) named

/-- A claim that succeeds names a mint and settles it. -/
theorem claim_settles {t : ChainCall} {payload : String} {w : World A}
    (claims : t.invocation = .entry .claimMint payload) (succeeds : (t.exec w).2.ok = true)
    : ∃ id m accEnd, (parseArgs payload).u64 0 = some id
      ∧ MintClaimed t.ctx id w (t.exec w).1 (t.exec w).2.msg m accEnd := by
  obtain ⟨action, asked, ran⟩ := entry_ran claims succeeds
  obtain ⟨id, read, rfl, same⟩ := idArg_asked
    (show idArg (parseArgs payload) 0 "usage: <mintId>" .claimMint = .ok action from asked)
  have settled : (claimMint t.ctx id).run serve w = ((t.exec w).1, ok (t.exec w).2.msg) := by
    rw [Action.exec_of_program (p := claimMint t.ctx (UInt64.ofNat id).toNat) rfl, same] at ran
    rw [ran]
    exact Prod.ext rfl (congrArg (Result.mk · _) succeeds)
  obtain ⟨m, accEnd, claimed⟩ := claimMint_claimed settled
  exact ⟨id, m, accEnd, read, claimed⟩

/-- What a run has stored, it has logged. -/
theorem afterCalls_mintLog (store : Store) (assets : A) (genesis : UInt64)
    (fresh : store.rows = .empty) (calls : List ChainCall)
    : MintLog (afterCalls (initialised store assets genesis) calls).rows := by
  rw [afterCalls_requests]
  exact after_keep (I := fun w => MintLog w.rows) (fun _ q log => q.exec_mintLog log)
    ⟨initialised_settled store assets genesis fresh,
      initialised_mintIds store assets genesis fresh⟩ _

/-- A claimed mint is not claimed again. -/
theorem claimed_once {w : World A} (log : MintLog w.rows) {t t' : ChainCall} {id : Nat}
    {between : List ChainCall} {m m' : Mint} {accEnd accEnd' : Int} {msg msg' : String}
    {w' : World A} (same : t'.ctx.sender = t.ctx.sender)
    (first : MintClaimed t.ctx id w (t.exec w).1 msg m accEnd)
    (second : MintClaimed t'.ctx id (afterCalls (t.exec w).1 between) w' msg' m' accEnd')
    : False := by
  have logged : MintLog (t.exec w).1.rows := by
    rw [t.exec_world]
    exact after_keep (I := fun w => MintLog w.rows) (fun _ q log => q.exec_mintLog log) log _
  obtain ⟨m₁, stored, same_terms⟩ := after_continues logged
    (between.flatMap (·.requests)) first.ended
  rw [← afterCalls_requests] at stored
  have found := second.found
  rw [same, stored] at found
  obtain rfl := Option.some.inj found
  exact absurd (same_terms.ended rfl) (by simp [second.going])

/-- In a run a mint is claimed once: every recorded claim of it is the same call. -/
theorem claims_agree {w : World A} (logged : ∀ calls, MintLog (afterCalls w calls).rows)
    {before rest before' rest' : List ChainCall} {t t' : ChainCall}
    (same : before ++ t :: rest = before' ++ t' :: rest')
    (sender : t'.ctx.sender = t.ctx.sender) {id : Nat} {m m' : Mint} {accEnd accEnd' : Int}
    (first : MintClaimed t.ctx id (afterCalls w before) (t.exec (afterCalls w before)).1
      (t.exec (afterCalls w before)).2.msg m accEnd)
    (second : MintClaimed t'.ctx id (afterCalls w before') (t'.exec (afterCalls w before')).1
      (t'.exec (afterCalls w before')).2.msg m' accEnd')
    : before' = before ∧ t' = t := by
  rcases List.append_eq_append_iff.mp same with ⟨between, longer, split⟩ | ⟨between, longer, split⟩
  · cases between with
    | nil => exact ⟨by simpa using longer, (List.cons.inj split).1.symm⟩
    | cons c between =>
        obtain ⟨rfl, -⟩ := List.cons.inj split
        rw [longer, afterCalls_append] at second
        exact (claimed_once (logged before) sender first second).elim
  · cases between with
    | nil => exact ⟨by simpa using longer.symm, (List.cons.inj split).1⟩
    | cons c between =>
        obtain ⟨rfl, -⟩ := List.cons.inj split
        rw [longer, afterCalls_append] at first
        exact (claimed_once (logged before') sender.symm second first).elim

/-- A recorded claim of a claimed mint is the record of that claim. -/
theorem claim_record {w : World A} (logged : ∀ calls, MintLog (afterCalls w calls).rows)
    {before rest : List ChainCall} {t : ChainCall} {id : Nat} {m : Mint} {accEnd : Int}
    (claimed : MintClaimed t.ctx id (afterCalls w before) (t.exec (afterCalls w before)).1
      (t.exec (afterCalls w before)).2.msg m accEnd)
    {c : AccountCall}
    (there : c ∈ accountCalls t.ctx.sender (answered w (before ++ t :: rest)))
    (succeeded : c.ok = true) (named : c.action = "claim_mint")
    (plain : field c.payload 0 = some (toString id))
    : c = .of t (t.exec (afterCalls w before)).2 := by
  obtain ⟨e, recorded, rfl⟩ := List.mem_map.mp there
  obtain ⟨made, sender⟩ := List.mem_filter.mp recorded
  obtain ⟨before', rest', same, answer⟩ := mem_answered made
  obtain ⟨t', res⟩ := e
  dsimp only at same answer sender
  obtain rfl := answer
  obtain ⟨payload', claims'⟩ := claim_recorded named
  obtain ⟨id', m', accEnd', read, claimed'⟩ := claim_settles claims' succeeded
  have written : field payload' 0 = some (toString id) := by
    have paid : (AccountCall.of t' (t'.exec (afterCalls w before')).2).payload = payload' := by
      rw [AccountCall.of, claims']
      rfl
    rw [← paid]
    exact plain
  obtain rfl := u64_of_field written read
  obtain ⟨rfl, rfl⟩ := claims_agree logged same (of_decide_eq_true sender) claimed claimed'
  rfl

-----------------------------------------------------------------------------------------
-- What the story tells
-----------------------------------------------------------------------------------------

/-- The answer to a claim is read exactly where the mint was mature and collects something. -/
theorem parseClaimed_claimed {ctx : Ctx} {id : Nat} {w w' : World A} {msg : String} {m : Mint}
    {accEnd : Int} (claimed : MintClaimed ctx id w w' msg m accEnd)
    : parseClaimed msg
      = if (settlementOf ctx w m accEnd).early = false
            ∧ 0 ≤ (settlementOf ctx w m accEnd).toOwner then
          some (settlementOf ctx w m accEnd).toOwner.toNat
        else none := by
  rw [claimed.told]
  cases early : (settlementOf ctx w m accEnd).early with
  | true => simpa using parseClaimed_early _
  | false =>
      rcases lt_or_ge (settlementOf ctx w m accEnd).toOwner 0 with negative | nonneg
      · simpa [not_le.mpr negative] using parseClaimed_negative negative
      · simpa [nonneg] using parseClaimed_written nonneg

theorem settlementOf_early (ctx : Ctx) (w : World A) (m : Mint) (accEnd : Int)
    : (settlementOf ctx w m accEnd).early = !m.isMature ctx.height := by
  unfold settlementOf Mint.settle
  dsimp only
  split <;> simp_all

/-- (TellsClaim id m calls genesisHeight n early) says that the story of the mint tells that `n` was
paid out, and calls it early exactly where it was.
-/
def TellsClaim (id : Nat) (m : Mint) (calls : List AccountCall) (genesisHeight n : Int)
    (early : Prop) : Prop :=
  ∃ story, mintStory id (encodeMint m) calls genesisHeight = some story
    ∧ story.paidOut = some (fromUnits n) ∧ (story.endedEarly = true ↔ early)

/-- (Readable payload id m height total) says that a claim names its mint in plain digits, comes at
the end of the term or later, also as Numbers add it up, and leaves the owner no debt.
-/
structure Readable (payload : String) (id : Nat) (m : Mint) (height : Nat) (total : Int) : Prop where
  plain : field payload 0 = some (toString id)
  mature : m.maturityHeight ≤ height
  counted : number (number m.startHeight + m.days * heightsPerDay) ≤ number height
  collects : Collects m height total

/-- Up to 2^53, where Numbers are exact, it is enough that the term ends by the height. -/
theorem term_over {m : Mint} {height : Nat} (safe : height ≤ 2 ^ 53)
    (ends : (m.startHeight : Int) + m.days * heightsPerDay ≤ height)
    : m.maturityHeight ≤ height
      ∧ number (number m.startHeight + m.days * heightsPerDay) ≤ number height := by
  obtain ⟨lower, -⟩ := m.days_mem
  unfold minMintDays at lower
  have start : number m.startHeight = m.startHeight := by
    unfold heightsPerDay at ends
    exact number_safe (abs_le.mpr (by omega))
  refine ⟨?_, start.symm ▸ number_mono ends⟩
  have matures := maturityHeight_of_le (safe.trans_lt (by decide)) ends
  omega

/-- The call that the story takes for the claim, where every candidate is one and the same. -/
theorem claimOf_eq {id : Nat} {calls : List AccountCall} {c : AccountCall} (there : c ∈ calls)
    (succeeded : c.ok = true) (named : c.action = "claim_mint")
    (unique : ∀ c' ∈ calls, c'.ok = true → c'.action = "claim_mint"
      → field c'.payload 0 = some (toString id) → c' = c)
    : claimOf id calls
      = if field c.payload 0 = some (toString id) ∧ (parseClaimed c.ret).isSome then some c
        else none := by
  cases found : claimOf id calls with
  | none =>
      have missed := List.find?_eq_none.mp found c there
      simp only [succeeded, named, beq_self_eq_true, Bool.true_and, Bool.and_eq_true, beq_iff_eq]
        at missed
      rw [if_neg missed]
  | some c' =>
      have taken := List.find?_some found
      simp only [Bool.and_eq_true, beq_iff_eq] at taken
      obtain ⟨⟨⟨done, claim⟩, plain⟩, read⟩ := taken
      obtain rfl := unique c' (List.mem_of_find?_eq_some found) done claim plain
      rw [if_pos ⟨plain, read⟩]

/-- What the story takes from the record of a claim, by cases on whether it can read it. -/
theorem tellsClaim_iff {ctx : Ctx} {id : Nat} {w w' : World A} {msg payload : String} {m m' : Mint}
    {accEnd : Int} (claimed : MintClaimed ctx id w w' msg m accEnd)
    (same : Continues { m with ended := true } m') {calls : List AccountCall} {c : AccountCall}
    (height : c.height = number ctx.height) (answer : c.ret = msg) (sent : c.payload = payload)
    (taken : claimOf id calls
      = if field c.payload 0 = some (toString id) ∧ (parseClaimed c.ret).isSome then some c
        else none)
    (genesisHeight : Int)
    : TellsClaim id m' calls genesisHeight (max 0 (settlementOf ctx w m accEnd).toOwner)
          (ctx.height < m.maturityHeight)
      ↔ Readable payload id m ctx.height
          (i64 (m.principal + accruedYield (caughtUp ctx w).rows m accEnd)) := by
  obtain ⟨story, told, paidOut, endedEarly⟩ := mintStory_row id m' calls genesisHeight
  rw [taken, sent] at paidOut endedEarly
  have read := parseClaimed_claimed claimed
  rw [answer] at paidOut endedEarly
  have early := settlementOf_early ctx w m accEnd
  have collects (mature : m.isMature ctx.height = true)
      : 0 ≤ (settlementOf ctx w m accEnd).toOwner ↔ _ :=
    Mint.settle_collects mature (accruedYield (caughtUp ctx w).rows m accEnd)
  by_cases readable : field payload 0 = some (toString id)
      ∧ (settlementOf ctx w m accEnd).early = false ∧ 0 ≤ (settlementOf ctx w m accEnd).toOwner
  · obtain ⟨plain, late, owed⟩ := readable
    rw [if_pos ⟨late, owed⟩] at read
    rw [read, if_pos ⟨plain, rfl⟩] at paidOut endedEarly
    have mature : m.isMature ctx.height = true := by simpa [late] using early
    have begun : m'.startHeight = m.startHeight := same.startHeight
    have term : m'.days = m.days := same.days
    have tells : story.paidOut = some (fromUnits (max 0 (settlementOf ctx w m accEnd).toOwner)) := by
      rw [paidOut, Option.bind_some, answer, read, max_eq_right owed]
      exact congrArg (some ∘ fromUnits) (Int.toNat_of_nonneg owed)
    have past : ¬ctx.height < m.maturityHeight := not_lt.mpr (of_decide_eq_true mature)
    have shows : story.endedEarly = true
        ↔ number ctx.height < number (number m.startHeight + m.days * heightsPerDay) := by
      rw [endedEarly, begun, term, ← height]
      exact decide_eq_true_iff
    constructor
    · rintro ⟨story', told', -, same_early⟩
      obtain rfl := Option.some.inj (told.symm.trans told')
      refine ⟨plain, not_lt.mp past, ?_, (collects mature).mp owed⟩
      exact not_lt.mp fun sooner => past (same_early.mp (shows.mpr sooner))
    · intro readable
      refine ⟨story, told, tells, ?_⟩
      exact ⟨fun sooner => absurd (shows.mp sooner) (not_lt.mpr readable.counted),
        fun sooner => absurd sooner past⟩
  · have unread : ¬(field payload 0 = some (toString id) ∧ (parseClaimed msg).isSome) := by
      rintro ⟨plain, some_read⟩
      rw [read] at some_read
      split at some_read
      · rename_i both
        exact readable ⟨plain, both⟩
      · cases some_read
    rw [if_neg unread] at paidOut
    constructor
    · rintro ⟨story', told', tells, -⟩
      obtain rfl := Option.some.inj (told.symm.trans told')
      rw [paidOut] at tells
      cases tells
    · intro read
      have mature : m.isMature ctx.height = true := decide_eq_true read.mature
      refine absurd ⟨read.plain, ?_, (collects mature).mpr read.collects⟩ readable
      rw [early, mature]
      rfl

/-- The story of a mint that has been claimed tells what its owner was credited, and whether it was
ended early, exactly where the claim is readable. The calls may come in any order, and need not
be all of the owner's.
-/
theorem story_tells_claim {store : Store} {assets : A} {genesis : UInt64}
    (fresh : store.rows = .empty) {before : List ChainCall} {w : World A}
    (reached : afterCalls (initialised store assets genesis) before = w)
    {t : ChainCall} {payload : String} (claims : t.invocation = .entry .claimMint payload)
    (succeeds : (t.exec w).2.ok = true) (rest : List ChainCall)
    : ∃ id m accEnd n m', (parseArgs payload).u64 0 = some id
      ∧ w.rows.getMint t.ctx.sender id = some m
      ∧ accEndOf (caughtUp t.ctx w).rows m t.ctx.height = some accEnd
      ∧ Credits (caughtUp t.ctx w).store (t.exec w).1.store t.ctx.sender n
      ∧ (afterCalls (t.exec w).1 rest).rows.getMint t.ctx.sender id = some m'
      ∧ ∀ calls genesisHeight, AccountCall.of t (t.exec w).2 ∈ calls
        → (∀ c ∈ calls, c ∈ accountCalls t.ctx.sender
            (answered (initialised store assets genesis) (before ++ t :: rest)))
        → (TellsClaim id m' calls genesisHeight n (t.ctx.height < m.maturityHeight)
            ↔ Readable payload id m t.ctx.height
                (i64 (m.principal + accruedYield (caughtUp t.ctx w).rows m accEnd))) := by
  subst reached
  generalize initialised_start : initialised store assets genesis = start at *
  have logged (calls : List ChainCall) : MintLog (afterCalls start calls).rows :=
    initialised_start ▸ afterCalls_mintLog store assets genesis fresh calls
  generalize reached : afterCalls start before = w at *
  obtain ⟨id, m, accEnd, read, claimed⟩ := claim_settles claims succeeds
  have log : MintLog (t.exec w).1.rows := by
    rw [t.exec_world, ← reached]
    exact after_keep (I := fun w => MintLog w.rows) (fun _ q log => q.exec_mintLog log)
      (logged before) _
  obtain ⟨m', stored, same⟩ := after_continues log (rest.flatMap (·.requests)) claimed.ended
  rw [← afterCalls_requests] at stored
  refine ⟨id, m, accEnd, _, m', read, claimed.found, claimed.reading, claimed.credits, stored,
    fun calls genesisHeight there recorded => ?_⟩
  refine tellsClaim_iff claimed same (c := .of t (t.exec w).2) rfl rfl
    (by rw [AccountCall.of, claims]; rfl) ?_ genesisHeight
  refine claimOf_eq there succeeds (by rw [AccountCall.of, claims]; rfl)
    fun c' among done named plain => ?_
  rw [← reached] at claimed ⊢
  exact claim_record logged claimed (recorded c' among) done named plain

-----------------------------------------------------------------------------------------
-- A migrated position
-----------------------------------------------------------------------------------------

def bobStart : World MemAssets := initialised Store.newMem MemAssets.new 1000

/-- The owner credits a staked position, which is locked for a month. -/
def bobMigrates : ChainCall where
  txId := "b0b1"
  time := "2026-08-20T13:02:24"
  ctx := .of "hive:owner" 1000 1
  invocation := .owners "migrate" "hive:bob|0|10000000000" (.creditMigration "hive:bob" 0 10000000000)
    rfl

/-- It is claimed at the height of the context. -/
def bobClaims (ctx : Ctx) : ChainCall where
  txId := "b0b2"
  time := "2026-09-21T13:02:24"
  ctx := ctx
  invocation := .entry .claimMint "1"

/-- A claim after the term is told as it was paid. -/
theorem bob_claim_told
    : let w := afterCalls bobStart [bobMigrates]
      let t := bobClaims { sender := "hive:bob", height := 900000, epoch := 2 }
      ∃ n m', Credits (caughtUp t.ctx w).store (t.exec w).1.store "hive:bob" n
        ∧ TellsClaim 1 m' [.of t (t.exec w).2] 1000 n (900000 < 865000) := by
  intro w t
  obtain ⟨id, m, accEnd, n, m', read, found, reading, credits, -, tells⟩ :=
    @story_tells_claim MemAssets _ .newMem .new 1000 rfl [bobMigrates] w rfl t "1" rfl
      (by decide +kernel) []
  have first : (parseArgs "1").u64 0 = some 1 := by decide +kernel
  obtain rfl := Option.some.inj (first.symm.trans read)
  have terms : (w.rows.getMint "hive:bob" 1).map
      (fun m => (m.startHeight, m.days, m.maturityHeight)) = some (1000, 30, 865000) := by
    decide +kernel
  have worth : (w.rows.getMint "hive:bob" 1).bind (fun m =>
      (accEndOf (caughtUp t.ctx w).rows m t.ctx.height).map fun accEnd =>
        decide (Collects m t.ctx.height
          (i64 (m.principal + accruedYield (caughtUp t.ctx w).rows m accEnd)))) = some true := by
    decide +kernel
  change w.rows.getMint "hive:bob" 1 = some m at found
  rw [found] at terms worth
  rw [Option.bind_some, reading] at worth
  obtain ⟨start, days, matures⟩ :
      m.startHeight = 1000 ∧ m.days = 30 ∧ m.maturityHeight = 865000 := by
    simpa using terms
  have ends : (m.startHeight : Int) + m.days * heightsPerDay ≤ t.ctx.height := by
    rw [start, days]
    decide
  obtain ⟨mature, counted⟩ := term_over (by decide) ends
  have told := (tells [.of t (t.exec w).2] 1000 List.mem_cons_self fun c among => ?_).mpr
    ⟨by decide +kernel, mature, counted, of_decide_eq_true (Option.some.inj worth)⟩
  · rw [matures] at told
    exact ⟨n, m', credits, told⟩
  · obtain rfl := List.mem_singleton.mp among
    exact List.mem_map.mpr ⟨(t, (t.exec w).2), List.mem_filter.mpr
      ⟨List.mem_cons_of_mem _ List.mem_cons_self, rfl⟩, rfl⟩

/-- A claim before the end of the term is credited, but its answer is not read. -/
theorem early_end_untold
    : let w := afterCalls bobStart [bobMigrates]
      let t := bobClaims { sender := "hive:bob", height := 2000, epoch := 1 }
      (t.exec w).2.ok = true ∧ (t.exec w).1.store.bal "hive:bob" = some 5005787000
        ∧ ∃ m, (t.exec w).1.rows.getMint "hive:bob" 1 = some m
          ∧ ∀ n early, ¬TellsClaim 1 m [.of t (t.exec w).2] 1000 n early := by
  have untold : ((((bobClaims { sender := "hive:bob", height := 2000, epoch := 1 }).exec
        (afterCalls bobStart [bobMigrates])).1.rows.getMint "hive:bob" 1).bind fun m =>
      (mintStory 1 (encodeMint m) [.of (bobClaims { sender := "hive:bob", height := 2000, epoch := 1 })
        ((bobClaims { sender := "hive:bob", height := 2000, epoch := 1 }).exec
          (afterCalls bobStart [bobMigrates])).2] 1000).map (·.paidOut)) = some none := by
    decide +kernel
  refine ⟨by decide +kernel, by decide +kernel, ?_⟩
  obtain ⟨m, found, paid⟩ := Option.bind_eq_some_iff.mp untold
  obtain ⟨story, told, unread⟩ := Option.map_eq_some_iff.mp paid
  refine ⟨m, found, fun n early => ?_⟩
  rintro ⟨story', told', tells, -⟩
  obtain rfl := Option.some.inj (told.symm.trans told')
  rw [unread] at tells
  cases tells

end LasseCash.Api
