import LasseCash.Engine.Emission
import LasseCash.Lib.DecimalNumber
import LasseCash.Node.MigTree

/-! Who migrates: the criteria of `tools/snapshot/apply_criteria.py`, which divide the collected
balances into a migration set, and the leaves that the loader of `node/migtree/migtree.go` makes of
it. Nothing that an account holds is lost on the way, or moved to another one.
-/

namespace LasseCash.Node

open Engine MachineInt

-----------------------------------------------------------------------------------------
-- The collected facts
-----------------------------------------------------------------------------------------

/-- A row of `balances.json`: amounts in their texts; no text stands for a null. -/
abbrev BalanceRow := List (String × Option String)

/-- A time of `activity.json`, Unix seconds or a text. -/
inductive Stamp
  | number (seconds : ℚ)
  | text (s : String)
  deriving DecidableEq

/-- A record of `activity.json`, as far as it decides. What is missing is as good as null, and a flag
is as Python takes its value.
-/
structure ActivityRecord where
  lastLassecashTs : Option Stamp := none
  heSearchTruncated : Option Bool := none
  searchTruncated : Option Bool := none
  deriving DecidableEq

/-- What Python brings along: its table of decimal digits, and its calendar, with instants in
microseconds. There is no instant where it raises an error.
-/
structure Python where
  digit : Char → Option ℕ
  fromtimestamp : ℚ → Option ℤ
  fromisoformat : String → Option ℤ

/-- Why the criteria stop. An infinite amount, and one that is not a number, stop them as well when
they are cut to units; they are unparseable here.
-/
inductive CriteriaError
  | missingField (account : String)
  | unparseable (s : String)
  | overflow
  | timestamp (seconds : ℚ)
  deriving DecidableEq

-----------------------------------------------------------------------------------------
-- Amounts
-----------------------------------------------------------------------------------------

/-- Base units of a token. -/
def unit : ℕ := 10 ^ 8

/-- White space, as Python strips it. -/
def pythonSpace (c : Char) : Bool :=
  c.toNat ∈ [0x20, 0x85, 0xA0, 0x1680, 0x2028, 0x2029, 0x202F, 0x205F, 0x3000]
    || 0x09 ≤ c.toNat && c.toNat ≤ 0x0D || 0x1C ≤ c.toNat && c.toNat ≤ 0x1F
    || 0x2000 ≤ c.toNat && c.toNat ≤ 0x200A

def strip (text : List Char) : List Char :=
  ((text.dropWhile pythonSpace).reverse.dropWhile pythonSpace).reverse

/-- The text of an amount; nothing, or an empty text, is a zero. -/
def amountText (s : Option String) : List Char :=
  match s with
  | none | some "" => ['0']
  | some s => strip s.toList

/-- `Decimal` of a text. Underscores do not count. -/
def decimal (python : Python) (text : List Char) : Option DecimalNumber :=
  DecimalNumber.read python.digit (text.filter (· ≠ '_'))

/-- Digits that a product keeps, and the largest exponent of a number in scientific notation. -/
def precision : ℕ := 28
def maxExponent : ℤ := 999999

/-- Parses an amount into base units, the rest cut off. Less than nothing is nothing. -/
def toUnits (python : Python) (s : Option String) : Except CriteriaError ℤ :=
  let text := amountText s
  if text = [] then .ok 0
  else
    match decimal python text with
    | none => .error (.unparseable (.ofList text))
    | some d =>
        let scaled := d.mulNat precision unit
        if scaled.coefficient ≠ 0 ∧ maxExponent < scaled.exponent + Nat.log 10 scaled.coefficient then
          .error .overflow
        else .ok (max scaled.truncate 0)

-----------------------------------------------------------------------------------------
-- The criteria
-----------------------------------------------------------------------------------------

/-- Protocol accounts, which are burned and not migrated. -/
def burnAccounts : List String := ["lassecash", "null", "lassecash.dao"]

/-- What an account holds, in base units. -/
structure Holding where
  liquid : ℤ
  staked : ℤ
  total : ℤ
  deriving DecidableEq

/-- A field of a balance row; what is missing is a zero. -/
def BalanceRow.field (bal : BalanceRow) (name : String) : Option String :=
  (bal.lookup name).getD (some "0")

/-- Everything that an account owns. A power-down in progress is part of the stake, but for the
instalment that has left it and is not paid yet.
-/
def holding (python : Python) (account : String) (bal : BalanceRow)
    : Except CriteriaError Holding := do
  if (bal.lookup "balance").isNone ∨ (bal.lookup "stake").isNone then
    throw (.missingField account)
  let stake ← toUnits python (bal.field "stake")
  let pending ← toUnits python (bal.field "pendingUnstake")
  let inFlight := max (pending - stake) 0
  let balance ← toUnits python (bal.field "balance")
  let pooled ← toUnits python (bal.field "pooled")
  let onOrder ← toUnits python (bal.field "onOrder")
  let liquid := balance + pooled + onOrder
  let delegationsOut ← toUnits python (bal.field "delegationsOut")
  let staked := stake + inFlight + delegationsOut
  return ⟨liquid, staked, liquid + staked⟩

/-- Accepts Unix times and texts; a text that is not a time is none. -/
def parseTs (python : Python) (v : Option Stamp) : Except CriteriaError (Option ℤ) :=
  match v with
  | none => .ok none
  | some (.number seconds) =>
      match python.fromtimestamp seconds with
      | none => .error (.timestamp seconds)
      | some t => .ok (some t)
  | some (.text s) =>
      let utc := s.toList.flatMap fun c => if c = 'Z' then "+00:00".toList else [c]
      .ok (python.fromisoformat (.ofList utc))

/-- The parts of the migration set. -/
inductive Fate
  | alive
  | dead
  | burned
  deriving DecidableEq

/-- The activity of all accounts; a record may be null. -/
abbrev Activity := List (String × Option ActivityRecord)

/-- What is known of an account's activity. -/
def Activity.of (activity : Activity) (account : String) : ActivityRecord :=
  (activity.lookup account).join.getD {}

/-- An account migrates if it signed an operation of the token since the cutoff, or if the search for
one did not come to an end.
-/
def judge (python : Python) (activity : Activity) (cutoff : ℤ) (account : String)
    : Except CriteriaError Fate :=
  if account ∈ burnAccounts then .ok .burned
  else do
    let act := activity.of account
    let lcTs ← parseTs python act.lastLassecashTs
    let heTrunc := act.heSearchTruncated.getD (act.searchTruncated.getD false)
    let byLc := lcTs.any (cutoff ≤ ·)
    return if byLc then .alive else if heTrunc then .alive else .dead

/-- The migration set as it is written. -/
structure MigrationSet where
  migrate : List (String × Holding)
  burnInactive : List (String × Holding)
  burnProtocol : List (String × Holding)

/-- Records an account, which is not in the set. -/
def MigrationSet.record (set : MigrationSet) (fate : Fate) (row : String × Holding) : MigrationSet :=
  match fate with
  | .alive => { set with migrate := set.migrate ++ [row] }
  | .dead => { set with burnInactive := set.burnInactive ++ [row] }
  | .burned => { set with burnProtocol := set.burnProtocol ++ [row] }

/-- One turn of the loop over the balances. -/
def evaluateRow (python : Python) (activity : Activity) (cutoff : ℤ) (set : MigrationSet)
    (row : String × BalanceRow)
    : Except CriteriaError MigrationSet := do
  let (account, bal) := row
  let held ← holding python account bal
  let fate ← judge python activity cutoff account
  return set.record fate (account, held)

/-- Divides the balances, one account after the other. -/
def evaluate (python : Python) (balances : List (String × BalanceRow)) (activity : Activity)
    (cutoff : ℤ)
    : Except CriteriaError MigrationSet :=
  balances.foldlM (evaluateRow python activity cutoff) ⟨[], [], []⟩

-----------------------------------------------------------------------------------------
-- The set as it is read
-----------------------------------------------------------------------------------------

/-- (Holding.Fits h) says that the numbers of a row are of 64 bits. -/
def Holding.Fits (h : Holding) : Prop := InI64 h.liquid ∧ InI64 h.staked ∧ InI64 h.total

instance (n : ℤ) : Decidable (InI64 n) :=
  decidable_of_iff (-2 ^ 63 ≤ n ∧ n < 2 ^ 63) ⟨fun h => ⟨h.1, h.2⟩, fun h => ⟨h.lower, h.upper⟩⟩

instance (h : Holding) : Decidable h.Fits :=
  inferInstanceAs (Decidable (InI64 h.liquid ∧ InI64 h.staked ∧ InI64 h.total))

def Holding.entry (h : Holding) : SetEntry := ⟨.ofInt h.liquid, .ofInt h.staked⟩

/-- Reads the written set into the loader's types, which a larger number does not fit. -/
def unmarshal (set : MigrationSet) : Option SetDoc :=
  let read (rows : List (String × Holding)) := rows.map fun row => (row.1, row.2.entry)
  if ∀ row ∈ set.migrate ++ set.burnInactive ++ set.burnProtocol, row.2.Fits then
    some ⟨read set.migrate, read set.burnInactive, read set.burnProtocol⟩
  else none

-----------------------------------------------------------------------------------------
-- What an account is owed
-----------------------------------------------------------------------------------------

section Owed

variable (python : Python) (activity : Activity) (cutoff : ℤ)

/-- The number that an amount stands for. -/
def meant (s : Option String) : ℚ := ((decimal python (amountText s)).map (·.toRat)).getD 0

/-- A field of a row in base units, without its fraction and not below zero. -/
def fieldUnits (bal : BalanceRow) (name : String) : ℤ := max 0 ⌊meant python (bal.field name) * unit⌋

/-- What an account can spend: its balance, its part of the pool and its open orders. -/
def liquidOf (bal : BalanceRow) : ℤ :=
  fieldUnits python bal "balance" + fieldUnits python bal "pooled" + fieldUnits python bal "onOrder"

/-- What it holds in stake: its own, the instalment on the way and what it delegates. -/
def stakedOf (bal : BalanceRow) : ℤ :=
  fieldUnits python bal "stake"
    + max (fieldUnits python bal "pendingUnstake" - fieldUnits python bal "stake") 0
    + fieldUnits python bal "delegationsOut"

/-- Whether an operation of the token was signed since the cutoff. -/
def active (account : String) : Bool :=
  match parseTs python (activity.of account).lastLassecashTs with
  | .ok (some t) => cutoff ≤ t
  | _ => false

/-- Whether the search for one stopped early; the newer flag goes before the older one. -/
def searchCut (account : String) : Bool :=
  match (activity.of account).heSearchTruncated with
  | some cut => cut
  | none => (activity.of account).searchTruncated = some true

/-- Whether an account's position is burned. -/
def burnedAt (account : String) : Bool :=
  account ∈ burnAccounts || !(active python activity cutoff account || searchCut activity account)

/-- The leaf that an account is due. -/
def leafAt (row : String × BalanceRow) : Leaf :=
  ⟨"hive:" ++ row.1, liquidOf python row.2, stakedOf python row.2,
    burnedAt python activity cutoff row.1⟩

/-- All that an account holds. -/
def positionOf (row : String × BalanceRow) : ℤ := liquidOf python row.2 + stakedOf python row.2

end Owed

/-- The fields that hold amounts. -/
def amountFields : List String :=
  ["balance", "stake", "pendingUnstake", "pooled", "onOrder", "delegationsOut"]

/-- (ShortAmounts python bal) says that the amounts of a row have no more digits than a product
keeps.
-/
def ShortAmounts (python : Python) (bal : BalanceRow) : Prop :=
  ∀ name ∈ amountFields, ∀ d, decimal python (amountText (bal.field name)) = some d →
    d.Short precision

section Judging

variable {python : Python} {balances : List (String × BalanceRow)} {activity : Activity}
  {cutoff : ℤ}

/-- An amount that is not cut short is parsed to what it stands for. -/
theorem toUnits_meant {s : Option String} {n : ℤ}
    (short : ∀ d, decimal python (amountText s) = some d → d.Short precision)
    (parsed : toUnits python s = .ok n)
    : n = max 0 ⌊meant python s * unit⌋ := by
  unfold toUnits at parsed
  dsimp only at parsed
  unfold meant
  split at parsed
  · rename_i empty
    have nothing : decimal python (amountText s) = none := by
      rw [empty]
      rfl
    cases parsed
    simp [nothing]
  · split at parsed
    · cases parsed
    · rename_i d number
      split at parsed
      · cases parsed
      · have exact_product := d.toRat_mulNat (short d number) 8
        have worth : (d.mulNat precision unit).toRat = d.toRat * unit := by
          rw [unit, exact_product]
          norm_num
        obtain rfl := Except.ok.inj parsed
        rw [number, max_comm, DecimalNumber.max_truncate, worth]
        rfl

/-- What the criteria find of a row is what its account is owed. -/
theorem holding_owed {account : String} {bal : BalanceRow} {held : Holding}
    (short : ShortAmounts python bal) (found : holding python account bal = .ok held)
    : held = ⟨liquidOf python bal, stakedOf python bal,
        liquidOf python bal + stakedOf python bal⟩ := by
  have units : ∀ name ∈ amountFields, ∀ {n : ℤ}, toUnits python (bal.field name) = .ok n →
      n = fieldUnits python bal name := fun name there n parsed =>
    toUnits_meant (short name there) parsed
  unfold holding at found
  simp only [Bind.bind, Except.bind] at found
  split at found
  · cases found
  · cases stake : toUnits python (bal.field "stake") with
    | error e => simp [stake] at found
    | ok stakeUnits =>
    cases pending : toUnits python (bal.field "pendingUnstake") with
    | error e => simp [stake, pending] at found
    | ok pendingUnits =>
    cases balance : toUnits python (bal.field "balance") with
    | error e => simp [stake, pending, balance] at found
    | ok balanceUnits =>
    cases pooled : toUnits python (bal.field "pooled") with
    | error e => simp [stake, pending, balance, pooled] at found
    | ok pooledUnits =>
    cases onOrder : toUnits python (bal.field "onOrder") with
    | error e => simp [stake, pending, balance, pooled, onOrder] at found
    | ok orderUnits =>
    cases delegated : toUnits python (bal.field "delegationsOut") with
    | error e => simp [stake, pending, balance, pooled, onOrder, delegated] at found
    | ok delegatedUnits =>
    simp only [stake, pending, balance, pooled, onOrder, delegated] at found
    obtain rfl := Except.ok.inj found
    rw [units _ (by decide) stake, units _ (by decide) pending, units _ (by decide) balance,
      units _ (by decide) pooled, units _ (by decide) onOrder, units _ (by decide) delegated]
    rfl

/-- What becomes of an account at a cutoff. -/
def fateAt (python : Python) (activity : Activity) (cutoff : ℤ) (account : String) : Fate :=
  if account ∈ burnAccounts then .burned
  else if active python activity cutoff account || searchCut activity account then .alive
  else .dead

/-- An account that is judged at one cutoff is judged at every other one. -/
theorem judge_fate {account : String} {fate : Fate}
    (judged : judge python activity cutoff account = .ok fate) (cutoff' : ℤ)
    : judge python activity cutoff' account = .ok (fateAt python activity cutoff' account) := by
  unfold judge fateAt at *
  split at judged
  · rename_i protocol
    rw [if_pos protocol, if_pos protocol]
  · rename_i user
    rw [if_neg user, if_neg user]
    simp only [Bind.bind, Except.bind] at judged ⊢
    have cut : (activity.of account).heSearchTruncated.getD
        ((activity.of account).searchTruncated.getD false) = searchCut activity account := by
      unfold searchCut
      cases (activity.of account).heSearchTruncated with
      | some flag => rfl
      | none => rcases (activity.of account).searchTruncated with - | - | - <;> rfl
    unfold active
    cases time : parseTs python (activity.of account).lastLassecashTs with
    | error e => simp [time] at judged
    | ok lcTs =>
        rw [cut]
        cases lcTs with
        | none => cases searchCut activity account <;> rfl
        | some t =>
            by_cases since : cutoff' ≤ t <;> cases searchCut activity account <;>
              simp [since, pure, Except.pure]

/-- Whether the positions of a part are burned. -/
def Fate.burns : Fate → Bool
  | .alive => false
  | .dead | .burned => true

/-- Only what is not alive is burned. -/
theorem fateAt_burns (account : String)
    : (fateAt python activity cutoff account).burns = burnedAt python activity cutoff account := by
  unfold burnedAt fateAt
  by_cases protocol : account ∈ burnAccounts
  · simp [protocol, Fate.burns]
  · cases active python activity cutoff account || searchCut activity account <;>
      simp [protocol, Fate.burns]

/-- The row of the migration set that an account is due. -/
def owedRow (python : Python) (row : String × BalanceRow) : String × Holding :=
  (row.1, ⟨liquidOf python row.2, stakedOf python row.2, positionOf python row⟩)

/-- The rows of some balances that meet a fate. -/
def rowsOf (python : Python) (activity : Activity) (cutoff : ℤ) (fate : Fate)
    (balances : List (String × BalanceRow)) : List (String × Holding) :=
  (balances.filter fun row => fateAt python activity cutoff row.1 = fate).map (owedRow python)

/-- The set of some balances at a cutoff, after what is in it already. -/
def divided (python : Python) (activity : Activity) (cutoff : ℤ) (set : MigrationSet)
    (balances : List (String × BalanceRow)) : MigrationSet :=
  ⟨set.migrate ++ rowsOf python activity cutoff .alive balances,
    set.burnInactive ++ rowsOf python activity cutoff .dead balances,
    set.burnProtocol ++ rowsOf python activity cutoff .burned balances⟩

/-- A row goes to the part of its fate. -/
theorem record_divided (set : MigrationSet) (row : String × BalanceRow)
    (rest : List (String × BalanceRow))
    : divided python activity cutoff
        (set.record (fateAt python activity cutoff row.1) (owedRow python row)) rest
      = divided python activity cutoff set (row :: rest) := by
  unfold divided rowsOf
  cases fate : fateAt python activity cutoff row.1 <;> simp [fate, MigrationSet.record]

/-- Balances that are divided at one cutoff are divided at every other one, each account by its fate
there; by induction on the balances.
-/
theorem foldlM_divided {set out : MigrationSet}
    (short : ∀ row ∈ balances, ShortAmounts python row.2)
    (evaluated : balances.foldlM (evaluateRow python activity cutoff) set = .ok out)
    (cutoff' : ℤ) (set' : MigrationSet)
    : balances.foldlM (evaluateRow python activity cutoff') set'
      = .ok (divided python activity cutoff' set' balances) := by
  induction balances generalizing set set' with
  | nil => simp [divided, rowsOf, pure, Except.pure]
  | cons row rest ih =>
      obtain ⟨account, bal⟩ := row
      obtain ⟨here, later⟩ := List.forall_mem_cons.mp short
      rw [List.foldlM_cons] at evaluated ⊢
      cases found : holding python account bal with
      | error e => simp [evaluateRow, found, Bind.bind, Except.bind] at evaluated
      | ok held =>
      cases judged : judge python activity cutoff account with
      | error e => simp [evaluateRow, found, judged, Bind.bind, Except.bind] at evaluated
      | ok fate =>
      have turn : evaluateRow python activity cutoff set (account, bal)
          = .ok (set.record fate (account, held)) := by
        simp [evaluateRow, found, judged, Bind.bind, Except.bind, pure, Except.pure]
      have turn' : evaluateRow python activity cutoff' set' (account, bal)
          = .ok (set'.record (fateAt python activity cutoff' account) (account, held)) := by
        simp [evaluateRow, found, judge_fate judged cutoff', Bind.bind, Except.bind, pure,
          Except.pure]
      rw [turn] at evaluated
      rw [turn']
      obtain rfl := holding_owed here found
      change rest.foldlM _ _ = _ at evaluated
      change rest.foldlM _ _ = _
      rw [ih later evaluated]
      exact congrArg Except.ok (record_divided set' (account, bal) rest)

/-- What is divided at one cutoff is divided at every other one. -/
theorem evaluate_divided {set : MigrationSet}
    (short : ∀ row ∈ balances, ShortAmounts python row.2)
    (evaluated : evaluate python balances activity cutoff = .ok set) (cutoff' : ℤ)
    : evaluate python balances activity cutoff'
      = .ok (divided python activity cutoff' ⟨[], [], []⟩ balances) :=
  foldlM_divided short evaluated cutoff' _

/-- What meets one of three fates is all there is, by induction on it. -/
theorem fates_perm {α β : Type} (fate : α → Fate) (f : Fate → α → β) (l : List α)
    : ((l.filter fun a => fate a = .alive).map (f .alive)
        ++ ((l.filter fun a => fate a = .dead).map (f .dead)
          ++ (l.filter fun a => fate a = .burned).map (f .burned))).Perm
      (l.map fun a => f (fate a) a) := by
  induction l with
  | nil => exact List.Perm.refl _
  | cons a rest ih =>
      rw [List.map_cons]
      cases met : fate a with
      | alive =>
          simp only [List.filter_cons, met]
          exact ih.cons _
      | dead =>
          simp only [List.filter_cons, met]
          exact (List.perm_middle (a := f .dead a)).trans (ih.cons _)
      | burned =>
          simp only [List.filter_cons, met]
          refine List.Perm.trans ?_ (ih.cons _)
          refine List.Perm.trans ?_ List.perm_middle
          exact (List.perm_middle (a := f .burned a)).append_left _

/-- What is read of an account's row. -/
def flaggedRow (python : Python) (activity : Activity) (cutoff : ℤ) (row : String × BalanceRow)
    : FlaggedRow :=
  (burnedAt python activity cutoff row.1, row.1, (owedRow python row).2.entry)

/-- A set that is read has numbers of 64 bits. -/
theorem unmarshal_fits {doc : SetDoc}
    (decoded : unmarshal (divided python activity cutoff ⟨[], [], []⟩ balances) = some doc)
    : ∀ row ∈ balances, (owedRow python row).2.Fits := by
  intro row there
  unfold unmarshal at decoded
  dsimp only at decoded
  split at decoded
  · rename_i fits
    refine fits (owedRow python row) ?_
    have among : ∀ fate, fateAt python activity cutoff row.1 = fate →
        owedRow python row ∈ rowsOf python activity cutoff fate balances := fun fate met =>
      List.mem_map_of_mem (List.mem_filter.mpr ⟨there, decide_eq_true met⟩)
    simp only [divided, List.nil_append, List.mem_append]
    cases met : fateAt python activity cutoff row.1 with
    | alive => exact Or.inl (Or.inl (among _ met))
    | dead => exact Or.inl (Or.inr (among _ met))
    | burned => exact Or.inr (among _ met)
  · cases decoded

/-- Numbers of 64 bits are read, and every account's row is among what is read. -/
theorem unmarshal_rows (activity : Activity) (cutoff : ℤ)
    (fits : ∀ row ∈ balances, (owedRow python row).2.Fits)
    : ∃ doc, unmarshal (divided python activity cutoff ⟨[], [], []⟩ balances) = some doc
      ∧ doc.rows.Perm (balances.map (flaggedRow python activity cutoff)) := by
  generalize made : divided python activity cutoff ⟨[], [], []⟩ balances = set
  have all_fit : ∀ row ∈ set.migrate ++ set.burnInactive ++ set.burnProtocol, row.2.Fits := by
    intro row there
    simp only [← made, divided, rowsOf, List.nil_append, List.mem_append, List.mem_map,
      List.mem_filter] at there
    rcases there with (⟨b, ⟨there, -⟩, rfl⟩ | ⟨b, ⟨there, -⟩, rfl⟩) | ⟨b, ⟨there, -⟩, rfl⟩ <;>
      exact fits b there
  unfold unmarshal
  dsimp only
  rw [if_pos all_fit]
  refine ⟨_, rfl, ?_⟩
  subst made
  have flag : flaggedRow python activity cutoff
      = fun row => ((fateAt python activity cutoff row.1).burns, row.1,
        (owedRow python row).2.entry) := by
    funext row
    rw [fateAt_burns]
    rfl
  rw [flag]
  refine List.Perm.trans ?_ (fates_perm (fun row => fateAt python activity cutoff row.1)
    (fun fate row => (fate.burns, row.1, (owedRow python row).2.entry)) balances)
  have sorted := fun (burned : Bool) (rows : List (String × SetEntry)) =>
    (List.perm_insertionSort (fun a b : String × SetEntry => a.1 ≤ b.1) rows).map
      fun row => (burned, row)
  have parts := (sorted false ((rowsOf python activity cutoff .alive balances).map
      fun row => (row.1, row.2.entry))).append
    ((sorted true ((rowsOf python activity cutoff .dead balances).map
      fun row => (row.1, row.2.entry))).append
    (sorted true ((rowsOf python activity cutoff .burned balances).map
      fun row => (row.1, row.2.entry))))
  refine List.Perm.trans parts (List.Perm.of_eq ?_)
  simp only [rowsOf, List.map_map]
  rfl

-----------------------------------------------------------------------------------------
-- The leaves of the set
-----------------------------------------------------------------------------------------

/-- The order of the leaves. -/
def byAccount (a b : Entry) : Prop := a.account ≤ b.account

instance : DecidableRel byAccount := fun a b => inferInstanceAs (Decidable (a.account ≤ b.account))

instance : Std.Total byAccount := ⟨fun a b => le_total a.account b.account⟩

instance : IsTrans Entry byAccount := ⟨fun _ _ _ first next => le_trans first next⟩

/-- The balances that hold something, in the order of their leaves. -/
def ranked (python : Python) (balances : List (String × BalanceRow)) : List (String × BalanceRow) :=
  (balances.filter fun row => 0 < positionOf python row).insertionSort
    fun a b => "hive:" ++ a.1 ≤ "hive:" ++ b.1

/-- Numbers of 64 bits keep their worth. -/
theorem entry_words {held : Holding} (fits : held.Fits)
    : held.entry.liquid.toInt = held.liquid ∧ held.entry.staked.toInt = held.staked :=
  ⟨Int64.toInt_ofInt_of_le fits.1.lower fits.1.upper,
    Int64.toInt_ofInt_of_le fits.2.1.lower fits.2.1.upper⟩

/-- The leaf of a row is the one that its account is due. -/
theorem flaggedRow_leaf {row : String × BalanceRow} (fits : (owedRow python row).2.Fits)
    : (flaggedRow python activity cutoff row).entry.leaf = leafAt python activity cutoff row := by
  obtain ⟨liquid, staked⟩ := entry_words fits
  simp only [Entry.leaf, FlaggedRow.entry, flaggedRow, leafAt, liquid, staked]
  rfl

theorem flaggedRow_holds {row : String × BalanceRow} (fits : (owedRow python row).2.Fits)
    : (flaggedRow python activity cutoff row).holds = decide (0 < positionOf python row) := by
  obtain ⟨liquid, staked⟩ := entry_words fits
  simp only [FlaggedRow.holds, flaggedRow, liquid, staked]
  exact congrArg (fun n : ℤ => decide (0 < n)) (i64_of_mem fits.2.2)

/-- What is loaded are the positions of the balances that hold something, in order. -/
theorem load_ranked {doc : SetDoc} {snap : Snapshot}
    (fits : ∀ row ∈ balances, (owedRow python row).2.Fits)
    (rows : doc.rows.Perm (balances.map (flaggedRow python activity cutoff)))
    (loaded : load doc = .ok snap)
    : snap.entries
      = (ranked python balances).map fun row => (flaggedRow python activity cutoff row).entry := by
  have kept : (balances.map (flaggedRow python activity cutoff)).filter FlaggedRow.holds
      = (balances.filter fun row => 0 < positionOf python row).map
          (flaggedRow python activity cutoff) := by
    rw [List.filter_map]
    congr 1
    exact List.filter_congr fun row there => flaggedRow_holds (fits row there)
  obtain ⟨-, found⟩ := load_loaded loaded
  have among := (rows.filter FlaggedRow.holds).map FlaggedRow.entry
  rw [kept, List.map_map] at among
  have accounts := (load_sound loaded).1.accounts
  have order : (ranked python balances).map (FlaggedRow.entry ∘ flaggedRow python activity cutoff)
      = ((balances.filter fun row => 0 < positionOf python row).map
          (FlaggedRow.entry ∘ flaggedRow python activity cutoff)).insertionSort byAccount :=
    List.map_insertionSort _ _ _ _ fun a _ b _ => Iff.rfl
  have same : snap.entries.Perm ((ranked python balances).map
      (FlaggedRow.entry ∘ flaggedRow python activity cutoff)) := by
    rw [found, order]
    exact (List.perm_insertionSort _ _).trans (among.trans (List.perm_insertionSort _ _).symm)
  have unique : ∀ a b, a ∈ snap.entries → b ∈ (ranked python balances).map
      (FlaggedRow.entry ∘ flaggedRow python activity cutoff) → byAccount a b → byAccount b a →
      a = b := fun a b there there' less more =>
    List.inj_on_of_nodup_map accounts there (same.mem_iff.mpr there') (le_antisymm less more)
  refine List.Perm.eq_of_pairwise unique ?_ ?_ same
  · rw [found]
    exact List.pairwise_insertionSort byAccount _
  · refine (congrArg (List.Pairwise byAccount) order).mpr ?_
    exact List.pairwise_insertionSort byAccount _

/-- The leaves of a loaded set are those that the accounts are due. -/
theorem leaves_ranked {snap : Snapshot} (fits : ∀ row ∈ balances, (owedRow python row).2.Fits)
    (found : snap.entries
      = (ranked python balances).map fun row => (flaggedRow python activity cutoff row).entry)
    : snap.entries.map Entry.leaf = (ranked python balances).map (leafAt python activity cutoff) := by
  rw [found, List.map_map]
  refine List.map_congr_left fun row there => flaggedRow_leaf (fits row ?_)
  exact List.mem_of_mem_filter ((List.mem_insertionSort _).mp there)

/-- Among accounts that differ, one account's row is alone. -/
theorem filter_account {row : String × BalanceRow} (distinct : (balances.map Prod.fst).Nodup)
    (there : row ∈ balances)
    : balances.filter (fun b => b.1 = row.1) = [row] := by
  have same : ∀ b ∈ balances, decide (b.1 = row.1) = decide (b = row) := by
    intro b there'
    refine decide_eq_decide.mpr ⟨fun names => ?_, congrArg Prod.fst⟩
    exact List.inj_on_of_nodup_map distinct there' there names
  rw [List.filter_congr same, List.filter_eq, List.count_eq_one_of_mem distinct.of_map there]
  rfl

/-- An account's leaf is its only one, and one that holds nothing has none. -/
theorem filter_leaves {row : String × BalanceRow} (distinct : (balances.map Prod.fst).Nodup)
    (there : row ∈ balances)
    : ((ranked python balances).map (leafAt python activity cutoff)).filter
        (fun leaf => leaf.account = "hive:" ++ row.1)
      = if 0 < positionOf python row then [leafAt python activity cutoff row] else [] := by
  have names : (fun leaf : Leaf => decide (leaf.account = "hive:" ++ row.1))
      ∘ leafAt python activity cutoff = fun b => decide (b.1 = row.1) := by
    funext b
    refine decide_eq_decide.mpr ⟨fun same => ?_, fun same => congrArg ("hive:" ++ ·) same⟩
    exact String.toList_inj.mp (by simpa [leafAt] using congrArg String.toList same)
  have order := List.perm_insertionSort
    (fun a b : String × BalanceRow => "hive:" ++ a.1 ≤ "hive:" ++ b.1)
    (balances.filter fun row => 0 < positionOf python row)
  have alone := order.filter fun b => b.1 = row.1
  rw [List.filter_comm, filter_account distinct there] at alone
  rw [List.filter_map, names]
  unfold ranked
  by_cases holds : 0 < positionOf python row
  · rw [List.filter_cons_of_pos (by simpa using holds), List.filter_nil] at alone
    rw [List.perm_singleton.mp alone, if_pos holds]
    rfl
  · rw [List.filter_cons_of_neg (by simpa using holds), List.filter_nil] at alone
    rw [List.perm_nil.mp alone, if_neg holds]
    rfl

/-- Amounts are not negative. -/
theorem positionOf_nonneg (python : Python) (row : String × BalanceRow) : 0 ≤ positionOf python row := by
  have units : ∀ name, 0 ≤ fieldUnits python row.2 name := fun name => le_max_left _ _
  have balance := units "balance"
  have pooled := units "pooled"
  have onOrder := units "onOrder"
  have stake := units "stake"
  have delegated := units "delegationsOut"
  have inFlight := le_max_right
    (fieldUnits python row.2 "pendingUnstake" - fieldUnits python row.2 "stake") 0
  unfold positionOf liquidOf stakedOf
  omega

/-- What holds nothing adds nothing, by induction on the balances. -/
theorem sum_holding (rows : List (String × BalanceRow))
    : ((rows.filter fun row => 0 < positionOf python row).map (positionOf python)).sum
      = (rows.map (positionOf python)).sum := by
  induction rows with
  | nil => rfl
  | cons row rest ih =>
      have nonneg := positionOf_nonneg python row
      by_cases holds : 0 < positionOf python row
      · rw [List.filter_cons_of_pos (by simpa using holds), List.map_cons, List.map_cons,
          List.sum_cons, List.sum_cons, ih]
      · rw [List.filter_cons_of_neg (by simpa using holds), List.map_cons, List.sum_cons, ih]
        omega

/-- The positions of a class are worth what its accounts hold. -/
theorem worth_class {snap : Snapshot} (fits : ∀ row ∈ balances, (owedRow python row).2.Fits)
    (found : snap.entries
      = (ranked python balances).map fun row => (flaggedRow python activity cutoff row).entry)
    (part : Bool → Bool)
    : worth (snap.entries.filter fun e => part e.burned)
      = ((balances.filter fun row => part (burnedAt python activity cutoff row.1)).map
          (positionOf python)).sum := by
  have order := List.perm_insertionSort
    (fun a b : String × BalanceRow => "hive:" ++ a.1 ≤ "hive:" ++ b.1)
    (balances.filter fun row => 0 < positionOf python row)
  have amounts : ∀ row ∈ ranked python balances,
      (flaggedRow python activity cutoff row).entry.amount = positionOf python row := by
    intro row there
    obtain ⟨liquid, staked⟩ :=
      entry_words (fits row (List.mem_of_mem_filter (order.mem_iff.mp there)))
    simp only [Entry.amount, FlaggedRow.entry, flaggedRow, liquid, staked]
    rfl
  have classes := order.filter fun row => part (burnedAt python activity cutoff row.1)
  rw [List.filter_comm] at classes
  unfold worth
  rw [found, List.filter_map, List.map_map, ← sum_holding, ← (classes.map _).sum_eq]
  refine congrArg List.sum (List.map_congr_left fun row there => ?_)
  exact amounts row (List.mem_of_mem_filter there)

/-- A set that is loaded at one cutoff is loaded at every other one. -/
theorem load_any {doc : SetDoc} {snap : Snapshot} (distinct : (balances.map Prod.fst).Nodup)
    (fits : ∀ row ∈ balances, (owedRow python row).2.Fits)
    (rows : doc.rows.Perm (balances.map (flaggedRow python activity cutoff)))
    (loaded : load doc = .ok snap) {doc' : SetDoc} {cutoff' : ℤ}
    (rows' : doc'.rows.Perm (balances.map (flaggedRow python activity cutoff')))
    : ∃ snap', load doc' = .ok snap' := by
  refine load_plain ?_ ?_ ?_
  · intro row there
    obtain ⟨b, among, rfl⟩ := List.mem_map.mp (rows'.mem_iff.mp there)
    have plain := (load_loaded loaded).1 _ (rows.mem_iff.mpr (List.mem_map_of_mem among))
    exact ⟨plain.liquid, plain.staked, plain.name⟩
  · have names := rows'.map (·.2.1)
    rw [List.map_map] at names
    exact names.nodup_iff.mpr distinct
  · obtain ⟨b, there⟩ := List.exists_mem_of_ne_nil _
      (fun none => (load_sound loaded).2 ((load_ranked fits rows loaded).trans (by rw [none]; rfl))
        : ranked python balances ≠ [])
    have among := List.mem_filter.mp ((List.mem_insertionSort _).mp there)
    refine ⟨_, rows'.mem_iff.mpr (List.mem_map_of_mem among.1), ?_⟩
    rw [flaggedRow_holds (fits b among.1)]
    exact among.2

/-- An earlier cutoff burns less. -/
theorem burnedAt_earlier {cutoff' : ℤ} (earlier : cutoff' ≤ cutoff) (account : String)
    (burned : burnedAt python activity cutoff' account = true)
    : burnedAt python activity cutoff account = true := by
  have still : active python activity cutoff account = true →
      active python activity cutoff' account = true := by
    unfold active
    split
    · simp only [decide_eq_true_iff]
      exact earlier.trans
    · exact id
  unfold burnedAt at *
  rcases Bool.or_eq_true_iff.mp burned with protocol | unproven
  · rw [protocol, Bool.true_or]
  · obtain ⟨inactive, searched⟩ :=
      Bool.or_eq_false_iff.mp ((Bool.not_eq_true' _).mp unproven)
    have inactive' : active python activity cutoff account = false :=
      Bool.eq_false_iff.mpr fun later => Bool.false_ne_true (inactive.symm.trans (still later))
    rw [inactive', searched, Bool.or_false, Bool.not_false, Bool.or_true]

/-- From the balances to the leaves nothing is lost or moved. An account that holds something has one
leaf with all of it, and there is no other leaf; it is burned if the account is of the protocol, or is
neither active nor of a search that was cut. Within the cap the totals are those of the two classes.
An earlier cutoff turns leaves from burned to claimable and does nothing else.
-/
theorem holdings_to_leaves {set : MigrationSet} {doc : SetDoc} {snap : Snapshot}
    (distinct : (balances.map Prod.fst).Nodup)
    (short : ∀ row ∈ balances, ShortAmounts python row.2)
    (evaluated : evaluate python balances activity cutoff = .ok set)
    (decoded : unmarshal set = some doc) (loaded : load doc = .ok snap)
    : (∀ row ∈ balances,
        (snap.entries.map Entry.leaf).filter (fun leaf => leaf.account = "hive:" ++ row.1)
          = if positionOf python row = 0 then [] else [leafAt python activity cutoff row])
      ∧ (∀ leaf ∈ snap.entries.map Entry.leaf, ∃ row ∈ balances, leaf.account = "hive:" ++ row.1)
      ∧ (worth snap.entries ≤ historicHardCap →
          (build snap).qualifierTotal
            = ((balances.filter fun row => !burnedAt python activity cutoff row.1).map
                (positionOf python)).sum
          ∧ (build snap).burnTotal
            = ((balances.filter fun row => burnedAt python activity cutoff row.1).map
                (positionOf python)).sum)
      ∧ ∀ cutoff' ≤ cutoff, ∃ set' doc' snap',
          evaluate python balances activity cutoff' = .ok set' ∧ unmarshal set' = some doc'
          ∧ load doc' = .ok snap'
          ∧ List.Forall₂
              (fun before leaf : Leaf => before = { leaf with burned := before.burned }
                ∧ (before.burned = true → leaf.burned = true))
              (snap'.entries.map Entry.leaf) (snap.entries.map Entry.leaf) := by
  obtain rfl := Except.ok.inj ((evaluate_divided short evaluated cutoff).symm.trans evaluated)
  have fits := unmarshal_fits decoded
  obtain ⟨read, decoded', rows⟩ := unmarshal_rows activity cutoff fits
  obtain rfl : read = doc := Option.some.inj (decoded'.symm.trans decoded)
  have found := load_ranked fits rows loaded
  have leaves := leaves_ranked fits found
  refine ⟨fun row there => ?_, fun leaf there => ?_, fun cap => ?_, fun cutoff' earlier => ?_⟩
  · have nonneg := positionOf_nonneg python row
    rw [leaves, filter_leaves distinct there]
    by_cases holds : 0 < positionOf python row
    · rw [if_pos holds, if_neg (by omega)]
    · rw [if_neg holds, if_pos (by omega)]
  · rw [leaves] at there
    obtain ⟨row, among, rfl⟩ := List.mem_map.mp there
    exact ⟨row, List.mem_of_mem_filter ((List.mem_insertionSort _).mp among), rfl⟩
  · have word : worth snap.entries < 2 ^ 63 := lt_of_le_of_lt cap (by decide)
    obtain ⟨qualifying_sum, burned_sum⟩ := build_totals (load_sound loaded).1.sound word
    rw [qualifying_sum, burned_sum]
    exact ⟨worth_class fits found (!·), worth_class fits found id⟩
  · obtain ⟨doc', read', rows'⟩ := unmarshal_rows activity cutoff' fits
    obtain ⟨snap', loaded'⟩ := load_any distinct fits rows loaded rows'
    refine ⟨_, doc', snap', evaluate_divided short evaluated cutoff', read', loaded', ?_⟩
    rw [leaves, leaves_ranked fits (load_ranked fits rows' loaded'), List.forall₂_map_left_iff,
      List.forall₂_map_right_iff]
    refine List.forall₂_same.mpr fun row _ => ⟨rfl, burnedAt_earlier earlier row.1⟩

end Judging

/-- Python with the digits of ASCII, whole seconds and one known date. -/
def asciiPython : Python :=
  ⟨fun c => if c.isDigit then some (c.toNat - 48) else none,
    fun seconds => some ⌊seconds * 10 ^ 6⌋,
    fun s => if s = "2026-08-01T00:00:00" then some 1785542400000000 else none⟩

/-- Two instalments of a power-down are paid and one is on the way. -/
def poweringDown : BalanceRow :=
  [("balance", some "7692.31"), ("stake", some "88461.54"), ("pendingUnstake", some "92307.69")]

def fourBalances : List (String × BalanceRow) :=
  [("cedric", poweringDown), ("lassecash", [("balance", some "2E-8"), ("stake", none)]),
    ("dora", [("balance", some "0"), ("stake", some " ")]),
    ("bob", [("balance", some "-0.00000027"), ("stake", some "1.999999999")])]

def threeRecords : Activity :=
  [("cedric", some ⟨some (.text "2026-08-01T00:00:00"), some false, none⟩), ("dora", none),
    ("bob", some ⟨some (.number 1700000000), none, some false⟩)]

deriving instance DecidableEq for Leaf

theorem powering_down_leaf
    : ∃ set doc snap,
        evaluate asciiPython fourBalances threeRecords 1780000000000000 = .ok set
        ∧ unmarshal set = some doc ∧ load doc = .ok snap
        ∧ (snap.entries.map Entry.leaf).filter (fun leaf => leaf.account = "hive:cedric")
          = [⟨"hive:cedric", 769231000000, 9230769000000, false⟩] := by
  have run : ((evaluate asciiPython fourBalances threeRecords 1780000000000000).toOption.bind
      fun set => (unmarshal set).bind fun doc => (load doc).toOption).isSome = true := by
    decide +kernel
  have digits : ∀ row ∈ fourBalances, ∀ name ∈ amountFields,
      (decimal asciiPython (amountText (row.2.field name))).all
        (·.coefficient < 10 ^ precision) = true := by
    decide +kernel
  have short : ∀ row ∈ fourBalances, ShortAmounts asciiPython row.2 :=
    fun row there name field d number => DecimalNumber.short_of_lt <| by
      have small := digits row there name field
      rw [number] at small
      exact of_decide_eq_true small
  cases evaluated : evaluate asciiPython fourBalances threeRecords 1780000000000000 with
  | error e =>
      rw [evaluated] at run
      cases run
  | ok set =>
  rw [evaluated] at run
  change ((unmarshal set).bind fun doc => (load doc).toOption).isSome = true at run
  cases decoded : unmarshal set with
  | none =>
      rw [decoded] at run
      cases run
  | some doc =>
  rw [decoded] at run
  change (load doc).toOption.isSome = true at run
  cases loaded : load doc with
  | error e =>
      rw [loaded] at run
      cases run
  | ok snap =>
  have leaf := (holdings_to_leaves (by decide) short evaluated decoded loaded).1
    ("cedric", poweringDown) List.mem_cons_self
  have due : leafAt asciiPython threeRecords 1780000000000000 ("cedric", poweringDown)
      = ⟨"hive:cedric", 769231000000, 9230769000000, false⟩ := by
    decide +kernel
  have holds : positionOf asciiPython ("cedric", poweringDown) ≠ 0 := by decide +kernel
  rw [if_neg holds, due] at leaf
  exact ⟨set, doc, snap, rfl, decoded, loaded, leaf⟩

end LasseCash.Node
