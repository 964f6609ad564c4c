import LasseCash.Engine.MerkleProofs
import LasseCash.Lib.MachineInt
import Mathlib.Algebra.BigOperators.Group.List.Basic
import Mathlib.Algebra.Order.BigOperators.Group.List
import Mathlib.Data.List.Sort
import Mathlib.Data.String.Basic

/-! From the migration set to the snapshot tree: the loader and the builder of
`node/migtree/migtree.go`, and what is known of a snapshot that the loader accepts.
-/

namespace LasseCash.Node

open Engine MachineInt

-----------------------------------------------------------------------------------------
-- The migration set
-----------------------------------------------------------------------------------------

/-- One account row of the migration set. -/
structure SetEntry where
  liquid : Int64
  staked : Int64
  deriving DecidableEq

/-- The migration set, which maps bare names to rows. -/
structure SetDoc where
  migrate : List (String × SetEntry)
  burnInactive : List (String × SetEntry)
  burnProtocol : List (String × SetEntry)

/-- One account's position in the snapshot. -/
structure Entry where
  account : String
  name : String
  liquid : Int64
  staked : Int64
  burned : Bool
  deriving DecidableEq

/-- The parsed migration set, in the order of the leaves. -/
structure Snapshot where
  entries : List Entry
  deriving DecidableEq

/-- Why a migration set is refused. -/
inductive LoadError
  | negativeField (name : String) (liquid staked : Int64)
  | notBareName (name : String)
  | appearsTwice (name : String)
  | noAccounts
  deriving DecidableEq

/-- The grammar of account names: 3 to 16 bytes, lowercase, a letter first, dots and dashes
inside.
-/
def validHiveName (n : String) : Bool :=
  let bytes := bytesOf n
  let letter (c : UInt8) : Bool := 97 ≤ c && c ≤ 122
  let allowed (c : UInt8) (i : Nat) : Bool :=
    letter c || (48 ≤ c && c ≤ 57) || ((c = 46 || c = 45) && 0 < i && i + 1 < bytes.length)
  3 ≤ bytes.length && bytes.length ≤ 16 && bytes.zipIdx.all (fun b => allowed b.1 b.2)
    && letter (bytes.headD 0)

-----------------------------------------------------------------------------------------
-- Loading
-----------------------------------------------------------------------------------------

/-- Adds one row to the entries so far; a row that holds nothing is left out. -/
def addEntry (burned : Bool) (entries : List Entry) (row : String × SetEntry)
    : Except LoadError (List Entry) :=
  let (name, e) := row
  if e.liquid < 0 ∨ e.staked < 0 then .error (.negativeField name e.liquid e.staked)
  else if !validHiveName name then .error (.notBareName name)
  else if i64 (e.liquid.toInt + e.staked.toInt) ≤ 0 then .ok entries
  else if name ∈ entries.map Entry.name then .error (.appearsTwice name)
  else .ok (entries ++ [⟨"hive:" ++ name, name, e.liquid, e.staked, burned⟩])

/-- Adds the rows of a map in the order of their names. -/
def addRows (burned : Bool) (rows : List (String × SetEntry)) (entries : List Entry)
    : Except LoadError (List Entry) :=
  (rows.insertionSort fun a b => a.1 ≤ b.1).foldlM (addEntry burned) entries

/-- Reads a migration set into the order of the leaves. -/
def load (doc : SetDoc) : Except LoadError Snapshot := do
  let entries ← addRows false doc.migrate []
  let entries ← addRows true doc.burnInactive entries
  let entries ← addRows true doc.burnProtocol entries
  if entries.isEmpty then throw .noAccounts
  return ⟨entries.insertionSort fun a b => a.account ≤ b.account⟩

-----------------------------------------------------------------------------------------
-- Building
-----------------------------------------------------------------------------------------

/-- A snapshot with its root, its proofs and the totals that are committed with the root. -/
structure Tree extends Snapshot where
  root : Hash
  proofs : List (List Hash)
  qualifierTotal : Int
  burnTotal : Int

def Entry.leaf (e : Entry) : Leaf := ⟨e.account, e.liquid.toInt, e.staked.toInt, e.burned⟩

/-- The running totals of the builder, qualifying and burned. -/
def addTotals (totals : Int × Int) (e : Entry) : Int × Int :=
  let amount := i64 (e.liquid.toInt + e.staked.toInt)
  if e.burned then (totals.1, i64 (totals.2 + amount)) else (i64 (totals.1 + amount), totals.2)

/-- Hashes the leaves and assembles the tree. -/
def build (snap : Snapshot) : Tree :=
  let leaves := snap.entries.map fun e => e.leaf.hash
  let totals := snap.entries.foldl addTotals (0, 0)
  { snap with
    root := (buildTree leaves).1
    proofs := (buildTree leaves).2
    qualifierTotal := totals.1
    burnTotal := totals.2 }

/-- The root as it is committed. -/
def Tree.rootHex (t : Tree) : String := hashToHex t.root

-----------------------------------------------------------------------------------------
-- What the loader accepts
-----------------------------------------------------------------------------------------

/-- The whole of a position. -/
def Entry.amount (e : Entry) : Int := e.liquid.toInt + e.staked.toInt

/-- (Entry.Sound e) says that a position is of a well-named account and holds a word's worth. -/
structure Entry.Sound (e : Entry) : Prop where
  account : e.account = "hive:" ++ e.name
  name : validHiveName e.name = true
  liquid : 0 ≤ e.liquid.toInt
  staked : 0 ≤ e.staked.toInt
  positive : 0 < e.amount
  word : e.amount < 2 ^ 63

/-- (SoundEntries entries) says that the positions are sound and of different accounts. -/
structure SoundEntries (entries : List Entry) : Prop where
  sound : ∀ e ∈ entries, e.Sound
  names : (entries.map Entry.name).Nodup

/-- Adding a row keeps the entries sound, by cases on the loader's checks. -/
theorem addEntry_sound {burned : Bool} {entries entries' : List Entry} {row : String × SetEntry}
    (h : SoundEntries entries) (added : addEntry burned entries row = .ok entries')
    : SoundEntries entries' := by
  obtain ⟨name, e⟩ := row
  simp only [addEntry] at added
  split at added
  · cases added
  rename_i nonneg
  split at added
  · cases added
  rename_i named
  split at added
  · cases added
    exact h
  rename_i holds
  split at added
  · cases added
  rename_i new
  cases added
  have liquid := Int64.toInt_lt e.liquid
  have staked := Int64.toInt_lt e.staked
  obtain ⟨hl, hs⟩ : 0 ≤ e.liquid.toInt ∧ 0 ≤ e.staked.toInt := by
    simpa [Int64.lt_iff_toInt_lt] using nonneg
  have fits : 0 < e.liquid.toInt + e.staked.toInt ∧ e.liquid.toInt + e.staked.toInt < 2 ^ 63 := by
    unfold i64 at holds
    omega
  constructor
  · intro entry member
    rcases List.mem_append.mp member with before | last
    · exact h.sound entry before
    · obtain rfl := List.mem_singleton.mp last
      exact ⟨rfl, by simpa using named, hl, hs, fits.1, fits.2⟩
  · rw [List.map_append, List.nodup_append]
    refine ⟨h.names, List.nodup_singleton _, ?_⟩
    rintro a before b last rfl
    obtain rfl := List.mem_singleton.mp last
    exact new before

/-- So does adding all rows, by induction on them. -/
theorem foldlM_sound {burned : Bool} {rows : List (String × SetEntry)}
    {entries entries' : List Entry} (h : SoundEntries entries)
    (added : rows.foldlM (addEntry burned) entries = .ok entries')
    : SoundEntries entries' := by
  induction rows generalizing entries with
  | nil =>
      cases added
      exact h
  | cons row rest ih =>
      rw [List.foldlM_cons] at added
      cases first : addEntry burned entries row with
      | error refusal => simp [first, Bind.bind, Except.bind] at added
      | ok next =>
          rw [first] at added
          exact ih (addEntry_sound h first) added

/-- A snapshot that is loaded has sound positions, and some. -/
theorem load_sound {doc : SetDoc} {snap : Snapshot} (loaded : load doc = .ok snap)
    : SoundEntries snap.entries ∧ snap.entries ≠ [] := by
  unfold load at loaded
  simp only [Bind.bind, Except.bind] at loaded
  cases first : addRows false doc.migrate [] with
  | error refusal => simp [first] at loaded
  | ok qualifying =>
  simp only [first] at loaded
  cases second : addRows true doc.burnInactive qualifying with
  | error refusal => simp [second] at loaded
  | ok inactive =>
  simp only [second] at loaded
  cases third : addRows true doc.burnProtocol inactive with
  | error refusal => simp [third] at loaded
  | ok entries =>
  simp only [third] at loaded
  split at loaded
  · cases loaded
  rename_i some_entry
  obtain rfl := Except.ok.inj loaded
  have nothing : SoundEntries [] := ⟨nofun, List.nodup_nil⟩
  have sound := foldlM_sound (foldlM_sound (foldlM_sound nothing first) second) third
  have order := List.perm_insertionSort (fun a b : Entry => a.account ≤ b.account) entries
  refine ⟨⟨fun e member => sound.sound e (order.mem_iff.mp member), ?_⟩, fun none => ?_⟩
  · exact (order.map Entry.name).nodup_iff.mpr sound.names
  · have empty := List.nil_perm.mp (none ▸ order : List.Perm [] entries)
    simp [empty] at some_entry

-----------------------------------------------------------------------------------------
-- Which sets are accepted
-----------------------------------------------------------------------------------------

/-- A row of a migration set, and whether its map is of burned positions. -/
abbrev FlaggedRow := Bool × String × SetEntry

/-- The rows of a set, in the order in which they are added. -/
def SetDoc.rows (doc : SetDoc) : List FlaggedRow :=
  let flagged (burned : Bool) (rows : List (String × SetEntry)) : List FlaggedRow :=
    (rows.insertionSort fun a b => a.1 ≤ b.1).map fun row => (burned, row)
  flagged false doc.migrate ++ (flagged true doc.burnInactive ++ flagged true doc.burnProtocol)

def addRow (entries : List Entry) (row : FlaggedRow) : Except LoadError (List Entry) :=
  addEntry row.1 entries row.2

/-- Whether a row is worth a leaf. -/
def FlaggedRow.holds (row : FlaggedRow) : Bool :=
  0 < i64 (row.2.2.liquid.toInt + row.2.2.staked.toInt)

def FlaggedRow.entry (row : FlaggedRow) : Entry :=
  ⟨"hive:" ++ row.2.1, row.2.1, row.2.2.liquid, row.2.2.staked, row.1⟩

/-- (FlaggedRow.Plain row) says that a row is of a well-named account that owes nothing. -/
structure FlaggedRow.Plain (row : FlaggedRow) : Prop where
  liquid : 0 ≤ row.2.2.liquid.toInt
  staked : 0 ≤ row.2.2.staked.toInt
  name : validHiveName row.2.1 = true

/-- The loader adds the rows of the three maps one after the other. -/
theorem load_rows (doc : SetDoc)
    : load doc = (do
        let entries ← doc.rows.foldlM addRow []
        if entries.isEmpty then throw .noAccounts
        return ⟨entries.insertionSort fun a b => a.account ≤ b.account⟩) := by
  simp only [load, addRows, SetDoc.rows, List.foldlM_append, List.foldlM_map, addRow, bind_assoc]

/-- A row that is added is plain, and becomes a leaf if it holds something. -/
theorem addRow_added {entries entries' : List Entry} {row : FlaggedRow}
    (added : addRow entries row = .ok entries')
    : row.Plain ∧ entries' = entries ++ ([row].filter FlaggedRow.holds).map FlaggedRow.entry := by
  obtain ⟨burned, name, e⟩ := row
  simp only [addRow, addEntry] at added
  split at added
  · cases added
  rename_i nonneg
  split at added
  · cases added
  rename_i named
  obtain ⟨hl, hs⟩ : 0 ≤ e.liquid.toInt ∧ 0 ≤ e.staked.toInt := by
    simpa [Int64.lt_iff_toInt_lt] using nonneg
  refine ⟨⟨hl, hs, by simpa using named⟩, ?_⟩
  split at added
  · rename_i nothing
    cases added
    have left_out : ¬FlaggedRow.holds (burned, name, e) = true := by
      simpa [FlaggedRow.holds] using nothing
    rw [List.filter_cons_of_neg left_out, List.filter_nil, List.map_nil, List.append_nil]
  · rename_i holds
    have kept : FlaggedRow.holds (burned, name, e) = true := by
      simpa [FlaggedRow.holds] using holds
    split at added
    · cases added
    · cases added
      rw [List.filter_cons_of_pos kept]
      rfl

/-- A plain row is added, if its account has no leaf yet. -/
theorem addRow_plain {entries : List Entry} {row : FlaggedRow} (plain : row.Plain)
    (new : row.holds = true → row.2.1 ∉ entries.map Entry.name)
    : addRow entries row = .ok (entries ++ ([row].filter FlaggedRow.holds).map FlaggedRow.entry) := by
  obtain ⟨burned, name, e⟩ := row
  have nonneg : ¬(e.liquid < 0 ∨ e.staked < 0) := by
    simpa [Int64.lt_iff_toInt_lt] using ⟨plain.liquid, plain.staked⟩
  have named : ¬(!validHiveName name) = true := by simpa using plain.name
  simp only [addRow, addEntry]
  rw [if_neg nonneg, if_neg named]
  by_cases holds : i64 (e.liquid.toInt + e.staked.toInt) ≤ 0
  · have left_out : ¬FlaggedRow.holds (burned, name, e) = true := by
      simpa [FlaggedRow.holds] using holds
    rw [if_pos holds, List.filter_cons_of_neg left_out, List.filter_nil, List.map_nil,
      List.append_nil]
  · have kept : FlaggedRow.holds (burned, name, e) = true := by
      simpa [FlaggedRow.holds] using holds
    have fresh : name ∉ entries.map Entry.name := new kept
    rw [if_neg holds, if_neg fresh, List.filter_cons_of_pos kept]
    rfl

/-- What all rows become, by induction on them. -/
theorem foldlM_added {rows : List FlaggedRow} {entries entries' : List Entry}
    (added : rows.foldlM addRow entries = .ok entries')
    : (∀ row ∈ rows, row.Plain)
      ∧ entries' = entries ++ (rows.filter FlaggedRow.holds).map FlaggedRow.entry := by
  induction rows generalizing entries with
  | nil =>
      cases added
      simp
  | cons row rest ih =>
      rw [List.foldlM_cons] at added
      cases first : addRow entries row with
      | error refusal => simp [first, Bind.bind, Except.bind] at added
      | ok next =>
          rw [first] at added
          obtain ⟨plain, here⟩ := addRow_added first
          obtain ⟨later, all⟩ := ih added
          refine ⟨List.forall_mem_cons.mpr ⟨plain, later⟩, ?_⟩
          rw [all, here, List.append_assoc, ← List.map_append, ← List.filter_append]
          rfl

/-- Plain rows of different accounts are added, by induction on them. -/
theorem foldlM_plain {rows : List FlaggedRow} {entries : List Entry}
    (plain : ∀ row ∈ rows, row.Plain)
    (apart : (entries.map Entry.name ++ rows.map (·.2.1)).Nodup)
    : rows.foldlM addRow entries
      = .ok (entries ++ (rows.filter FlaggedRow.holds).map FlaggedRow.entry) := by
  induction rows generalizing entries with
  | nil => simp [pure, Except.pure]
  | cons row rest ih =>
      obtain ⟨here, later⟩ := List.forall_mem_cons.mp plain
      obtain ⟨before, after, between⟩ := List.nodup_append.mp apart
      have new : row.2.1 ∉ entries.map Entry.name := fun there =>
        between _ there _ List.mem_cons_self rfl
      have first := addRow_plain here fun _ => new
      rw [List.foldlM_cons, first]
      change rest.foldlM addRow _ = _
      rw [ih later ?_, List.append_assoc, ← List.map_append, ← List.filter_append]
      · rfl
      · refine apart.sublist ?_
        rw [List.map_append, List.append_assoc]
        refine List.Sublist.append_left ?_ _
        have names : ([row].filter FlaggedRow.holds).map (Entry.name ∘ FlaggedRow.entry)
            = ([row].filter FlaggedRow.holds).map (·.2.1) := rfl
        rw [List.map_map, names]
        exact (List.filter_sublist.map _).append (List.Sublist.refl _)

/-- What is loaded are the rows that hold something, in the order of the leaves. -/
theorem load_loaded {doc : SetDoc} {snap : Snapshot} (loaded : load doc = .ok snap)
    : (∀ row ∈ doc.rows, row.Plain)
      ∧ snap.entries = ((doc.rows.filter FlaggedRow.holds).map FlaggedRow.entry).insertionSort
          fun a b => a.account ≤ b.account := by
  rw [load_rows] at loaded
  cases added : doc.rows.foldlM addRow [] with
  | error refusal => simp [added, Bind.bind, Except.bind] at loaded
  | ok entries =>
      obtain ⟨plain, rfl⟩ := foldlM_added added
      simp only [added, Bind.bind, Except.bind] at loaded
      split at loaded
      · cases loaded
      · obtain rfl := Except.ok.inj loaded
        exact ⟨plain, rfl⟩

/-- Plain rows of different accounts are loaded, if they hold something. -/
theorem load_plain {doc : SetDoc} (plain : ∀ row ∈ doc.rows, row.Plain)
    (apart : (doc.rows.map (·.2.1)).Nodup) (some_row : ∃ row ∈ doc.rows, row.holds = true)
    : ∃ snap, load doc = .ok snap := by
  have added : doc.rows.foldlM addRow [] = _ :=
    foldlM_plain plain (by simpa using apart)
  rw [load_rows, added]
  simp only [Bind.bind, Except.bind, List.nil_append]
  obtain ⟨row, there, holds⟩ := some_row
  have leaf : row.entry ∈ (doc.rows.filter FlaggedRow.holds).map FlaggedRow.entry :=
    List.mem_map_of_mem (List.mem_filter.mpr ⟨there, holds⟩)
  have not_empty : ¬((doc.rows.filter FlaggedRow.holds).map FlaggedRow.entry).isEmpty = true := by
    rw [List.isEmpty_iff]
    exact List.ne_nil_of_mem leaf
  rw [if_neg not_empty]
  exact ⟨_, rfl⟩

/-- Different names are different accounts. -/
theorem SoundEntries.accounts {entries : List Entry} (h : SoundEntries entries)
    : (entries.map Entry.account).Nodup := by
  have qualified : entries.map Entry.account = (entries.map Entry.name).map ("hive:" ++ ·) := by
    rw [List.map_map]
    exact List.map_congr_left fun e member => (h.sound e member).account
  rw [qualified]
  refine h.names.map fun a b same => ?_
  have text := congrArg String.toList same
  exact String.toList_inj.mp (by simpa using text)

/-- The sum of some positions. -/
def worth (entries : List Entry) : Int := (entries.map Entry.amount).sum

theorem worth_cons (e : Entry) (rest : List Entry) : worth (e :: rest) = e.amount + worth rest := by
  simp [worth]

/-- Sound positions are worth something. -/
theorem worth_nonneg {entries : List Entry} (sound : ∀ e ∈ entries, e.Sound)
    : 0 ≤ worth entries := by
  refine List.sum_nonneg fun amount member => ?_
  obtain ⟨e, there, rfl⟩ := List.mem_map.mp member
  exact (sound e there).positive.le

/-- The qualifying positions and the burned ones. -/
def qualifying (entries : List Entry) : List Entry := entries.filter fun e => !e.burned

def burnedOnes (entries : List Entry) : List Entry := entries.filter Entry.burned

/-- Every position is one or the other, by induction on them. -/
theorem worth_split (entries : List Entry)
    : worth entries = worth (qualifying entries) + worth (burnedOnes entries) := by
  induction entries with
  | nil => rfl
  | cons e rest ih =>
      unfold qualifying burnedOnes at *
      cases burned : e.burned <;> simp [burned, worth_cons, ih] <;> ring

/-- The builder's totals are exact where they fit a word together, by induction on the positions. -/
theorem foldl_addTotals {entries : List Entry} (sound : ∀ e ∈ entries, e.Sound)
    (totals : Int × Int) (nonneg : 0 ≤ totals.1 ∧ 0 ≤ totals.2)
    (fits : totals.1 + totals.2 + worth entries < 2 ^ 63)
    : entries.foldl addTotals totals
      = (totals.1 + worth (qualifying entries), totals.2 + worth (burnedOnes entries)) := by
  induction entries generalizing totals with
  | nil => simp [worth, qualifying, burnedOnes]
  | cons e rest ih =>
      have here := sound e List.mem_cons_self
      have later := fun e member => sound e (List.mem_cons_of_mem _ member)
      have positive := here.positive
      have rest_nonneg := worth_nonneg later
      rw [worth_cons] at fits
      have exact_amount : i64 (e.liquid.toInt + e.staked.toInt) = e.amount :=
        i64_of_nonneg positive.le here.word
      have burn_exact : i64 (totals.2 + e.amount) = totals.2 + e.amount :=
        i64_of_nonneg (by omega) (by omega)
      have keep_exact : i64 (totals.1 + e.amount) = totals.1 + e.amount :=
        i64_of_nonneg (by omega) (by omega)
      have next : addTotals totals e = if e.burned then (totals.1, totals.2 + e.amount)
          else (totals.1 + e.amount, totals.2) := by
        simp only [addTotals, exact_amount, burn_exact, keep_exact]
      rw [List.foldl_cons, next]
      cases burned : e.burned with
      | false =>
          rw [if_neg (by simp), ih later _ (by dsimp only; omega) (by dsimp only; omega)]
          simp [qualifying, burnedOnes, burned, worth_cons, add_assoc]
      | true =>
          rw [if_pos rfl, ih later _ (by dsimp only; omega) (by dsimp only; omega)]
          simp [qualifying, burnedOnes, burned, worth_cons, add_assoc]

/-- The totals that are committed with the root. -/
theorem build_totals {snap : Snapshot} (sound : ∀ e ∈ snap.entries, e.Sound)
    (fits : worth snap.entries < 2 ^ 63)
    : (build snap).qualifierTotal = worth (qualifying snap.entries)
      ∧ (build snap).burnTotal = worth (burnedOnes snap.entries) := by
  have exact_totals := foldl_addTotals sound (0, 0) ⟨le_rfl, le_rfl⟩ (by simpa using fits)
  simp only [build, exact_totals, zero_add]
  exact ⟨trivial, trivial⟩

end LasseCash.Node
