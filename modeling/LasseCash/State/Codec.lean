import LasseCash.App.Arguments

/-! The rows of the contract as texts, `contract/state/codec.go`: decimal fields joined with pipes.
The typed rows of the other modules are what these texts stand for.
-/

namespace LasseCash.State.Codec

open App Engine

-----------------------------------------------------------------------------------------
-- Fields
-----------------------------------------------------------------------------------------

def sep : Char := '|'

/-- The fields between the separators of a text. -/
def split (raw : String) : List String := (raw.toList.splitOn sep).map String.ofList

/-- Fields with separators between them. -/
def join (fields : List String) : String := .ofList ([sep].intercalate (fields.map String.toList))

/-- The text that ends with its first `count` fields. -/
def firstFields (count : Nat) (raw : String) : String := join ((split raw).take count)

def decU64 (s : String) : UInt64 := ((parseUint (trimSpace s)).map UInt64.ofNat).getD 0

def decI64 (s : String) : Int64 := ((parseInt (trimSpace s)).map Int64.ofInt).getD 0

def decBool (s : String) : Bool := trimSpace s == "1"

def encBool (b : Bool) : String := if b then "1" else "0"

-----------------------------------------------------------------------------------------
-- Records
-----------------------------------------------------------------------------------------

/-- A mint as it is stored, with the words that the source gives its fields. -/
structure Mint where
  owner : String
  principal : Int64
  shares : Int64
  startHeight : UInt64
  days : Int64
  goodAccounting : Bool
  ended : Bool
  accStart : Int64
  expChunk : UInt64
  deriving DecidableEq

def encodeMint (m : Mint) : String :=
  encI64 m.principal.toInt ++ "|" ++ encI64 m.shares.toInt ++ "|" ++ encU64 m.startHeight.toNat
    ++ "|" ++ encI64 m.days.toInt ++ "|" ++ encBool m.goodAccounting ++ "|" ++ encBool m.ended
    ++ "|" ++ encI64 m.accStart.toInt ++ "|" ++ encU64 m.expChunk.toNat

/-- The owner is not stored; the key implies it. -/
def decodeMint (owner raw : String) : Option Mint :=
  let f := split raw
  if f.length < 6 then none
  else
    some {
      owner
      principal := decI64 (f.getD 0 "")
      shares := decI64 (f.getD 1 "")
      startHeight := decU64 (f.getD 2 "")
      days := decI64 (f.getD 3 "")
      goodAccounting := decBool (f.getD 4 "")
      ended := decBool (f.getD 5 "")
      accStart := if f.length > 6 then decI64 (f.getD 6 "") else 0
      expChunk := if f.length > 7 then decU64 (f.getD 7 "") else 0 }

structure PendingAccount where
  balance : Int64
  lastEpoch : UInt64
  deriving DecidableEq

def encodePending (p : PendingAccount) : String :=
  encI64 p.balance.toInt ++ "|" ++ encU64 p.lastEpoch.toNat

def decodePending (raw : String) : PendingAccount :=
  let f := split raw
  if f.length < 2 then ⟨0, 0⟩ else ⟨decI64 (f.getD 0 ""), decU64 (f.getD 1 "")⟩

structure Tranche where
  owner : String
  shares : Int64
  startHeight : UInt64
  weight : Int64
  closed : Bool
  accStart : Int64
  lastTouch : UInt64
  deriving DecidableEq

def encodeTranche (t : Tranche) : String :=
  encI64 t.shares.toInt ++ "|" ++ encU64 t.startHeight.toNat ++ "|" ++ encI64 t.weight.toInt
    ++ "|" ++ encBool t.closed ++ "|" ++ encI64 t.accStart.toInt ++ "|" ++ encU64 t.lastTouch.toNat

/-- A record without a proof of life was last touched when it was made. -/
def decodeTranche (owner raw : String) : Option Tranche :=
  let f := split raw
  if f.length < 4 then none
  else
    let startHeight := decU64 (f.getD 1 "")
    some {
      owner
      shares := decI64 (f.getD 0 "")
      startHeight
      weight := decI64 (f.getD 2 "")
      closed := decBool (f.getD 3 "")
      accStart := if f.length > 4 then decI64 (f.getD 4 "") else 0
      lastTouch := if f.length > 5 then decU64 (f.getD 5 "") else startHeight }

structure PostRec where
  window : UInt8
  createdHeight : UInt64
  rshares : Int64
  paidOut : Bool
  curatorPot : Int64
  curatorRshares : Int64
  mode : PayoutMode
  paidHeight : UInt64
  votes : Int64
  parentAuthor : String
  parentPermlink : String
  promoted : Int64
  deriving DecidableEq

/-- The number of a payout mode. -/
def modeCode : PayoutMode → UInt8
  | .default => 0
  | .powerUp => 1
  | .burn => 2

/-- The payout mode of a number, which is first cut to a byte. -/
def payoutMode (v : UInt64) : PayoutMode :=
  if v.toUInt8 = 1 then .powerUp else if v.toUInt8 = 2 then .burn else .default

def encodePost (p : PostRec) : String :=
  encU64 p.window.toUInt64.toNat ++ "|" ++ encU64 p.createdHeight.toNat ++ "|"
    ++ encI64 p.rshares.toInt ++ "|" ++ encBool p.paidOut ++ "|" ++ encI64 p.curatorPot.toInt ++ "|"
    ++ encI64 p.curatorRshares.toInt ++ "|" ++ encI64 p.votes.toInt ++ "|"
    ++ encU64 (modeCode p.mode).toUInt64.toNat ++ "|" ++ encU64 p.paidHeight.toNat ++ "|"
    ++ p.parentAuthor ++ "|" ++ p.parentPermlink ++ "|" ++ encI64 p.promoted.toInt

def decodePost (raw : String) : Option PostRec :=
  let f := split raw
  if f.length < 6 then none
  else
    some {
      window := (decU64 (f.getD 0 "")).toUInt8
      createdHeight := decU64 (f.getD 1 "")
      rshares := decI64 (f.getD 2 "")
      paidOut := decBool (f.getD 3 "")
      curatorPot := decI64 (f.getD 4 "")
      curatorRshares := decI64 (f.getD 5 "")
      votes := if f.length ≥ 7 then decI64 (f.getD 6 "") else 0
      mode := if f.length ≥ 8 then payoutMode (decU64 (f.getD 7 "")) else .default
      paidHeight := if f.length ≥ 9 then decU64 (f.getD 8 "") else 0
      parentAuthor := if f.length ≥ 11 then f.getD 9 "" else ""
      parentPermlink := if f.length ≥ 11 then f.getD 10 "" else ""
      promoted := if f.length ≥ 12 then decI64 (f.getD 11 "") else 0 }

/-- The meter of an account for one window. -/
structure VotePower where
  power : Int64
  lastHeight : UInt64
  deriving DecidableEq

def newVotePower (height : UInt64) : VotePower := ⟨.ofInt multScale, height⟩

/-- The rows by their keys, as texts. -/
abbrev TextRows := String → Option String

/-- An empty row counts as absent. -/
def get (s : TextRows) (key : String) : Option String := (s key).filter (· ≠ "")

def votePowerKey (account : String) (window : UInt8) : String :=
  "vp_" ++ account ++ "_" ++ encU64 window.toUInt64.toNat

/-- The meter of an account, full where there is none. -/
def votePower (s : TextRows) (account : String) (window : UInt8) : VotePower :=
  match get s (votePowerKey account window) with
  | none => newVotePower 0
  | some raw =>
      let f := split raw
      if f.length < 2 then newVotePower 0 else ⟨decI64 (f.getD 0 ""), decU64 (f.getD 1 "")⟩

def putVotePower (s : TextRows) (account : String) (window : UInt8) (vp : VotePower) : TextRows :=
  Function.update s (votePowerKey account window)
    (some (encI64 vp.power.toInt ++ "|" ++ encU64 vp.lastHeight.toNat))

-----------------------------------------------------------------------------------------
-- Reading what is written
-----------------------------------------------------------------------------------------

theorem join_singleton (field : String) : join [field] = field := by
  rw [join, List.map_singleton, List.intercalate_singleton, String.ofList_toList]

theorem join_cons (field next : String) (rest : List String)
    : join (field :: next :: rest) = field ++ ("|" ++ join (next :: rest)) := by
  refine String.toList_inj.mp ?_
  simp [join, sep, List.intercalate]

/-- (Joins raw fields) says that a row joins some fields, none of which has a separator. -/
structure Joins (raw : String) (fields : List String) : Prop where
  raw_eq : raw = join fields
  some_field : fields ≠ []
  plain : ∀ text ∈ fields, sep ∉ text.toList

variable {raw : String} {fields : List String} {count i : Nat}

/-- The fields of a row are those that it joins. -/
theorem Joins.split_eq (h : Joins raw fields) : split raw = fields := by
  have plain : ∀ text ∈ fields.map String.toList, sep ∉ text := by
    intro text there
    obtain ⟨field, member, rfl⟩ := List.mem_map.mp there
    exact h.plain field member
  rw [split, h.raw_eq, join, String.toList_ofList,
    List.splitOn_intercalate _ plain (by simpa using h.some_field), List.map_map]
  exact List.map_id'' (fun text => String.ofList_toList) fields

/-- Its first fields are a row too. -/
theorem Joins.first (h : Joins raw fields) (positive : 0 < count)
    : Joins (firstFields count raw) (fields.take count) where
  raw_eq := by rw [firstFields, h.split_eq]
  some_field := by
    intro nothing
    rcases List.take_eq_nil_iff.mp nothing with zero | empty
    · exact absurd zero positive.ne'
    · exact h.some_field empty
  plain text there := h.plain text (List.mem_of_mem_take there)

/-- All its fields are the row itself. -/
theorem Joins.first_whole (h : Joins raw fields) (all : fields.length ≤ count)
    : firstFields count raw = raw := by
  rw [firstFields, h.split_eq, List.take_of_length_le all, ← h.raw_eq]

/-- Fewer parts join to the beginning of what all of them join to, by induction on the parts. -/
theorem join_take (separator : List Char) (parts : List (List Char)) (count : Nat)
    : separator.intercalate (parts.take count) <+: separator.intercalate parts := by
  induction parts generalizing count with
  | nil =>
      rewrite [List.take_nil]
      exact List.prefix_rfl
  | cons part rest ih =>
      cases count with
      | zero => exact List.nil_prefix
      | succ count =>
          rw [List.take_succ_cons]
          by_cases last : rest.take count = []
          · rw [last, List.intercalate_singleton]
            cases rest with
            | nil =>
                rewrite [List.intercalate_singleton]
                exact List.prefix_rfl
            | cons next rest =>
                rw [List.intercalate_cons_cons, List.append_assoc]
                exact List.prefix_append _ _
          · have more : rest ≠ [] := by
              rintro rfl
              exact last List.take_nil
            rw [List.intercalate_cons_of_ne_nil last, List.intercalate_cons_of_ne_nil more]
            exact (List.prefix_append_right_inj _).mpr (ih count)

/-- What ends with some fields of a text is the beginning of it. -/
theorem firstFields_prefix (count : Nat) (raw : String)
    : (firstFields count raw).toList <+: raw.toList := by
  have texts : (split raw).map String.toList = raw.toList.splitOn sep := by
    rw [split, List.map_map]
    exact List.map_id'' (fun text => String.toList_ofList) _
  have begins := join_take [sep] (raw.toList.splitOn sep) count
  rw [firstFields, join, String.toList_ofList, List.map_take, texts]
  rwa [List.intercalate_splitOn] at begins

theorem decI64_encI64 (v : Int64) : decI64 (encI64 v.toInt) = v := by
  rw [decI64, trimSpace_encI64, parseInt_encI64 ⟨v.le_toInt, v.toInt_lt⟩]
  exact Int64.ofInt_toInt v

theorem decU64_encU64 (v : UInt64) : decU64 (encU64 v.toNat) = v := by
  have text : encU64 v.toNat = v.toNat.repr := rfl
  have read := parseUint_encU64 v.toNat_lt
  rw [text] at read ⊢
  rw [decU64, trimSpace_repr, read]
  exact UInt64.ofNat_toNat

theorem decBool_encBool (b : Bool) : decBool (encBool b) = b := by
  cases b <;> decide

theorem encBool_plain (b : Bool) : sep ∉ (encBool b).toList := by
  cases b <;> decide

theorem encI64_plain (v : Int) : sep ∉ (encI64 v).toList := bar_not_written v

theorem encU64_plain (v : Nat) : sep ∉ (encU64 v).toList := bar_not_written v

/-- The numbers of payout modes are read back. -/
theorem payoutMode_modeCode (mode : PayoutMode) : payoutMode (modeCode mode).toUInt64 = mode := by
  cases mode <;> decide

/-- A field that is among the first is read there. -/
theorem getD_first (before : i < count) : (fields.take count).getD i "" = fields.getD i "" := by
  rw [List.getD_eq_getElem?_getD, List.getD_eq_getElem?_getD, List.getElem?_take_of_lt before]

/-- A field is read from a row that is long enough for it, and has its default in others. -/
theorem field_since {α : Type} (fields : List String) (count : Nat) (read : String → α)
    (default : α) {bound : Nat} (there : bound ≤ fields.length) (within : i < bound)
    : (if (fields.take count).length ≥ bound then read ((fields.take count).getD i "") else default)
      = if bound ≤ count then read (fields.getD i "") else default := by
  rw [List.length_take]
  by_cases long : bound ≤ count
  · rw [if_pos (le_min long there), if_pos long, getD_first (within.trans_le long)]
  · rw [if_neg fun more => long (le_min_iff.mp more).1, if_neg long]

/-- What a decoder sees of the first fields of a row, when they are as many as it asks for. -/
theorem Joins.first_read (h : Joins raw fields) {least : Nat} (positive : 0 < least)
    (there : least ≤ fields.length) (long : least ≤ count)
    : split (firstFields count raw) = fields.take count ∧ ¬(fields.take count).length < least
      ∧ ∀ i < least, (fields.take count).getD i "" = fields.getD i "" := by
  refine ⟨(h.first (positive.trans_le long)).split_eq, ?_, fun i before => ?_⟩
  · rw [List.length_take]
    exact not_lt.mpr (le_min long there)
  · exact getD_first (before.trans_le long)

-----------------------------------------------------------------------------------------
-- Round trips
-----------------------------------------------------------------------------------------

theorem encodeMint_joins (m : Mint)
    : Joins (encodeMint m) [encI64 m.principal.toInt, encI64 m.shares.toInt,
      encU64 m.startHeight.toNat, encI64 m.days.toInt, encBool m.goodAccounting, encBool m.ended,
      encI64 m.accStart.toInt, encU64 m.expChunk.toNat] where
  raw_eq := by
    delta encodeMint
    simp only [join_cons, join_singleton, String.append_assoc]
  some_field := List.cons_ne_nil _ _
  plain := by
    simp only [List.forall_mem_cons]
    exact ⟨encI64_plain _, encI64_plain _, encU64_plain _, encI64_plain _, encBool_plain _,
      encBool_plain _, encI64_plain _, encU64_plain _, fun _ => nofun⟩

/-- A mint is read from its row, and from one that is older than its last fields. -/
theorem decodeMint_first (m : Mint) (owner : String) (long : 6 ≤ count)
    : decodeMint owner (firstFields count (encodeMint m))
      = some { m with
          owner
          accStart := if 7 ≤ count then m.accStart else 0
          expChunk := if 8 ≤ count then m.expChunk else 0 } := by
  obtain ⟨fields, enough, early⟩ := (encodeMint_joins m).first_read (by decide : 0 < 6)
    (by simp) long
  unfold decodeMint
  rw [fields]
  generalize written : [encI64 m.principal.toInt, encI64 m.shares.toInt,
    encU64 m.startHeight.toNat, encI64 m.days.toInt, encBool m.goodAccounting, encBool m.ended,
    encI64 m.accStart.toInt, encU64 m.expChunk.toNat] = l at enough early
  have size : l.length = 8 := written ▸ rfl
  have accStart : (if (l.take count).length > 6 then decI64 ((l.take count).getD 6 "") else 0)
      = if 7 ≤ count then decI64 (l.getD 6 "") else 0 :=
    field_since l count decI64 0 (by omega) (by decide)
  have expChunk : (if (l.take count).length > 7 then decU64 ((l.take count).getD 7 "") else 0)
      = if 8 ≤ count then decU64 (l.getD 7 "") else 0 :=
    field_since l count decU64 0 (by omega) (by decide)
  dsimp only
  rw [if_neg enough, accStart, expChunk, early 0 (by decide), early 1 (by decide),
    early 2 (by decide), early 3 (by decide), early 4 (by decide), early 5 (by decide), ← written]
  simp only [List.getD_cons_zero, List.getD_cons_succ, decI64_encI64, decU64_encU64,
    decBool_encBool]

theorem encodeTranche_joins (t : Tranche)
    : Joins (encodeTranche t) [encI64 t.shares.toInt, encU64 t.startHeight.toNat,
      encI64 t.weight.toInt, encBool t.closed, encI64 t.accStart.toInt,
      encU64 t.lastTouch.toNat] where
  raw_eq := by
    delta encodeTranche
    simp only [join_cons, join_singleton, String.append_assoc]
  some_field := List.cons_ne_nil _ _
  plain := by
    simp only [List.forall_mem_cons]
    exact ⟨encI64_plain _, encU64_plain _, encI64_plain _, encBool_plain _, encI64_plain _,
      encU64_plain _, fun _ => nofun⟩

/-- A tranche is read from its row, and from one that is older than its last fields. -/
theorem decodeTranche_first (t : Tranche) (owner : String) (long : 4 ≤ count)
    : decodeTranche owner (firstFields count (encodeTranche t))
      = some { t with
          owner
          accStart := if 5 ≤ count then t.accStart else 0
          lastTouch := if 6 ≤ count then t.lastTouch else t.startHeight } := by
  obtain ⟨fields, enough, early⟩ := (encodeTranche_joins t).first_read (by decide : 0 < 4)
    (by simp) long
  unfold decodeTranche
  rw [fields]
  generalize written : [encI64 t.shares.toInt, encU64 t.startHeight.toNat,
    encI64 t.weight.toInt, encBool t.closed, encI64 t.accStart.toInt,
    encU64 t.lastTouch.toNat] = l at enough early
  have size : l.length = 6 := written ▸ rfl
  have accStart : (if (l.take count).length > 4 then decI64 ((l.take count).getD 4 "") else 0)
      = if 5 ≤ count then decI64 (l.getD 4 "") else 0 :=
    field_since l count decI64 0 (by omega) (by decide)
  have lastTouch (start : UInt64)
      : (if (l.take count).length > 5 then decU64 ((l.take count).getD 5 "") else start)
        = if 6 ≤ count then decU64 (l.getD 5 "") else start :=
    field_since l count decU64 start (by omega) (by decide)
  dsimp only
  rw [if_neg enough, accStart, lastTouch, early 0 (by decide), early 1 (by decide),
    early 2 (by decide), early 3 (by decide), ← written]
  simp only [List.getD_cons_zero, List.getD_cons_succ, decI64_encI64, decU64_encU64,
    decBool_encBool]

theorem encodePost_joins (p : PostRec) (author : sep ∉ p.parentAuthor.toList)
    (permlink : sep ∉ p.parentPermlink.toList)
    : Joins (encodePost p) [encU64 p.window.toUInt64.toNat, encU64 p.createdHeight.toNat,
      encI64 p.rshares.toInt, encBool p.paidOut, encI64 p.curatorPot.toInt,
      encI64 p.curatorRshares.toInt, encI64 p.votes.toInt,
      encU64 (modeCode p.mode).toUInt64.toNat, encU64 p.paidHeight.toNat, p.parentAuthor,
      p.parentPermlink, encI64 p.promoted.toInt] where
  raw_eq := by
    delta encodePost
    simp only [join_cons, join_singleton, String.append_assoc]
  some_field := List.cons_ne_nil _ _
  plain := by
    simp only [List.forall_mem_cons]
    exact ⟨encU64_plain _, encU64_plain _, encI64_plain _, encBool_plain _, encI64_plain _,
      encI64_plain _, encI64_plain _, encU64_plain _, encU64_plain _, author, permlink,
      encI64_plain _, fun _ => nofun⟩

/-- A post is read from its row, and from one that is older than its last fields. -/
theorem decodePost_first (p : PostRec) (author : sep ∉ p.parentAuthor.toList)
    (permlink : sep ∉ p.parentPermlink.toList) (long : 6 ≤ count)
    : decodePost (firstFields count (encodePost p))
      = some { p with
          votes := if 7 ≤ count then p.votes else 0
          mode := if 8 ≤ count then p.mode else .default
          paidHeight := if 9 ≤ count then p.paidHeight else 0
          parentAuthor := if 11 ≤ count then p.parentAuthor else ""
          parentPermlink := if 11 ≤ count then p.parentPermlink else ""
          promoted := if 12 ≤ count then p.promoted else 0 } := by
  obtain ⟨fields, enough, early⟩ := (encodePost_joins p author permlink).first_read
    (by decide : 0 < 6) (by simp) long
  unfold decodePost
  rw [fields]
  generalize written : [encU64 p.window.toUInt64.toNat, encU64 p.createdHeight.toNat,
      encI64 p.rshares.toInt, encBool p.paidOut, encI64 p.curatorPot.toInt,
      encI64 p.curatorRshares.toInt, encI64 p.votes.toInt,
      encU64 (modeCode p.mode).toUInt64.toNat, encU64 p.paidHeight.toNat, p.parentAuthor,
      p.parentPermlink, encI64 p.promoted.toInt] = l at enough early
  have size : l.length = 12 := written ▸ rfl
  have name (i : Nat) (within : i < 11)
      : (if (l.take count).length ≥ 11 then (l.take count).getD i "" else "")
        = if 11 ≤ count then l.getD i "" else "" :=
    field_since l count (fun s => s) "" (by omega) within
  dsimp only
  rw [if_neg enough, field_since l count decI64 0 (by omega : 7 ≤ _) (by decide : 6 < 7),
    field_since l count (fun s => payoutMode (decU64 s)) .default (by omega : 8 ≤ _)
      (by decide : 7 < 8),
    field_since l count decU64 0 (by omega : 9 ≤ _) (by decide : 8 < 9),
    name 9 (by decide), name 10 (by decide),
    field_since l count decI64 0 (by omega : 12 ≤ _) (by decide : 11 < 12), early 0 (by decide),
    early 1 (by decide), early 2 (by decide), early 3 (by decide), early 4 (by decide),
    early 5 (by decide), ← written]
  simp only [List.getD_cons_zero, List.getD_cons_succ, decI64_encI64, decU64_encU64,
    decBool_encBool, payoutMode_modeCode, UInt8.toUInt8_toUInt64]

theorem encodePair_joins (v : Int64) (n : UInt64)
    : Joins (encI64 v.toInt ++ "|" ++ encU64 n.toNat) [encI64 v.toInt, encU64 n.toNat] where
  raw_eq := by simp only [join_cons, join_singleton, String.append_assoc]
  some_field := List.cons_ne_nil _ _
  plain := by
    simp only [List.forall_mem_cons]
    exact ⟨encI64_plain _, encU64_plain _, fun _ => nofun⟩

/-- A pending record is read from its row. -/
theorem decodePending_encodePending (p : PendingAccount) : decodePending (encodePending p) = p := by
  rw [decodePending, encodePending, (encodePair_joins p.balance p.lastEpoch).split_eq]
  exact congrArg₂ PendingAccount.mk (decI64_encI64 p.balance) (decU64_encU64 p.lastEpoch)

/-- The meter that was put last is the meter of its account and window. -/
theorem votePower_putVotePower (s : TextRows) (account : String) (window : UInt8) (vp : VotePower)
    : votePower (putVotePower s account window vp) account window = vp := by
  have joins := encodePair_joins vp.power vp.lastHeight
  have there : get (putVotePower s account window vp) (votePowerKey account window)
      = some (encI64 vp.power.toInt ++ "|" ++ encU64 vp.lastHeight.toNat) := by
    rw [get, putVotePower, Function.update_self]
    refine Option.filter_eq_some_iff.mpr ⟨rfl, decide_eq_true fun empty => ?_⟩
    have single : (split "").length = 1 := by decide
    rw [← empty, joins.split_eq] at single
    exact absurd single (by simp)
  rw [votePower, there]
  dsimp only
  rw [joins.split_eq]
  exact congrArg₂ VotePower.mk (decI64_encI64 vp.power) (decU64_encU64 vp.lastHeight)

/-- Every record is read from its row as it was, with the owner of the row's key; and a row that is
older than the last fields of its record is read with the others, and with their defaults.
-/
theorem records_read_back
    : (∀ (m : Mint) owner, decodeMint owner (encodeMint m) = some { m with owner })
      ∧ (∀ (t : Tranche) owner, decodeTranche owner (encodeTranche t) = some { t with owner })
      ∧ (∀ p : PendingAccount, decodePending (encodePending p) = p)
      ∧ (∀ s account window vp, votePower (putVotePower s account window vp) account window = vp)
      ∧ (∀ p : PostRec, sep ∉ p.parentAuthor.toList → sep ∉ p.parentPermlink.toList
        → decodePost (encodePost p) = some p)
      ∧ (∀ (count : Nat) (raw : String), (firstFields count raw).toList <+: raw.toList)
      ∧ (∀ (m : Mint) owner count, 6 ≤ count
        → decodeMint owner (firstFields count (encodeMint m))
          = some { m with
              owner
              accStart := if 7 ≤ count then m.accStart else 0
              expChunk := if 8 ≤ count then m.expChunk else 0 })
      ∧ (∀ (t : Tranche) owner count, 4 ≤ count
        → decodeTranche owner (firstFields count (encodeTranche t))
          = some { t with
              owner
              accStart := if 5 ≤ count then t.accStart else 0
              lastTouch := if 6 ≤ count then t.lastTouch else t.startHeight })
      ∧ ∀ (p : PostRec) count, sep ∉ p.parentAuthor.toList → sep ∉ p.parentPermlink.toList
        → 6 ≤ count
        → decodePost (firstFields count (encodePost p))
          = some { p with
              votes := if 7 ≤ count then p.votes else 0
              mode := if 8 ≤ count then p.mode else .default
              paidHeight := if 9 ≤ count then p.paidHeight else 0
              parentAuthor := if 11 ≤ count then p.parentAuthor else ""
              parentPermlink := if 11 ≤ count then p.parentPermlink else ""
              promoted := if 12 ≤ count then p.promoted else 0 } := by
  refine ⟨fun m owner => ?_, fun t owner => ?_, decodePending_encodePending,
    votePower_putVotePower, fun p author permlink => ?_, firstFields_prefix,
    fun m owner count long => decodeMint_first m owner long,
    fun t owner count long => decodeTranche_first t owner long,
    fun p count author permlink long => decodePost_first p author permlink long⟩
  · have whole := (encodeMint_joins m).first_whole (show _ ≤ 8 from le_rfl)
    simpa [whole] using decodeMint_first m owner (by decide : 6 ≤ 8)
  · have whole := (encodeTranche_joins t).first_whole (show _ ≤ 6 from le_rfl)
    simpa [whole] using decodeTranche_first t owner (by decide : 4 ≤ 6)
  · have whole := (encodePost_joins p author permlink).first_whole (show _ ≤ 12 from le_rfl)
    simpa [whole] using decodePost_first p author permlink (by decide : 6 ≤ 12)

/-- A comment, its row, and the row that its first nine fields make. -/
theorem records_read_back_comment
    : let p : PostRec := ⟨7, 1000, -5, true, 300, 2, .burn, 4000, 9, "hive:bob", "why-not", 70⟩
      decodePost (encodePost p) = some p
        ∧ decodePost (firstFields 9 (encodePost p))
          = some { p with parentAuthor := "", parentPermlink := "", promoted := 0 } := by
  have plain : sep ∉ "hive:bob".toList ∧ sep ∉ "why-not".toList := by decide
  exact ⟨records_read_back.2.2.2.2.1 _ plain.1 plain.2,
    records_read_back.2.2.2.2.2.2.2.2 _ 9 plain.1 plain.2 (by decide)⟩

end LasseCash.State.Codec
