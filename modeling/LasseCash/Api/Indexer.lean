import Mathlib.Data.List.Basic
import Mathlib.Logic.Function.Basic

/-! The transaction index of the site, `api/src/indexer.ts`: a store of the transaction log and the
walk that brings it up to date, newest transaction first and one page at a time.
-/

namespace LasseCash.Api

open Function

/-- One operation of a transaction, with its action and payload. -/
structure TxOp where
  type : String
  data : Option (Option String × Option String)
  deriving DecidableEq

/-- One transaction as the node reports it. -/
structure IndexedTx where
  id : String
  anchrHeight : Nat
  anchrTs : String
  status : String
  requiredAuths : List String
  requiredPostingAuths : List String
  ops : List TxOp
  deriving DecidableEq

/-- The index: transactions by id, whether history has been walked to its start, and the offset
at which that walk goes on; the two meta rows hold a `"1"` and a decimal.
-/
structure IndexStore where
  txs : String → Option IndexedTx
  backfillDone : Bool
  backfillOffset : Option Nat

/-- A store on which nothing has been written. -/
def IndexStore.empty : IndexStore := ⟨fun _ => none, false, none⟩

/-- Whether an id is stored already. -/
def IndexStore.known (store : IndexStore) (id : String) : Bool := (store.txs id).isSome

/-- Inserts or replaces, by id. -/
def IndexStore.upsert (store : IndexStore) (rows : List IndexedTx) : IndexStore :=
  { store with txs := rows.foldl (fun txs t => update txs t.id (some t)) store.txs }

structure SyncResult where
  pages : Nat := 0
  seen : Nat := 0
  added : Nat := 0
  /-- True once the walk has reached the start of history at least once. -/
  complete : Bool := false
  deriving DecidableEq

/-- The node's page cap. -/
def indexPage : Nat := 100

/-- What the endpoint answers: up to a page of the history, newest first, from an offset on. -/
def fetchPage (history : List IndexedTx) (offset : Nat) : List IndexedTx :=
  (history.drop offset).take indexPage

/-- The rows of a page that are not stored yet. -/
def IndexStore.fresh (store : IndexStore) (rows : List IndexedTx) : List IndexedTx :=
  rows.filter fun t => !store.known t.id

/-- The counters after one more page. -/
def SyncResult.count (out : SyncResult) (rows fresh : List IndexedTx) : SyncResult :=
  { out with
    pages := out.pages + 1
    seen := out.seen + rows.length
    added := out.added + fresh.length }

/-- Where a loop over the pages ends: the offset of the page it ended on or would fetch next, and
whether that page was the last of the history.
-/
structure Walked where
  offset : Nat
  reachedEnd : Bool
  store : IndexStore
  out : SyncResult

/-- The head: walks until a page reaches something already stored, with `left` pages left. -/
def headWalk (history : List IndexedTx) : Nat → Nat → IndexStore → SyncResult → Walked
  | 0, offset, store, out => ⟨offset, false, store, out⟩
  | left + 1, offset, store, out =>
      let rows := fetchPage history offset
      let fresh := store.fresh rows
      -- the first page is always rewritten: statuses settle after first sight
      let store := store.upsert (if offset = 0 then rows else fresh)
      let out := out.count rows fresh
      if rows.length < indexPage then ⟨offset, true, store, out⟩
      else if fresh.length < rows.length then ⟨offset, false, store, out⟩
      else headWalk history left (offset + indexPage) store out

/-- The backfill: walks to the start of history, with `left` pages left. -/
def backfill (history : List IndexedTx) : Nat → Nat → IndexStore → SyncResult → Walked
  | 0, resume, store, out => ⟨resume, false, store, out⟩
  | left + 1, resume, store, out =>
      let rows := fetchPage history resume
      let fresh := store.fresh rows
      let store := store.upsert fresh
      let out := out.count rows fresh
      if rows.length < indexPage then ⟨resume, true, store, out⟩
      else backfill history left (resume + indexPage) store out

/-- Brings the store up to date with the chain, in at most `maxPages` pages. -/
def syncIndex (history : List IndexedTx) (store : IndexStore) (maxPages : Nat)
    : IndexStore × SyncResult :=
  let backfilled := store.backfillDone
  let head := headWalk history maxPages 0 store {}
  let (store, reachedEnd, out) :=
    if !backfilled && !head.reachedEnd then
      let resume := max (head.store.backfillOffset.getD 0) head.offset
      let back := backfill history (maxPages - head.out.pages) resume head.store head.out
      ({ back.store with backfillOffset := some back.offset }, back.reachedEnd, back.out)
    else (head.store, head.reachedEnd, head.out)
  let store := if reachedEnd && !backfilled then { store with backfillDone := true } else store
  (store, { out with complete := reachedEnd || backfilled })

end LasseCash.Api
