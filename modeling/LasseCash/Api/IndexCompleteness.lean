import LasseCash.Api.Indexer
import Mathlib.Data.List.Nodup
import Mathlib.Data.List.TakeWhile

/-! The index holds the whole history once it is reported complete, as long as the head walk of
every call gets past the transactions that arrived since the call before, or the backfill still
owns what lies behind them.
-/

namespace LasseCash.Api

open Function

variable {history before : List IndexedTx} {start store : IndexStore}

-----------------------------------------------------------------------------------------
-- What is stored
-----------------------------------------------------------------------------------------

/-- (store.Holds rows) says that every one of these transactions is stored. -/
def IndexStore.Holds (store : IndexStore) (rows : List IndexedTx) : Prop :=
  ∀ t ∈ rows, store.known t.id = true

/-- Reading after writes, by induction on the rows. -/
theorem IndexStore.known_upsert (store : IndexStore) (rows : List IndexedTx) (id : String)
    : (store.upsert rows).known id = true ↔ store.known id = true ∨ ∃ t ∈ rows, t.id = id := by
  induction rows generalizing store with
  | nil => simp [upsert]
  | cons t rest ih =>
      have one : (store.upsert [t]).known id = true ↔ store.known id = true ∨ t.id = id := by
        by_cases here : id = t.id
        · simp [upsert, known, here]
        · simp [upsert, known, here, Ne.symm here]
      change ((store.upsert [t]).upsert rest).known id = true ↔ _
      rw [ih, one]
      simp only [List.mem_cons, exists_eq_or_imp]
      tauto

/-- A page is stored once its rows, or those of them that were not known, are written. -/
theorem IndexStore.known_page (store : IndexStore) (offset : Nat) (rows : List IndexedTx)
    (id : String)
    : (store.upsert (if offset = 0 then rows else store.fresh rows)).known id = true
      ↔ store.known id = true ∨ ∃ t ∈ rows, t.id = id := by
  rw [known_upsert]
  split
  · rfl
  · constructor
    · rintro (old | ⟨t, fresh, same⟩)
      · exact .inl old
      · exact .inr ⟨t, List.mem_of_mem_filter fresh, same⟩
    · rintro (old | ⟨t, row, rfl⟩)
      · exact .inl old
      · by_cases there : store.known t.id = true
        · exact .inl there
        · exact .inr ⟨t, List.mem_filter.mpr ⟨row, by simpa using there⟩, rfl⟩

theorem take_page (history : List IndexedTx) (offset : Nat)
    : history.take (offset + indexPage) = history.take offset ++ fetchPage history offset :=
  List.take_add

/-- A page with less new rows than rows has one that is known. -/
theorem IndexStore.overlap (store : IndexStore) {rows : List IndexedTx}
    (less : (store.fresh rows).length < rows.length) : ∃ t ∈ rows, store.known t.id = true := by
  obtain ⟨t, row, known⟩ := List.length_filter_lt_length_iff_exists.mp less
  exact ⟨t, row, by simpa using known⟩

/-- Distinct ids on the two sides of an offset. -/
theorem apart (unique : (history.map (·.id)).Nodup) {offset : Nat} {u t : IndexedTx}
    (before : u ∈ history.take offset) (after : t ∈ history.drop offset) : u.id ≠ t.id := by
  rw [← List.take_append_drop offset history, List.map_append, List.nodup_append] at unique
  exact unique.2.2 _ (List.mem_map_of_mem before) _ (List.mem_map_of_mem after)

-----------------------------------------------------------------------------------------
-- The loops
-----------------------------------------------------------------------------------------

/-- (Walks history start r) says what either loop leaves when it began on the store `start`: all
of the history down to its last offset, and nothing but what was there or is history.
-/
structure Walks (history : List IndexedTx) (start : IndexStore) (r : Walked) : Prop where
  kept : ∀ id, start.known id = true → r.store.known id = true
  only : ∀ id, r.store.known id = true → start.known id = true ∨ ∃ t ∈ history, t.id = id
  done : r.store.backfillDone = start.backfillDone
  resume : r.store.backfillOffset = start.backfillOffset
  reached : r.reachedEnd = true → r.store.Holds history
  held : r.store.Holds (history.take r.offset)

/-- (Front history start offset store) says that a loop which has come to `offset` has stored all
before it, and nothing else.
-/
structure Front (history : List IndexedTx) (start : IndexStore) (offset : Nat)
    (store : IndexStore) : Prop where
  kept : ∀ id, start.known id = true → store.known id = true
  only : ∀ id, store.known id = true
    → start.known id = true ∨ ∃ t ∈ history.take offset, t.id = id
  done : store.backfillDone = start.backfillDone
  resume : store.backfillOffset = start.backfillOffset
  held : store.Holds (history.take offset)

variable {offset : Nat}

/-- One more page. -/
theorem Front.page (h : Front history start offset store) {rows : List IndexedTx}
    (written : ∀ id, (store.upsert rows).known id = true
      ↔ store.known id = true ∨ ∃ t ∈ fetchPage history offset, t.id = id)
    : Front history start (offset + indexPage) (store.upsert rows) where
  kept id there := (written id).mpr (.inl (h.kept id there))
  only id there := by
    simp only [take_page, List.mem_append]
    rcases (written id).mp there with old | ⟨t, row, same⟩
    · exact (h.only id old).imp_right fun ⟨t, seen, same⟩ => ⟨t, .inl seen, same⟩
    · exact .inr ⟨t, .inr row, same⟩
  done := h.done
  resume := h.resume
  held t there := by
    rw [take_page] at there
    refine (written t.id).mpr ?_
    rcases List.mem_append.mp there with old | row
    · exact .inl (h.held t old)
    · exact .inr ⟨t, row, rfl⟩

/-- A loop that stops before a page has walked to there. -/
theorem Front.walks (h : Front history start offset store) (out : SyncResult)
    : Walks history start ⟨offset, false, store, out⟩ where
  kept := h.kept
  only id there := (h.only id there).imp_right fun ⟨t, seen, same⟩ =>
    ⟨t, List.mem_of_mem_take seen, same⟩
  done := h.done
  resume := h.resume
  reached := nofun
  held := h.held

/-- A loop that stops on a page it has stored has walked past it. -/
theorem Front.walks_page (h : Front history start (offset + indexPage) store) (reachedEnd : Bool)
    (last : reachedEnd = true → (fetchPage history offset).length < indexPage) (out : SyncResult)
    : Walks history start ⟨offset, reachedEnd, store, out⟩ where
  kept := h.kept
  only id there := (h.only id there).imp_right fun ⟨t, seen, same⟩ =>
    ⟨t, List.mem_of_mem_take seen, same⟩
  done := h.done
  resume := h.resume
  reached ended := by
    have short := last ended
    simp only [fetchPage, List.length_take, List.length_drop] at short
    have whole : history.take (offset + indexPage) = history := List.take_of_length_le (by omega)
    exact whole ▸ h.held
  held t there := by
    have less : offset ≤ offset + indexPage := Nat.le_add_right _ _
    exact h.held t ((List.take_prefix_take_left less).subset there)

/-- The backfill walks on from where it begins, by induction on the pages left. -/
theorem backfill_walks (left : Nat) (h : Front history start offset store) (out : SyncResult)
    : Walks history start (backfill history left offset store out) := by
  induction left generalizing offset store out with
  | zero => exact h.walks out
  | succ left ih =>
      have next : Front history start (offset + indexPage)
          (store.upsert (store.fresh (fetchPage history offset))) := h.page fun id => by
        have one := store.known_page (offset + 1) (fetchPage history offset) id
        simpa only [Nat.succ_ne_zero, if_false] using one
      simp only [backfill]
      split
      case isTrue short => exact next.walks_page true (fun _ => short) _
      case isFalse => exact ih next _

/-- The head walk has come to the end, used all its pages, or stopped on a page where a
transaction had been stored before the call: ids are distinct, so what the walk itself has written
lies before that page.
-/
theorem headWalk_walks (unique : (history.map (·.id)).Nodup) (left : Nat)
    (h : Front history start offset store) (out : SyncResult)
    : let r := headWalk history left offset store out
      Walks history start r
        ∧ (r.reachedEnd = true ∨ r.offset = offset + indexPage * left
          ∨ r.store.Holds (history.take (r.offset + indexPage))
            ∧ ∃ t ∈ fetchPage history r.offset, start.known t.id = true) := by
  induction left generalizing offset store out with
  | zero => exact ⟨h.walks out, .inr (.inl (by simp [headWalk]))⟩
  | succ left ih =>
      have next := h.page (store.known_page offset (fetchPage history offset))
      simp only [headWalk]
      split
      case isTrue short => exact ⟨next.walks_page true (fun _ => short) _, .inl rfl⟩
      split
      case isTrue overlap =>
        refine ⟨next.walks_page false nofun _, .inr (.inr ⟨next.held, ?_⟩)⟩
        obtain ⟨t, row, known⟩ := store.overlap overlap
        refine ⟨t, row, (h.only t.id known).resolve_right ?_⟩
        rintro ⟨u, seen, same⟩
        exact apart unique seen (List.mem_of_mem_take row) same
      case isFalse =>
        obtain ⟨walks, stopped⟩ := ih next _
        refine ⟨walks, stopped.imp_right (.imp_left fun far => ?_)⟩
        rw [far, Nat.mul_succ]
        omega

-----------------------------------------------------------------------------------------
-- One call
-----------------------------------------------------------------------------------------

/-- (Extends before history) says that the history has grown, at its newest end, from what it was.
A transaction keeps its id; its status may have settled.
-/
structure Extends (before history : List IndexedTx) : Prop where
  unique : (history.map (·.id)).Nodup
  older : before.map (·.id) <:+ history.map (·.id)

/-- The number of transactions that have arrived. -/
def arrived (before history : List IndexedTx) : Nat := history.length - before.length

/-- (KeepsUp before history store maxPages) says that the head walk reaches past what has arrived,
or that history has not been walked to its start and the backfill is not further back than the
head walk reaches.
-/
def KeepsUp (before history : List IndexedTx) (store : IndexStore) (maxPages : Nat) : Prop :=
  arrived before history ≤ indexPage * maxPages
    ∨ store.backfillDone = false ∧ store.backfillOffset.getD 0 ≤ indexPage * maxPages

/-- How far back from the newest transaction the index owns what it has seen. -/
def IndexStore.owned (store : IndexStore) (history : List IndexedTx) : List IndexedTx :=
  if store.backfillDone then history else history.take (store.backfillOffset.getD 0)

/-- (Sound history store) is the invariant between calls: the index holds all it owns, and nothing
that is not history.
-/
structure Sound (history : List IndexedTx) (store : IndexStore) : Prop where
  only : ∀ id, store.known id = true → ∃ t ∈ history, t.id = id
  held : store.Holds (store.owned history)

/-- What was there lies behind what has arrived. -/
theorem Extends.behind (grown : Extends before history)
    : (history.drop (arrived before history)).map (·.id) = before.map (·.id)
      ∧ before.length ≤ history.length := by
  have shorter := grown.older.length_le
  simp only [List.length_map] at shorter
  refine ⟨?_, shorter⟩
  rw [List.map_drop]
  simpa [arrived] using (List.suffix_iff_eq_drop.mp grown.older).symm

/-- What has arrived was not known before. -/
theorem Extends.old (grown : Extends before history) (sound : Sound before store) {offset : Nat}
    {t : IndexedTx} (row : t ∈ fetchPage history offset) (known : store.known t.id = true)
    : arrived before history ≤ offset + indexPage := by
  by_contra far
  have new : t ∈ history.take (arrived before history) := by
    have seen : t ∈ history.take (offset + indexPage) :=
      take_page history offset ▸ List.mem_append_right _ row
    exact (List.take_prefix_take_left (Nat.le_of_not_le far)).subset seen
  obtain ⟨u, there, same⟩ := sound.only t.id known
  have behind : u.id ∈ (history.drop (arrived before history)).map (·.id) :=
    grown.behind.1 ▸ List.mem_map_of_mem there
  obtain ⟨v, old, known⟩ := List.mem_map.mp behind
  exact apart grown.unique new old (same.symm.trans known.symm)

/-- What was held further back is held still, behind what the walk has stored. -/
theorem Extends.holds (grown : Extends before history) {x y : Nat}
    (front : store.Holds (history.take x)) (back : store.Holds (before.take y))
    (met : arrived before history ≤ x)
    : store.Holds (history.take (arrived before history + y)) := by
  intro t there
  rw [List.take_add] at there
  rcases List.mem_append.mp there with new | old
  · exact front t ((List.take_prefix_take_left met).subset new)
  · have same : t.id ∈ (before.take y).map (·.id) := by
      rw [List.map_take, ← grown.behind.1, ← List.map_take]
      exact List.mem_map_of_mem old
    obtain ⟨u, held, same⟩ := List.mem_map.mp same
    exact same ▸ back u held

/-- A known id stays an id of the history. -/
theorem Extends.only (grown : Extends before history) {id : String}
    (there : ∃ t ∈ before, t.id = id) : ∃ t ∈ history, t.id = id := by
  obtain ⟨t, old, same⟩ := there
  have older := grown.older.subset (List.mem_map_of_mem old)
  rw [same] at older
  simpa using older

/-- What the head walk leaves when it keeps up: the end of history, the part the backfill goes on
from, or everything that has arrived.
-/
theorem KeepsUp.head {maxPages : Nat} (enough : KeepsUp before history store maxPages)
    (grown : Extends before history) (sound : Sound before store)
    : let r := headWalk history maxPages 0 store {}
      r.reachedEnd = true
        ∨ store.backfillDone = false ∧ store.backfillOffset.getD 0 ≤ r.offset
        ∨ ∃ x, arrived before history ≤ x ∧ r.store.Holds (history.take x) := by
  have front : Front history store 0 store :=
    ⟨fun _ => id, fun _ => .inl, rfl, rfl, nofun⟩
  obtain ⟨walks, stopped⟩ := headWalk_walks grown.unique maxPages front {}
  rcases stopped with ended | far | ⟨held, t, row, known⟩
  · exact .inl ended
  · rw [Nat.zero_add] at far
    rcases enough with few | ⟨undone, near⟩
    · exact .inr (.inr ⟨_, far ▸ few, walks.held⟩)
    · exact .inr (.inl ⟨undone, far ▸ near⟩)
  · exact .inr (.inr ⟨_, grown.old sound row known, held⟩)

/-- The head walk of an index which has been complete. -/
theorem Sound.whole {maxPages : Nat} (sound : Sound before store)
    (grown : Extends before history) (enough : KeepsUp before history store maxPages)
    (done : store.backfillDone = true)
    : (headWalk history maxPages 0 store {}).store.Holds history := by
  have front : Front history store 0 store := ⟨fun _ => id, fun _ => .inl, rfl, rfl, nofun⟩
  have walks := (headWalk_walks grown.unique maxPages front {}).1
  rcases enough.head grown sound with ended | ⟨undone, _⟩ | ⟨x, met, held⟩
  · exact walks.reached ended
  · simp [done] at undone
  · have back := sound.held
    rw [IndexStore.owned, if_pos done, ← List.take_length (l := before)] at back
    have all := grown.holds held (fun t old => walks.kept t.id (back t old)) met
    have length := grown.behind.2
    rwa [List.take_of_length_le (by simp only [arrived]; omega)] at all

/-- The head walk of an index which has not, up to where the backfill goes on. -/
theorem Sound.front {maxPages : Nat} (sound : Sound before store)
    (grown : Extends before history) (enough : KeepsUp before history store maxPages)
    (undone : store.backfillDone = false)
    (going : (headWalk history maxPages 0 store {}).reachedEnd = false)
    : let r := headWalk history maxPages 0 store {}
      r.store.Holds (history.take (max (r.store.backfillOffset.getD 0) r.offset)) := by
  have front : Front history store 0 store := ⟨fun _ => id, fun _ => .inl, rfl, rfl, nofun⟩
  have walks := (headWalk_walks grown.unique maxPages front {}).1
  intro r
  rw [walks.resume]
  rcases Nat.le_total (store.backfillOffset.getD 0) r.offset with near | beyond
  · rw [Nat.max_eq_right near]
    exact walks.held
  rcases enough.head grown sound with ended | ⟨_, near⟩ | ⟨x, met, held⟩
  · simp [going] at ended
  · rw [Nat.max_eq_right near]
    exact walks.held
  · have back := sound.held
    rw [IndexStore.owned, undone, if_neg Bool.false_ne_true] at back
    have all := grown.holds held (fun t old => walks.kept t.id (back t old)) met
    rw [Nat.max_eq_left beyond]
    exact fun t there =>
      all t ((List.take_prefix_take_left (Nat.le_add_left _ _)).subset there)

/-- A call whose head walk is enough: the index has been complete, or the walk came to the end. -/
theorem syncIndex_head {maxPages : Nat} (r : Walked)
    (head : headWalk history maxPages 0 store {} = r)
    (enough : store.backfillDone = true ∨ r.reachedEnd = true)
    (same : r.store.backfillDone = store.backfillDone)
    : (syncIndex history store maxPages).1 = { r.store with backfillDone := true }
      ∧ (syncIndex history store maxPages).2.complete = true := by
  rcases r with ⟨offset, reachedEnd, ⟨txs, done, resume⟩, out⟩
  cases backfilled : store.backfillDone <;> cases reachedEnd <;>
    simp_all [syncIndex]

/-- A call that goes on to the backfill. -/
theorem syncIndex_back {maxPages : Nat} (r back : Walked)
    (head : headWalk history maxPages 0 store {} = r)
    (undone : store.backfillDone = false) (going : r.reachedEnd = false)
    (further : backfill history (maxPages - r.out.pages)
      (max (r.store.backfillOffset.getD 0) r.offset) r.store r.out = back)
    (same : back.store.backfillDone = false)
    : (syncIndex history store maxPages).1
        = { back.store with backfillOffset := some back.offset, backfillDone := back.reachedEnd }
      ∧ (syncIndex history store maxPages).2.complete = back.reachedEnd := by
  rcases back with ⟨offset, reachedEnd, ⟨txs, done, resume⟩, out⟩
  cases reachedEnd <;> simp_all [syncIndex]

/-- One call keeps the index sound; it reports the index complete exactly when it leaves it done,
and a done index stays so.
-/
theorem Sound.call {maxPages : Nat} (sound : Sound before store)
    (grown : Extends before history) (enough : KeepsUp before history store maxPages)
    : let after := syncIndex history store maxPages
      Sound history after.1 ∧ after.1.backfillDone = after.2.complete
        ∧ (store.backfillDone = true → after.2.complete = true) := by
  have front : Front history store 0 store := ⟨fun _ => id, fun _ => .inl, rfl, rfl, nofun⟩
  have walks := (headWalk_walks grown.unique maxPages front {}).1
  have only (id : String) (known : store.known id = true ∨ ∃ t ∈ history, t.id = id) :=
    known.elim (fun old => grown.only (sound.only id old)) (fun there => there)
  obtain ⟨r, head⟩ : ∃ r, headWalk history maxPages 0 store {} = r := ⟨_, rfl⟩
  intro after
  by_cases early : store.backfillDone = true ∨ r.reachedEnd = true
  · have whole : r.store.Holds history := by
      rcases early with done | ended
      · exact head ▸ sound.whole grown enough done
      · exact (head ▸ walks).reached ended
    obtain ⟨left, complete⟩ := syncIndex_head r head early (head ▸ walks).done
    change after.1 = _ at left
    change after.2.complete = true at complete
    rw [left, complete]
    exact ⟨⟨fun id there => only id ((head ▸ walks).only id there), whole⟩, rfl, fun _ => rfl⟩
  · obtain ⟨undone, going⟩ := not_or.mp early
    rw [Bool.not_eq_true] at undone going
    have further := sound.front grown enough undone (by rw [head]; exact going)
    rw [head] at walks further
    have from_here : Front history r.store _ r.store :=
      ⟨fun _ => id, fun _ => .inl, rfl, rfl, further⟩
    have back := backfill_walks (maxPages - r.out.pages) from_here r.out
    have undone' := back.done.trans (walks.done.trans undone)
    obtain ⟨left, complete⟩ := syncIndex_back r _ head undone going rfl undone'
    change after.1 = _ at left
    change after.2.complete = _ at complete
    rw [left, complete]
    refine ⟨⟨fun id there => ?_, ?_⟩, rfl, fun done => by simp [undone] at done⟩
    · rcases back.only id there with old | row
      · exact only id (walks.only id old)
      · exact row
    · dsimp only [IndexStore.owned]
      split
      case isTrue ended => exact back.reached ended
      case isFalse => exact back.held

-----------------------------------------------------------------------------------------
-- Schedules
-----------------------------------------------------------------------------------------

/-- A schedule of calls on an index that begins empty: before each the history may have grown, and
`meets` is what the calls are required to meet. It keeps whether a call has reported the index
complete.
-/
inductive Schedule (meets : List IndexedTx → List IndexedTx → IndexStore → Nat → Prop)
    : List IndexedTx → IndexStore → Bool → Prop
  | empty : Schedule meets [] .empty false
  | call {before history : List IndexedTx} {store : IndexStore} {reported : Bool}
      (maxPages : Nat) (earlier : Schedule meets before store reported)
      (grown : Extends before history) (met : meets before history store maxPages)
      : Schedule meets history (syncIndex history store maxPages).1
          (reported || (syncIndex history store maxPages).2.complete)

/-- By induction on the calls. -/
theorem Schedule.sound {reported : Bool} (run : Schedule KeepsUp history store reported)
    : Sound history store ∧ (reported = true → store.backfillDone = true) := by
  induction run with
  | empty => exact ⟨⟨nofun, nofun⟩, nofun⟩
  | @call before history store reported maxPages earlier grown met ih =>
      obtain ⟨sound, done, stays⟩ := ih.1.call grown met
      refine ⟨sound, fun complete => done.trans ?_⟩
      rcases Bool.or_eq_true_iff.mp complete with old | new
      · exact stays (ih.2 old)
      · exact new

/-- Once a call has reported the index complete, all of the history that the last call saw is
stored, when every call of the schedule keeps up.
-/
theorem index_complete (run : Schedule KeepsUp history store true) : store.Holds history := by
  obtain ⟨sound, done⟩ := run.sound
  have held := sound.held
  rwa [IndexStore.owned, if_pos (done rfl)] at held

/-- A transaction of which only the id is of interest. -/
def tx (id : Nat) : IndexedTx := ⟨toString id, 0, "", "CONFIRMED", [], [], []⟩

/-- A history of that many transactions, newest first. -/
def txs (n : Nat) : List IndexedTx := (List.range n).reverse.map tx

/-- The index after a call of one page on a history of one transaction, and another call of one
page after more have arrived.
-/
def twoCalls (n : Nat) : IndexStore := (syncIndex (txs n) (syncIndex (txs 1) .empty 1).1 1).1

theorem index_complete_three : (twoCalls 3).Holds (txs 3) :=
  index_complete (.call 1 (.call 1 .empty ⟨by decide +kernel, by decide +kernel⟩
    (.inl (by decide))) ⟨by decide +kernel, by decide +kernel⟩ (.inl (by decide)))

/-- A burst of more than a page between two calls of one page: the second call reports the index
complete and has not stored the oldest of the burst.
-/
theorem index_gap
    : ¬ ∀ history store, Schedule (fun _ _ _ _ => True) history store true → store.Holds history := by
  intro always
  have run : Schedule (fun _ _ _ _ => True) (txs 102) (twoCalls 102) true :=
    .call 1 (.call 1 .empty ⟨by decide +kernel, by decide +kernel⟩ trivial)
      ⟨by decide +kernel, by decide +kernel⟩ trivial
  have gone : (twoCalls 102).known "1" = false := by decide +kernel
  have stored := always _ _ run (tx 1) (List.mem_map_of_mem (by decide +kernel))
  exact Bool.false_ne_true (gone.symm.trans stored)

end LasseCash.Api
