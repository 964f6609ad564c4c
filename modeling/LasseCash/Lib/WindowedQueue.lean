import Mathlib.Order.Nat
import Mathlib.Tactic.Push

/-! A queue that is swept from its head, a bounded window of slots at a time: slots that are ready
are cleared wherever they stand in the window, and the head moves past cleared slots only. A slot
that stays is in the way of everything a window behind it, and of nothing else.
-/

/-- Numbered slots between a head and a tail. -/
structure WindowedQueue (α : Type*) where
  slot : Nat → Option α
  head : Nat
  tail : Nat

namespace WindowedQueue

variable {α : Type*} {ready : α → Prop} {limit : Nat}

/-- (q.Waits ready n) says that slot `n` of the queue holds an entry that is not ready. -/
def Waits (ready : α → Prop) (q : WindowedQueue α) (n : Nat) : Prop :=
  q.head ≤ n ∧ n < q.tail ∧ ∃ a, q.slot n = some a ∧ ¬ready a

/-- (Sweep ready limit q q') says that `q'` is what a sweep over a window of `limit` slots
leaves of `q`.
-/
structure Sweep (ready : α → Prop) (limit : Nat) (q q' : WindowedQueue α) : Prop where
  tail : q'.tail = q.tail
  cleared : ∀ n a, q.head ≤ n → n < q.head + limit → n < q.tail → q.slot n = some a → ready a
    → q'.slot n = none
  kept : ∀ n a, q.slot n = some a → ¬ready a → q'.slot n = some a
  outside : ∀ n, q.head + limit ≤ n → q'.slot n = q.slot n
  empty : ∀ n, q.slot n = none → q'.slot n = none
  head_le : q.head ≤ q'.head
  passed : ∀ n, q.head ≤ n → n < q'.head → q'.slot n = none
  stopped : q'.head < q.tail → q'.slot q'.head ≠ none

/-- Sweeps in a row. -/
def Sweeps (ready : α → Prop) (limit : Nat) : Nat → WindowedQueue α → WindowedQueue α → Prop
  | 0, q, q' => q' = q
  | rounds + 1, q, q' => ∃ mid, Sweep ready limit q mid ∧ Sweeps ready limit rounds mid q'

variable {q q' : WindowedQueue α}

/-- A slot that waits is swept over and not passed. -/
theorem Sweep.waits (h : Sweep ready limit q q') {m : Nat} (waits : q.Waits ready m)
    : q'.Waits ready m := by
  obtain ⟨ahead, within, a, there, unready⟩ := waits
  have same := h.kept m a there unready
  refine ⟨?_, h.tail ▸ within, a, same, unready⟩
  by_contra passed
  rw [h.passed m ahead (not_le.mp passed)] at same
  cases same

/-- What stands a window behind a slot that waits is never swept, by induction on the sweeps. -/
theorem Sweeps.blocked {rounds : Nat} (h : Sweeps ready limit rounds q q') {m n : Nat}
    (waits : q.Waits ready m) (behind : m + limit ≤ n)
    : q'.slot n = q.slot n := by
  induction rounds generalizing q with
  | zero => rw [h]
  | succ rounds ih =>
      obtain ⟨mid, first, rest⟩ := h
      have ahead := waits.1
      rw [ih rest (first.waits waits), first.outside n (by omega)]

/-- An empty slot stays empty, by induction on the sweeps. -/
theorem Sweeps.empty {rounds : Nat} (h : Sweeps ready limit rounds q q') {n : Nat}
    (empty : q.slot n = none)
    : q'.slot n = none := by
  induction rounds generalizing q with
  | zero => rw [h, empty]
  | succ rounds ih =>
      obtain ⟨mid, first, rest⟩ := h
      exact ih rest (first.empty n empty)

/-- A slot that is ready, and has nothing waiting a window or more before it, is cleared: each
sweep clears it, or brings the head nearer. By induction on the sweeps.
-/
theorem Sweeps.reached {rounds n : Nat} {a : α} (h : Sweeps ready limit rounds q q')
    (positive : 0 < limit) (enough : n < q.head + rounds) (ahead : q.head ≤ n)
    (within : n < q.tail) (there : q.slot n = some a) (readied : ready a)
    (near : ∀ m, q.Waits ready m → m < n → n < m + limit)
    : q'.slot n = none := by
  induction rounds generalizing q with
  | zero => omega
  | succ rounds ih =>
      obtain ⟨mid, first, rest⟩ := h
      by_cases swept : n < q.head + limit
      · exact rest.empty (first.cleared n a ahead swept within there readied)
      have same : mid.slot n = some a := (first.outside n (not_lt.mp swept)).trans there
      have unpassed : mid.head ≤ n := by
        by_contra passed
        rw [first.passed n ahead (not_le.mp passed)] at same
        cases same
      have waited {m : Nat} (waits : mid.Waits ready m) : q.Waits ready m := by
        obtain ⟨after, before, b, found, unready⟩ := waits
        refine ⟨first.head_le.trans after, first.tail ▸ before, ?_⟩
        cases there' : q.slot m with
        | none =>
            rw [first.empty m there'] at found
            cases found
        | some c =>
            by_cases readied' : ready c
            · by_cases inside : m < q.head + limit
              · rw [first.cleared m c (first.head_le.trans after) inside (first.tail ▸ before) there'
                  readied'] at found
                cases found
              · rw [first.outside m (not_lt.mp inside), there'] at found
                obtain rfl := Option.some.inj found
                exact absurd readied' unready
            · exact ⟨c, rfl, readied'⟩
      have moved : q.head < mid.head := by
        -- a head that stands still stands at a slot that waits, and `n` is a window behind it
        by_contra still
        have here : mid.head = q.head := le_antisymm (not_lt.mp still) first.head_le
        have occupied := first.stopped (by omega)
        obtain ⟨b, found⟩ := Option.ne_none_iff_exists'.mp occupied
        have unready : ¬ready b := by
          intro readied'
          cases there' : q.slot mid.head with
          | none => exact occupied (first.empty mid.head there')
          | some c =>
              by_cases readied'' : ready c
              · exact occupied (first.cleared mid.head c (by omega) (by omega) (by omega) there'
                  readied'')
              · have kept := first.kept mid.head c there' readied''
                obtain rfl := Option.some.inj (found.symm.trans kept)
                exact readied'' readied'
        have window := near mid.head
          (waited ⟨le_rfl, by rw [first.tail]; omega, b, found, unready⟩) (by omega)
        omega
      exact ih rest (by omega) unpassed (first.tail ▸ within) same
        fun m waits earlier => near m (waited waits) earlier

/-- Enough sweeps clear a slot that is ready, exactly if nothing waits a window or more before
it.
-/
theorem sweeps_clear_iff (positive : 0 < limit) {n : Nat} {a : α} (ahead : q.head ≤ n)
    (within : n < q.tail) (there : q.slot n = some a) (readied : ready a)
    (later : Nat → Set (WindowedQueue α)) (some_later : ∀ rounds, (later rounds).Nonempty)
    (swept : ∀ rounds, ∀ q' ∈ later rounds, Sweeps ready limit rounds q q')
    : (∃ enough, ∀ rounds ≥ enough, ∀ q' ∈ later rounds, q'.slot n = none)
      ↔ ∀ m, q.Waits ready m → m < n → n < m + limit := by
  constructor
  · rintro ⟨enough, clears⟩ m waits before
    by_contra behind
    obtain ⟨q', reached⟩ := some_later enough
    have kept := (swept enough q' reached).blocked waits (not_lt.mp behind)
    rw [clears enough le_rfl q' reached, there] at kept
    cases kept
  · intro near
    exact ⟨q.tail - q.head + 1, fun rounds le q' reached =>
      (swept rounds q' reached).reached positive (by omega) ahead within there readied near⟩

end WindowedQueue
