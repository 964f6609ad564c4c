import Mathlib.Algebra.BigOperators.Group.List.Basic
import Mathlib.Order.Basic
import Mathlib.Order.Lattice

/-! Accounts that gather credits and turn all they hold into a lot: at most once in a period, and
never in the period of their first sighting.
-/

namespace PeriodicLots

/-- An account: what it holds, and the period of its first sighting or of its last lot. -/
structure Account (P M : Type) where
  balance : M
  anchor : Option P

/-- What one turn brings an account: what is credited, and the lots that are made. -/
structure Turn (P M : Type) where
  period : P
  credit : M
  lots : List M

/-- The periods in which a run of turns makes lots, one for each lot. -/
def lotPeriods {P M : Type} (turns : List (Turn P M)) : List P :=
  turns.flatMap fun t => t.lots.map fun _ => t.period

variable {P M : Type} [LinearOrder P] [AddCommMonoid M]

-----------------------------------------------------------------------------------------
-- Turns
-----------------------------------------------------------------------------------------

/-- (Takes a t a') says that the turn `t` takes the account `a` to `a'`. -/
inductive Takes (a : Account P M) : Turn P M → Account P M → Prop
  | holds (period : P) (credit : M) (anchor : Option P)
      (kept : anchor = a.anchor ∨ anchor = some period)
      : Takes a ⟨period, credit, []⟩ ⟨a.balance + credit, anchor⟩
  | converts (period last : P) (credit : M) (anchored : a.anchor = some last)
      (due : last < period)
      : Takes a ⟨period, credit, [a.balance + credit]⟩ ⟨0, some period⟩

variable {a a' : Account P M} {t : Turn P M}

/-- Credits are held or converted. -/
theorem Takes.balanced (takes : Takes a t a')
    : t.lots.sum + a'.balance = a.balance + t.credit := by
  cases takes with
  | holds period credit anchor kept => exact zero_add _
  | converts period last credit anchored due =>
      rw [List.sum_singleton]
      exact add_zero _

/-- An account that was never sighted makes no lot. -/
theorem Takes.unsighted (takes : Takes a t a') (unsighted : a.anchor = none) : t.lots = [] := by
  cases takes with
  | holds period credit anchor kept => rfl
  | converts period last credit anchored due => exact absurd (unsighted.symm.trans anchored) nofun

/-- Once it is sighted, an account is anchored at some period that has come. -/
theorem Takes.anchored (takes : Takes a t a') {last : P} (anchored : a.anchor = some last)
    (come : last ≤ t.period)
    : ∃ next, a'.anchor = some next ∧ last ≤ next ∧ next ≤ t.period
      ∧ (t.lots = [] ∨ (∃ lot, t.lots = [lot]) ∧ last < t.period ∧ next = t.period) := by
  cases takes with
  | holds period credit anchor kept =>
      rcases kept with rfl | rfl
      · exact ⟨last, anchored, le_refl last, come, .inl rfl⟩
      · exact ⟨period, rfl, come, le_refl period, .inl rfl⟩
  | converts period before credit anchored' due =>
      obtain rfl := Option.some.inj (anchored.symm.trans anchored')
      exact ⟨period, rfl, come, le_refl period, .inr ⟨⟨_, rfl⟩, due, rfl⟩⟩

/-- The first turn that sights an account anchors it at its own period. -/
theorem Takes.sights (takes : Takes a t a') (unsighted : a.anchor = none)
    : a'.anchor = none ∨ a'.anchor = some t.period := by
  cases takes with
  | holds period credit anchor kept => exact kept.imp_left fun same => same.trans unsighted
  | converts period last credit anchored due => exact .inr rfl

-----------------------------------------------------------------------------------------
-- Runs
-----------------------------------------------------------------------------------------

/-- (Path a turns a') says that the turns take the account `a` to `a'`, one after another. -/
inductive Path : Account P M → List (Turn P M) → Account P M → Prop
  | done (a : Account P M) : Path a [] a
  | turn {a a₁ a' : Account P M} {t : Turn P M} {rest : List (Turn P M)}
      (takes : Takes a t a₁) (path : Path a₁ rest a') : Path a (t :: rest) a'

variable {turns : List (Turn P M)}

/-- Everything credited is in the lots or held, by induction on the turns. -/
theorem Path.balanced (path : Path a turns a')
    : (turns.flatMap (·.lots)).sum + a'.balance = a.balance + (turns.map (·.credit)).sum := by
  induction path with
  | done a => exact (zero_add _).trans (add_zero _).symm
  | @turn a a₁ a' t rest takes path ih =>
      rw [List.flatMap_cons, List.sum_append, add_assoc, ih, ← add_assoc, takes.balanced,
        List.map_cons, List.sum_cons, add_assoc]

/-- From an anchored account on, the periods of the lots go up, each beyond the anchor; by induction
on the turns, the anchor being the period of the last lot or later.
-/
theorem Path.once_anchored (path : Path a turns a') {last : P} (anchored : a.anchor = some last)
    (ordered : (last :: turns.map (·.period)).Pairwise (· ≤ ·))
    : (last :: lotPeriods turns).Pairwise (· < ·) := by
  induction path generalizing last with
  | done a => exact List.pairwise_singleton _ last
  | @turn a a₁ a' t rest takes path ih =>
      obtain ⟨come, later⟩ := List.pairwise_cons.mp ordered
      obtain ⟨next, anchored', after, before, lots⟩ :=
        takes.anchored anchored (come t.period List.mem_cons_self)
      have ordered' : (next :: rest.map (·.period)).Pairwise (· ≤ ·) := by
        obtain ⟨first, rest'⟩ := List.pairwise_cons.mp later
        exact List.pairwise_cons.mpr ⟨fun p there => before.trans (first p there), rest'⟩
      have tail := ih anchored' ordered'
      obtain ⟨beyond, apart⟩ := List.pairwise_cons.mp tail
      have split : lotPeriods (t :: rest) = t.lots.map (fun _ => t.period) ++ lotPeriods rest :=
        rfl
      rw [split]
      rcases lots with none_made | ⟨⟨lot, one⟩, due, here⟩
      · rw [none_made]
        exact List.pairwise_cons.mpr ⟨fun p there => after.trans_lt (beyond p there), apart⟩
      · rw [one]
        subst here
        refine List.pairwise_cons.mpr ⟨fun p there => ?_, tail⟩
        rcases List.mem_cons.mp there with rfl | there
        · exact due
        · exact due.trans (beyond p there)

/-- So they do from an account that was never sighted, by induction on the turns until it is. -/
theorem Path.once (path : Path a turns a') (unsighted : a.anchor = none)
    (ordered : (turns.map (·.period)).Pairwise (· ≤ ·))
    : (lotPeriods turns).Pairwise (· < ·) := by
  induction path with
  | done a => exact .nil
  | @turn a a₁ a' t rest takes path ih =>
      have split : lotPeriods (t :: rest) = lotPeriods rest := by
        change t.lots.map (fun _ => t.period) ++ lotPeriods rest = lotPeriods rest
        rw [takes.unsighted unsighted]
        rfl
      rw [split]
      rcases takes.sights unsighted with still | sighted
      · exact ih still (List.pairwise_cons.mp ordered).2
      · exact (List.pairwise_cons.mp (path.once_anchored sighted ordered)).2

end PeriodicLots
