import Mathlib.Algebra.BigOperators.Group.List.Basic
import Mathlib.Algebra.Ring.Int.Defs
import Mathlib.Logic.Basic

/-! Programs that talk to a stateful service through a fixed set of calls, their runs against
a handler, and three ways to reason about them: bounds on what a service may do, weakest
preconditions in which every call has a precondition, and a simulation that runs two handlers
in lockstep.
-/

/-- A program that returns an `α`, or issues a call and goes on from the reply. -/
inductive Program (Call : Type) (Reply : Call → Type) (α : Type) : Type where
  | done (value : α)
  | call (c : Call) (next : Reply c → Program Call Reply α)

namespace Program

variable {Call : Type} {Reply : Call → Type} {α β σ τ : Type}

/-- Sequencing: `f` goes on where the program is done. -/
def bind (f : α → Program Call Reply β) : Program Call Reply α → Program Call Reply β
  | done value => f value
  | call c next => call c fun reply => (next reply).bind f

instance : Monad (Program Call Reply) where
  pure := done
  bind p f := p.bind f

/-- One call, returning its reply. -/
def issue (c : Call) : Program Call Reply (Reply c) := call c done

/-- How a service with state `σ` serves a call. -/
abbrev Handler (Call : Type) (Reply : Call → Type) (σ : Type) :=
  (c : Call) → σ → σ × Reply c

-----------------------------------------------------------------------------------------
-- Runs
-----------------------------------------------------------------------------------------

/-- The state a program leaves and the value it returns. -/
def run (h : Handler Call Reply σ) : Program Call Reply α → σ → σ × α
  | done value, s => (s, value)
  | call c next, s => (next (h c s).2).run h (h c s).1

section Runs

variable (h : Handler Call Reply σ)

@[simp]
theorem run_pure (value : α) (s : σ)
    : (pure value : Program Call Reply α).run h s = (s, value) :=
  rfl

@[simp]
theorem run_issue (c : Call) (s : σ) : (issue c).run h s = h c s :=
  rfl

/-- A sequence runs the continuation from the state and the value of its first part, by
induction on that part.
-/
@[simp]
theorem run_bind (p : Program Call Reply α) (f : α → Program Call Reply β) (s : σ)
    : (p >>= f).run h s = (f (p.run h s).2).run h (p.run h s).1 := by
  induction p generalizing s with
  | done value => rfl
  | call c next ih => exact ih (h c s).2 (h c s).1

/-- A run of either branch is the branch of the runs. -/
@[simp]
theorem run_ite (c : Prop) [Decidable c] (p q : Program Call Reply α) (s : σ)
    : (if c then p else q).run h s = if c then p.run h s else q.run h s := by
  split <;> rfl

end Runs

-----------------------------------------------------------------------------------------
-- Runs against any service that behaves within bounds
-----------------------------------------------------------------------------------------

/-- What a service may do on a call in a state: reply, and move to another state. -/
abbrev May (Call : Type) (Reply : Call → Type) (σ : Type) :=
  (c : Call) → σ → Reply c → σ → Prop

/-- However the service behaves within `may`, the program ends in `Q`. -/
def Always (may : May Call Reply σ) : Program Call Reply α → (α → σ → Prop) → σ → Prop
  | done value, Q, s => Q value s
  | call c next, Q, s => ∀ reply s', may c s reply s' → (next reply).Always may Q s'

section Always

variable {may : May Call Reply σ}

@[simp]
theorem always_pure {value : α} {Q : α → σ → Prop} {s : σ}
    : (pure value : Program Call Reply α).Always may Q s ↔ Q value s :=
  Iff.rfl

theorem always_issue {c : Call} {Q : Reply c → σ → Prop} {s : σ}
    : (issue c).Always may Q s ↔ ∀ reply s', may c s reply s' → Q reply s' :=
  Iff.rfl

/-- A sequence, by induction on its first part. -/
@[simp]
theorem always_bind {p : Program Call Reply α} {f : α → Program Call Reply β}
    {Q : β → σ → Prop} {s : σ}
    : (p >>= f).Always may Q s
      ↔ p.Always may (fun value s' => (f value).Always may Q s') s := by
  induction p generalizing s with
  | done value => rfl
  | call c next ih =>
      exact forall_congr' fun reply => forall_congr' fun s' => imp_congr_right fun _ => ih reply

/-- A postcondition may be weakened, by induction on the program. -/
theorem always_mono {p : Program Call Reply α} {Q Q' : α → σ → Prop} {s : σ}
    (weaker : ∀ value s, Q value s → Q' value s) (holds : p.Always may Q s)
    : p.Always may Q' s := by
  induction p generalizing s with
  | done value => exact weaker value s holds
  | call c next ih => exact fun reply s' moved => ih reply (holds reply s' moved)

/-- What holds of every value in every state holds at the end, by induction on the program. -/
theorem always_intro {p : Program Call Reply α} {Q : α → σ → Prop} {s : σ}
    (everywhere : ∀ value s', Q value s')
    : p.Always may Q s := by
  induction p generalizing s with
  | done value => exact everywhere value s
  | call c next ih => exact fun reply _ _ => ih reply

/-- A handler whose moves, seen through `view`, stay within `may` runs the program into `Q`;
by induction on the program.
-/
theorem always_run {h : Handler Call Reply τ} {view : τ → σ}
    (within : ∀ c t, may c (view t) (h c t).2 (view (h c t).1))
    {p : Program Call Reply α} {Q : α → σ → Prop} {t : τ} (holds : p.Always may Q (view t))
    : Q (p.run h t).2 (view (p.run h t).1) := by
  induction p generalizing t with
  | done value => exact holds
  | call c next ih => exact ih _ (holds _ _ (within c t))

end Always

-----------------------------------------------------------------------------------------
-- Weakest preconditions
-----------------------------------------------------------------------------------------

/-- From `s` the program issues only calls whose precondition is met, and ends in `Q`, however a
service behaves within `may` on such calls.
-/
def wp (pre : Call → σ → Prop) (may : May Call Reply σ)
    : Program Call Reply α → (α → σ → Prop) → σ → Prop
  | done value, Q, s => Q value s
  | call c next, Q, s =>
      pre c s ∧ ∀ reply s', may c s reply s' → (next reply).wp pre may Q s'

section Wp

variable {pre : Call → σ → Prop} {may : May Call Reply σ}

@[simp]
theorem wp_pure {value : α} {Q : α → σ → Prop} {s : σ}
    : (pure value : Program Call Reply α).wp pre may Q s ↔ Q value s :=
  Iff.rfl

theorem wp_issue {c : Call} {Q : Reply c → σ → Prop} {s : σ}
    : (issue c).wp pre may Q s ↔ pre c s ∧ ∀ reply s', may c s reply s' → Q reply s' :=
  Iff.rfl

/-- The precondition of a sequence, by induction on its first part. -/
@[simp]
theorem wp_bind {p : Program Call Reply α} {f : α → Program Call Reply β}
    {Q : β → σ → Prop} {s : σ}
    : (p >>= f).wp pre may Q s
      ↔ p.wp pre may (fun value s' => (f value).wp pre may Q s') s := by
  induction p generalizing s with
  | done value => rfl
  | call c next ih =>
      exact and_congr_right fun _ =>
        forall_congr' fun reply => forall_congr' fun s' => imp_congr_right fun _ => ih reply

/-- The precondition of a branch. -/
@[simp]
theorem wp_ite {c : Prop} [Decidable c] {p q : Program Call Reply α} {Q : α → σ → Prop} {s : σ}
    : (if c then p else q).wp pre may Q s
      ↔ (c → p.wp pre may Q s) ∧ (¬c → q.wp pre may Q s) := by
  split <;> simp [*]

/-- A postcondition may be weakened, by induction on the program. -/
theorem wp_mono {p : Program Call Reply α} {Q Q' : α → σ → Prop} {s : σ}
    (weaker : ∀ value s, Q value s → Q' value s) (holds : p.wp pre may Q s)
    : p.wp pre may Q' s := by
  induction p generalizing s with
  | done value => exact weaker value s holds
  | call c next ih => exact ⟨holds.1, fun reply s' moved => ih reply (holds.2 reply s' moved)⟩

/-- What any service does in the coarser bounds `may'` may be added to a postcondition, by
induction on the program.
-/
theorem wp_always {may' : May Call Reply τ} {view : σ → τ}
    (within : ∀ c s reply s', may c s reply s' → may' c (view s) reply (view s'))
    {p : Program Call Reply α} {Q : α → σ → Prop} {Q' : α → τ → Prop} {s : σ}
    (holds : p.wp pre may Q s) (always : p.Always may' Q' (view s))
    : p.wp pre may (fun value s' => Q value s' ∧ Q' value (view s')) s := by
  induction p generalizing s with
  | done value => exact ⟨holds, always⟩
  | call c next ih =>
      exact ⟨holds.1, fun reply s' moved =>
        ih reply (holds.2 reply s' moved) (always _ _ (within c s reply s' moved))⟩

/-- Two handlers in lockstep: from related states they answer alike every call whose precondition
is met, and one of them stays, seen through `view`, within `may`. Then a program returns the
same value from both, in related states, and ends in `Q`; by induction on the program.
-/
theorem wp_lockstep {υ : Type} {h : Handler Call Reply τ} {h' : Handler Call Reply υ}
    {view : τ → σ} {Rel : τ → υ → Prop}
    (step : ∀ c t u, Rel t u → pre c (view t)
      → (h c t).2 = (h' c u).2 ∧ Rel (h c t).1 (h' c u).1
        ∧ may c (view t) (h c t).2 (view (h c t).1))
    {p : Program Call Reply α} {Q : α → σ → Prop} {t : τ} {u : υ}
    (holds : p.wp pre may Q (view t)) (related : Rel t u)
    : (p.run h t).2 = (p.run h' u).2 ∧ Rel (p.run h t).1 (p.run h' u).1
      ∧ Q (p.run h t).2 (view (p.run h t).1) := by
  induction p generalizing t u with
  | done value => exact ⟨rfl, related, holds⟩
  | call c next ih =>
      obtain ⟨alike, after, within⟩ := step c t u related holds.1
      simp only [run]
      rw [← alike]
      exact ih _ (holds.2 _ _ within) after

/-- A handler that keeps an invariant and stays, seen through `view`, within `may` on every call
whose precondition is met, runs a program into `Q`; it is in lockstep with itself.
-/
theorem wp_run {h : Handler Call Reply τ} {view : τ → σ} {Inv : τ → Prop}
    (step : ∀ c t, Inv t → pre c (view t)
      → Inv (h c t).1 ∧ may c (view t) (h c t).2 (view (h c t).1))
    {p : Program Call Reply α} {Q : α → σ → Prop} {t : τ}
    (holds : p.wp pre may Q (view t)) (inv : Inv t)
    : Inv (p.run h t).1 ∧ Q (p.run h t).2 (view (p.run h t).1) := by
  have alike (c : Call) (t u : τ) (related : t = u ∧ Inv t) (met : pre c (view t))
      : (h c t).2 = (h c u).2 ∧ ((h c t).1 = (h c u).1 ∧ Inv (h c t).1)
        ∧ may c (view t) (h c t).2 (view (h c t).1) := by
    obtain ⟨rfl, inv⟩ := related
    obtain ⟨kept, within⟩ := step c t inv met
    exact ⟨rfl, ⟨rfl, kept⟩, within⟩
  have both := wp_lockstep alike holds ⟨rfl, inv⟩
  exact ⟨both.2.1.2, both.2.2⟩

/-- The calls that a run issues, each with the state it finds. -/
def issued (h : Handler Call Reply τ) : Program Call Reply α → τ → List (Call × τ)
  | done _, _ => []
  | call c next, t => (c, t) :: (next (h c t).2).issued h (h c t).1

/-- A sequence issues the calls of its first part and then those of its continuation, by induction on
the first part.
-/
theorem issued_bind (h : Handler Call Reply τ) (p : Program Call Reply α)
    (f : α → Program Call Reply β) (t : τ)
    : (p >>= f).issued h t
      = p.issued h t ++ (f (p.run h t).2).issued h (p.run h t).1 := by
  induction p generalizing t with
  | done value => rfl
  | call c next ih => exact congrArg ((c, t) :: ·) (ih (h c t).2 (h c t).1)

/-- A stronger precondition will do as well, by induction on the program. -/
theorem wp_pre {pre' : Call → σ → Prop} (stronger : ∀ c s, pre c s → pre' c s)
    {p : Program Call Reply α} {Q : α → σ → Prop} {s : σ} (holds : p.wp pre may Q s)
    : p.wp pre' may Q s := by
  induction p generalizing s with
  | done value => exact holds
  | call c next ih =>
      exact ⟨stronger c s holds.1, fun reply s' moved => ih reply (holds.2 reply s' moved)⟩

/-- Where every call that is issued gains something and relates the state before it to the one after,
the run gains the sum and relates its ends, by induction on the program. `Good` is what is known
of the calls beside their preconditions.
-/
theorem wp_sum {h : Handler Call Reply τ} {view : τ → σ} {Inv : τ → Prop}
    {Good : Call × τ → Prop} {R : τ → ℤ → τ → Prop} {gain : Call × τ → ℤ}
    (refl : ∀ t, R t 0 t)
    (trans : ∀ {t t₁ t₂ m n}, R t m t₁ → R t₁ n t₂ → R t (m + n) t₂)
    (step : ∀ c t, Inv t → pre c (view t) → Good (c, t)
      → Inv (h c t).1 ∧ R t (gain (c, t)) (h c t).1)
    (within : ∀ c t, may c (view t) (h c t).2 (view (h c t).1))
    {p : Program Call Reply α} {Q : α → σ → Prop} {t : τ} (holds : p.wp pre may Q (view t))
    (good : ∀ e ∈ p.issued h t, Good e) (inv : Inv t)
    : Inv (p.run h t).1 ∧ R t ((p.issued h t).map gain).sum (p.run h t).1 := by
  induction p generalizing t with
  | done value => exact ⟨inv, refl t⟩
  | call c next ih =>
      obtain ⟨here, later⟩ := List.forall_mem_cons.mp good
      obtain ⟨kept, first⟩ := step c t inv holds.1 here
      obtain ⟨final, rest⟩ := ih _ (holds.2 _ _ (within c t)) later kept
      exact ⟨final, trans first rest⟩

/-- What every call whose precondition is met preserves and carries forward, holds of each call that
a run issues, from there to the end of the run; by induction on the program.
-/
theorem wp_issued {h : Handler Call Reply τ} {view : τ → σ} (Inv : τ → Prop)
    (Later : τ → τ → Prop) (stays : ∀ t, Later t t)
    (goesOn : ∀ t t₁ t₂, Later t t₁ → Later t₁ t₂ → Later t t₂)
    (step : ∀ c t, Inv t → pre c (view t)
      → Inv (h c t).1 ∧ Later t (h c t).1 ∧ may c (view t) (h c t).2 (view (h c t).1))
    {p : Program Call Reply α} {Q : α → σ → Prop} {t : τ}
    (holds : p.wp pre may Q (view t)) (inv : Inv t)
    : Later t (p.run h t).1
      ∧ ∀ e ∈ p.issued h t, Inv e.2 ∧ Later (h e.1 e.2).1 (p.run h t).1 := by
  induction p generalizing t with
  | done value => exact ⟨stays t, nofun⟩
  | call c next ih =>
      obtain ⟨kept, later, within⟩ := step c t inv holds.1
      obtain ⟨rest, calls⟩ := ih _ (holds.2 _ _ within) kept
      refine ⟨goesOn _ _ _ later rest, ?_⟩
      rintro e (_ | ⟨_, there⟩)
      · exact ⟨inv, rest⟩
      · exact calls e there

/-- Every call that a run issues meets its precondition, by induction on the program. -/
theorem wp_met {h : Handler Call Reply τ} {view : τ → σ}
    (within : ∀ c t, may c (view t) (h c t).2 (view (h c t).1))
    {p : Program Call Reply α} {Q : α → σ → Prop} {t : τ} (holds : p.wp pre may Q (view t))
    : ∀ e ∈ p.issued h t, pre e.1 (view e.2) := by
  induction p generalizing t with
  | done value => exact nofun
  | call c next ih =>
      rintro e (_ | ⟨_, there⟩)
      · exact holds.1
      · exact ih _ (holds.2 _ _ (within c t)) e there

end Wp

end Program
