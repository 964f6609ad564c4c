import LasseCash.App.Entrypoints

/-! The calls that the chain runs against the contract and what it records of them, oldest first:
who called which entrypoint with which payload, and what the contract answered.
-/

namespace LasseCash.App

open MachineInt State

-----------------------------------------------------------------------------------------
-- Calls
-----------------------------------------------------------------------------------------

/-- The entrypoint of an operation that only the owner may ask for. -/
def ownersName : Action → Option String
  | .creditMigration .. => some "migrate"
  | .creditMigrationBatch .. => some "migrate_batch"
  | .burnMigrationBatch .. => some "burn_batch"
  | .setSnapshot .. => some "set_snapshot"
  | .migrateLedger .. => some "migrate_ledger"
  | .reconcileFloat => some "reconcile_float"
  | _ => none

/-- None of the owner's entrypoints bears the name of one that anyone may call. -/
theorem ownersName_apart {action : Action} {e : Entrypoint} (named : ownersName action = some e.name)
    : False := by
  have owners (name : String) (named : ownersName action = some name)
      : name ∈ ["migrate", "migrate_batch", "burn_batch", "set_snapshot", "migrate_ledger",
        "reconcile_float"] := by
    cases action <;> first | (obtain rfl := Option.some.inj named; decide) | cases named
  have apart : e.name ∉ ["migrate", "migrate_batch", "burn_batch", "set_snapshot",
      "migrate_ledger", "reconcile_float"] := by
    cases e <;> decide
  exact apart (owners e.name named)

/-- What a call names: an entrypoint that anyone may call, or an operation of the owner's. -/
inductive Invocation
  | entry (entrypoint : Entrypoint) (payload : String)
  | owners (name payload : String) (action : Action) (owned : ownersName action = some name)

/-- The recorded name. -/
def Invocation.action : Invocation → String
  | entry entrypoint _ => entrypoint.name
  | owners name _ _ _ => name

def Invocation.payload : Invocation → String
  | entry _ payload => payload
  | owners _ payload _ _ => payload

/-- A call under the name of an entrypoint is one of it; none of the owner's bears it. -/
theorem Invocation.of_name {i : Invocation} {e : Entrypoint}
    (unique : ∀ e' : Entrypoint, e'.name = e.name → e' = e) (named : i.action = e.name)
    : ∃ payload, i = .entry e payload := by
  cases i with
  | entry e' payload =>
      obtain rfl := unique e' named
      exact ⟨payload, rfl⟩
  | owners name payload action owned =>
      obtain rfl : name = e.name := named
      exact (ownersName_apart owned).elim

/-- One call of the contract, with the id and the time of its transaction. -/
structure ChainCall where
  txId : String
  time : String
  ctx : Ctx
  invocation : Invocation

/-- What the state layer is asked for; nothing where the arguments are malformed. -/
def ChainCall.requests (t : ChainCall) : List Request :=
  match t.invocation with
  | .entry entrypoint payload =>
      match entrypoint.action t.ctx (parseArgs payload) with
      | .ok action => [⟨t.ctx, action, true⟩]
      | .error _ => []
  | .owners _ _ action _ => [⟨t.ctx, action, true⟩]

/-- What a call of an entrypoint asks for. -/
theorem ChainCall.requests_entry {t : ChainCall} {entrypoint : Entrypoint} {payload : String}
    (invoked : t.invocation = .entry entrypoint payload)
    : t.requests = match entrypoint.action t.ctx (parseArgs payload) with
        | .ok action => [⟨t.ctx, action, true⟩]
        | .error _ => [] := by
  rw [ChainCall.requests, invoked]

variable {A : Type} [Assets A]

/-- What a call leaves and answers; where it aborts, the world it found and no text. -/
def ChainCall.exec (t : ChainCall) (w : World A) : World A × Result :=
  let outcome :=
    match t.invocation with
    | .entry entrypoint payload => call t.ctx entrypoint payload w
    | .owners _ _ action _ => finish (action.exec t.ctx w)
  match outcome with
  | some (w', msg) => (w', ok msg)
  | none => (w, fail "")

/-- The world that a sequence of calls leaves. -/
def afterCalls (w : World A) (calls : List ChainCall) : World A :=
  calls.foldl (fun w t => (t.exec w).1) w

/-- A sequence of calls, each with its answer. -/
def answered : World A → List ChainCall → List (ChainCall × Result)
  | _, [] => []
  | w, t :: rest => (t, (t.exec w).2) :: answered (t.exec w).1 rest

-----------------------------------------------------------------------------------------
-- Calls as requests
-----------------------------------------------------------------------------------------

/-- An operation that succeeds is the call's outcome; one that fails is unwound. -/
theorem finish_exec (q : Request) (unwinds : q.unwinds = true) (w : World A)
    : (match finish (q.action.exec q.ctx w) with
        | some (w', msg) => (w', ok msg)
        | none => (w, fail "")).1 = (q.exec w).1 := by
  unfold finish Request.exec
  cases succeeds : (q.action.exec q.ctx w).2.ok with
  | false => simp [unwinds, succeeds]
  | true => simp [succeeds]

/-- A call leaves what its requests leave. -/
theorem ChainCall.exec_world (t : ChainCall) (w : World A)
    : (t.exec w).1 = after w t.requests := by
  obtain ⟨txId, time, ctx, invocation⟩ := t
  cases invocation with
  | owners name payload action owned => exact finish_exec ⟨ctx, action, true⟩ rfl w
  | entry entrypoint payload =>
      unfold ChainCall.exec ChainCall.requests call
      dsimp only
      cases entrypoint.action ctx (parseArgs payload) with
      | error usage => rfl
      | ok action => exact finish_exec ⟨ctx, action, true⟩ rfl w

/-- A sequence of calls leaves what their requests leave, by induction on the calls. -/
theorem afterCalls_requests (w : World A) (calls : List ChainCall)
    : afterCalls w calls = after w (calls.flatMap (·.requests)) := by
  induction calls generalizing w with
  | nil => rfl
  | cons t rest ih =>
      rw [List.flatMap_cons, after_append, ← t.exec_world w]
      exact ih _

theorem afterCalls_append (w : World A) (before rest : List ChainCall)
    : afterCalls w (before ++ rest) = afterCalls (afterCalls w before) rest :=
  List.foldl_append

/-- Every recorded answer was given in the world that the calls before it left, by induction on
the calls.
-/
theorem mem_answered {w : World A} {calls : List ChainCall} {e : ChainCall × Result}
    (there : e ∈ answered w calls)
    : ∃ before rest, calls = before ++ e.1 :: rest ∧ e.2 = (e.1.exec (afterCalls w before)).2 := by
  induction calls generalizing w with
  | nil => cases there
  | cons t calls ih =>
      rcases List.mem_cons.mp there with rfl | later
      · exact ⟨[], calls, rfl, rfl⟩
      · obtain ⟨before, rest, rfl, answer⟩ := ih later
        exact ⟨t :: before, rest, rfl, answer⟩

/-- A call that succeeds ran its operation, which gave the answer. -/
theorem ChainCall.exec_ok {t : ChainCall} {w : World A} (succeeds : (t.exec w).2.ok = true)
    : ∃ action, t.requests = [⟨t.ctx, action, true⟩] ∧ action.exec t.ctx w = t.exec w := by
  obtain ⟨txId, time, ctx, invocation⟩ := t
  have ran (action : Action)
      (succeeds : (match finish (action.exec ctx w) with
        | some (w', msg) => (w', ok msg)
        | none => (w, fail "")).2.ok = true)
      : action.exec ctx w = match finish (action.exec ctx w) with
          | some (w', msg) => (w', ok msg)
          | none => (w, fail "") := by
    revert succeeds
    unfold finish
    split_ifs with done
    · intro _
      exact Prod.ext rfl (congrArg (Result.mk · _) done)
    · exact nofun
  cases invocation with
  | owners name payload action owned => exact ⟨action, rfl, ran action succeeds⟩
  | entry entrypoint payload =>
      unfold ChainCall.exec call at succeeds ⊢
      unfold ChainCall.requests
      dsimp only at succeeds ⊢
      cases asked : entrypoint.action ctx (parseArgs payload) with
      | error usage =>
          rw [asked] at succeeds
          cases succeeds
      | ok action =>
          rw [asked] at succeeds
          exact ⟨action, rfl, ran action succeeds⟩

/-- A call that succeeds ran what its entrypoint asks for. -/
theorem entry_ran {t : ChainCall} {w : World A} {payload : String} {e : Entrypoint}
    (invoked : t.invocation = .entry e payload)
    (succeeds : (t.exec w).2.ok = true)
    : ∃ action, e.action t.ctx (parseArgs payload) = .ok action
      ∧ action.exec t.ctx w = t.exec w := by
  obtain ⟨action, asked, ran⟩ := ChainCall.exec_ok succeeds
  rw [ChainCall.requests_entry invoked] at asked
  cases reads : e.action t.ctx (parseArgs payload) with
  | error usage =>
      rw [reads] at asked
      cases asked
  | ok action' =>
      rw [reads] at asked
      have same : action' = action := congrArg Request.action (List.cons.inj asked).1
      exact ⟨action', rfl, same ▸ ran⟩

/-- Two amounts are asked for as they are read. -/
theorem amounts_asked {args : Args} {i : Nat} {usage : String} {make : Int64 → Int64 → Action}
    {action : Action} (asks : amounts args i usage make = .ok action)
    : ∃ first second, args.amount i = some first ∧ args.amount (i + 1) = some second
      ∧ action = make (.ofInt first) (.ofInt second) := by
  unfold amounts at asks
  split at asks
  · rename_i first second read read'
    exact ⟨first, second, read, read', (Except.ok.inj asks).symm⟩
  · cases asks

/-- An id is asked for as it is read. -/
theorem idArg_asked {args : Args} {i : Nat} {usage : String} {make : UInt64 → Action}
    {action : Action} (asks : idArg args i usage make = .ok action)
    : ∃ id, args.u64 i = some id ∧ action = make (.ofNat id) ∧ (UInt64.ofNat id).toNat = id := by
  unfold idArg at asks
  split at asks
  · rename_i id read
    have word : id < 2 ^ 64 := by
      unfold Args.u64 at read
      split at read
      · cases read
      · exact of_decide_eq_true (Option.filter_eq_some_iff.mp read).2
    exact ⟨id, read, (Except.ok.inj asks).symm, UInt64.toNat_ofNat_of_lt' word⟩
  · cases asks

/-- A call that fails leaves the world that it found. -/
theorem ChainCall.exec_failed {t : ChainCall} {w : World A} (fails : (t.exec w).2.ok = false)
    : (t.exec w).1 = w := by
  revert fails
  unfold ChainCall.exec
  dsimp only
  split
  · exact nofun
  · exact fun _ => rfl

/-- `P` holds of every world of a sequence of calls and the call it finds. -/
def AlongCalls (P : World A → ChainCall → Prop) : World A → List ChainCall → Prop
  | _, [] => True
  | w, t :: rest => P w t ∧ AlongCalls P (t.exec w).1 rest

end LasseCash.App
