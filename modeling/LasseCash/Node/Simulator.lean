import LasseCash.App.Entrypoints

/-! The simulator's dispatcher, `node/sim/chain.go`, beside the contract's own: they agree on
every call but those that the simulator lacks or checks less.
-/

namespace LasseCash.Node

open App Engine MachineInt State

-----------------------------------------------------------------------------------------
-- The simulator's dispatcher
-----------------------------------------------------------------------------------------

/-- What a submitted transaction asks of the state layer, or why it is refused. -/
def dispatch (ctx : Ctx) (args : Args) : Entrypoint → Except String Action
  | .claimMigration =>
      amounts args 0 "usage: <liquid>|<staked>|<proofHex,…>" fun liquid staked =>
        .claimMigration liquid staked (parseProof (args.str 2))
  | .recordBurn =>
      let usage := "usage: <account>|<liquid>|<staked>|<proofHex,…>"
      if args.str 0 = "" then .error usage
      else
        amounts args 1 usage fun liquid staked =>
          .recordBurn (args.str 0) liquid staked (parseProof (args.str 3))
  | .sweepUnclaimed => .ok .sweepUnclaimed
  | .transfer => amountArg args 1 "usage: <to>|<amount>" (.transfer (args.str 0))
  | .burn => amountArg args 0 "usage: <amount>" .burnLiquid
  | .settle => .ok .settle
  | .mint =>
      match args.amount 0, args.i64 1 with
      | some amount, some days => .ok (.createMint (.ofInt amount) (.ofInt days))
      | _, _ => .error "usage: <amount>|<days>"
  | .claimMint => idArg args 0 "usage: <mintId>" .claimMint
  | .sweepMint =>
      if args.str 0 = "" then .error "usage: <owner>|<mintId>"
      else idArg args 1 "usage: <owner>|<mintId>" (.sweepMint (args.str 0))
  | .goodAccounting => idArg args 0 "usage: <mintId>" .armGoodAccounting
  | .setDuration => intArg args 0 "usage: <days>" .setMintDuration
  | .settlePending =>
      .ok (.settlePending (if args.str 0 = "" then ctx.sender else args.str 0))
  | .promote => .ok (.promote (if args.str 0 = "" then ctx.sender else args.str 0))
  | .setParam => intArg args 1 "usage: <paramKey>|<value>" (.setPreference (args.str 0))
  | .post =>
      let usage := "usage: <permlink>|<window 0=viral 1=deep>|[payoutMode]"
      match args.u64 1 with
      | some w =>
          if w > 1 then .error usage
          else
            .ok (.createPost (args.str 0) (window w) (payoutMode ((args.u64 2).getD 0)))
      | none => .error usage
  | .comment =>
      if args.str 0 = "" ∨ args.str 1 = "" ∨ args.str 2 = "" then
        .error "usage: <permlink>|<parentAuthor>|<parentPermlink>|[payoutMode]"
      else
        .ok (.createComment (args.str 0) (payoutMode ((args.u64 3).getD 0)) (args.str 1)
          (args.str 2))
  | .promotePost =>
      authored args "usage: <author>|<permlink>|<amount>" fun author permlink =>
        amountArg args 2 "usage: <author>|<permlink>|<amount>" (.promotePost author permlink)
  | .vote =>
      intArg args 2 "usage: <author>|<permlink>|<weightPct>" (.vote (args.str 0) (args.str 1))
  | .payout => .ok (.payout (args.str 0) (args.str 1))
  | .sweepCuration => .ok (.sweepCuration (args.str 0) (args.str 1))
  | .claimCuration => .ok (.claimCuration (args.str 0) (args.str 1) (args.str 2))
  | .addLiquidity => amounts args 0 "usage: <lcAmount>|<maxHbd>" .addLiquidity
  | .removeLiquidity => idArg args 0 "usage: <trancheId>" .removeLiquidity
  | .claimPool => idArg args 0 "usage: <trancheId>" .claimPoolRewards
  | .swapLassecashHbd => amounts args 0 "usage: <lassecashIn>|<minHbdOut>" .swapLCForHBD
  | .swapHbdLassecash => amounts args 0 "usage: <hbdIn>|<minLassecashOut>" .swapHBDForLC
  -- the switch has no case for these
  | .fund => .error ("unknown entrypoint: " ++ Entrypoint.fund.name)
  | .advance => .error ("unknown entrypoint: " ++ Entrypoint.advance.name)
  | .sweepTranche => .error ("unknown entrypoint: " ++ Entrypoint.sweepTranche.name)

variable {A : Type} [Assets A]

/-- Dispatches one transaction: the world it leaves, also when it fails, and its result. -/
def submit (ctx : Ctx) (entrypoint : Entrypoint) (payload : String) (w : World A)
    : World A × Result :=
  match dispatch ctx (parseArgs payload) entrypoint with
  | .ok action => action.exec ctx w
  | .error msg => (w, fail msg)

-----------------------------------------------------------------------------------------
-- Agreement
-----------------------------------------------------------------------------------------

/-- (Agrees ctx entrypoint payload w) says that the simulator succeeds exactly when the contract
does not abort, and then leaves the same world and returns the same message.
-/
def Agrees (ctx : Ctx) (entrypoint : Entrypoint) (payload : String) (w : World A) : Prop :=
  ((submit ctx entrypoint payload w).2.ok ↔ (call ctx entrypoint payload w).isSome)
    ∧ ∀ w' msg, call ctx entrypoint payload w = some (w', msg)
        → submit ctx entrypoint payload w = (w', ok msg)

/-- No post stands under the names of a payload that lacks one of them. -/
def Addressed (r : Rows) (args : Args) : Prop :=
  args.str 0 = "" ∨ args.str 1 = "" → r.getPost (args.str 0) (args.str 1) = none

/-- (InStep r args entrypoint) says that the call is not one that the simulator lacks or checks
less: it has `fund`, `advance` and `sweep_tranche` only as far as these are refused anyway, a
post's payout mode is one of three, unless it lacks a permlink or a window, and the calls about a
post address it by both names.
-/
def InStep (r : Rows) (args : Args) : Entrypoint → Prop
  | .fund => args.str 0 ∉ fundTargets ∨ ∀ amount, args.amount 1 = some amount → amount = 0
  | .advance => False
  | .sweepTranche => args.str 0 = "" ∨ args.u64 1 = none
  | .post => args.str 0 = "" ∨ (∀ window, args.u64 1 = some window → 1 < window)
      ∨ (args.u64 2).getD 0 ≤ 2
  | .vote => Addressed r args ∨ args.i64 2 = none
  | .payout | .claimCuration | .sweepCuration => Addressed r args
  | _ => True

/-- (Refused ctx args entrypoint w) says that the state layer refuses whatever the contract or the
simulator asks of it.
-/
def Refused (ctx : Ctx) (args : Args) (entrypoint : Entrypoint) (w : World A) : Prop :=
  ∀ action, entrypoint.action ctx args = .ok action ∨ dispatch ctx args entrypoint = .ok action
    → (action.exec ctx w).2.ok = false

instance (r : Rows) (args : Args) : Decidable (Addressed r args) :=
  inferInstanceAs (Decidable (_ → _))

-----------------------------------------------------------------------------------------
-- How the two can agree
-----------------------------------------------------------------------------------------

section

variable {ctx : Ctx} {entrypoint : Entrypoint} {payload : String} {w : World A}

/-- The same request has the same outcome, unless it fails. -/
theorem agrees_of_same
    (same : dispatch ctx (parseArgs payload) entrypoint
      = entrypoint.action ctx (parseArgs payload))
    : Agrees ctx entrypoint payload w := by
  unfold Agrees submit call
  rw [same]
  cases entrypoint.action ctx (parseArgs payload) with
  | error msg => exact ⟨by simp [fail], by simp⟩
  | ok action =>
      dsimp only [finish]
      cases succeeds : (action.exec ctx w).2.ok with
      | false => simp
      | true =>
          simp only [if_true, Option.isSome_some, true_and, Option.some.injEq, Prod.mk.injEq]
          rintro w' msg ⟨rfl, rfl⟩
          refine Prod.ext rfl ?_
          change (action.exec ctx w).2 = ⟨true, (action.exec ctx w).2.msg⟩
          rw [← succeeds]

/-- Where the contract aborts on its arguments, the simulator may refuse or fail. -/
theorem agrees_of_refused
    (aborts : ∃ usage, entrypoint.action ctx (parseArgs payload) = .error usage)
    (refuses : (submit ctx entrypoint payload w).2.ok = false)
    : Agrees ctx entrypoint payload w := by
  obtain ⟨usage, aborts⟩ := aborts
  unfold Agrees call
  rw [aborts, refuses]
  simp

/-- Where the simulator refuses, the contract's operation may fail. -/
theorem agrees_of_failed
    (refuses : ∃ usage, dispatch ctx (parseArgs payload) entrypoint = .error usage)
    (fails : ∀ action, entrypoint.action ctx (parseArgs payload) = .ok action
      → (action.exec ctx w).2.ok = false)
    : Agrees ctx entrypoint payload w := by
  obtain ⟨usage, refuses⟩ := refuses
  unfold Agrees submit call
  rw [refuses]
  cases asked : entrypoint.action ctx (parseArgs payload) with
  | error msg => exact ⟨by simp [fail], by simp⟩
  | ok action =>
      dsimp only [finish]
      rw [fails action asked]
      exact ⟨by simp [fail], by simp⟩

/-- Where one of the two asks nothing of the state layer, they agree if what the other one asks is
refused, and only then.
-/
theorem agrees_iff_refused
    (one : (∃ usage, entrypoint.action ctx (parseArgs payload) = .error usage)
      ∨ ∃ usage, dispatch ctx (parseArgs payload) entrypoint = .error usage)
    : Agrees ctx entrypoint payload w ↔ Refused ctx (parseArgs payload) entrypoint w := by
  constructor
  · intro agrees action asked
    have same := agrees.1
    unfold submit call at same
    rcases one with ⟨usage, aborts⟩ | ⟨usage, refuses⟩
    · have dispatched := asked.resolve_left (by simp [aborts])
      rw [aborts, dispatched] at same
      simpa using same
    · have called := asked.resolve_right (by simp [refuses])
      rw [refuses, called] at same
      simpa [fail, finish] using same
  · intro refused
    rcases one with aborts | refuses
    · refine agrees_of_refused aborts ?_
      unfold submit
      split
      · exact refused _ (.inr ‹_›)
      · rfl
    · exact agrees_of_failed refuses fun action asked => refused action (.inl asked)

theorem mint_agrees : Agrees ctx .mint payload w := by
  cases amount : (parseArgs payload).amount 0 with
  | none =>
      refine agrees_of_refused ⟨_, by simp only [Entrypoint.action, amount]; rfl⟩ ?_
      simp only [submit, dispatch, amount]
      rfl
  | some _ =>
      cases days : (parseArgs payload).i64 1 with
      | none =>
          refine agrees_of_refused ⟨_, by simp only [Entrypoint.action, amount, days]; rfl⟩ ?_
          simp only [submit, dispatch, amount, days]
          rfl
      | some _ =>
          exact agrees_of_same (by simp only [dispatch, Entrypoint.action, amount, days])

theorem setDuration_agrees : Agrees ctx .setDuration payload w := by
  cases days : (parseArgs payload).i64 0 with
  | none =>
      refine agrees_of_refused ⟨_, by simp only [Entrypoint.action, intArg, days]; rfl⟩ ?_
      simp only [submit, dispatch, intArg, days]
      rfl
  | some _ => exact agrees_of_same (by simp only [dispatch, Entrypoint.action, intArg, days])

end

-----------------------------------------------------------------------------------------
-- Operations that check what the simulator does not
-----------------------------------------------------------------------------------------

theorem transfer_unnamed (ctx : Ctx) (amt : Int64) (w : World A)
    : ((Action.transfer "" amt).exec ctx w).2.ok = false := by
  change ((State.transfer ctx "" amt.toInt).run serve w).2.ok = false
  simp only [State.transfer, Program.run_ite, true_or, if_true,
    Program.run_pure]
  split <;> rfl

theorem setPreference_unnamed (ctx : Ctx) (value : Int64) (w : World A)
    : ((Action.setPreference "" value).exec ctx w).2.ok = false := by
  have unknown : registryParam "" = none := by decide
  change ((State.setPreference ctx "" value.toInt).run serve w).2.ok = false
  simp only [State.setPreference, Program.run_bind, unknown, Program.run_pure]
  rfl

theorem createPost_unnamed (ctx : Ctx) (window : Window) (mode : PayoutMode) (w : World A)
    : ((Action.createPost "" window mode).exec ctx w).2.ok = false := by
  change ((State.createPost ctx "" window mode).run serve w).2.ok = false
  simp only [State.createPost, State.createContent,
    Program.run_bind, Program.run_ite, true_or, if_true, Program.run_pure]
  split <;> rfl

theorem fundPool_refused (ctx : Ctx) {target : String} {amt : Int64} (w : World A)
    (nothing : target ∉ fundTargets ∨ amt.toInt ≤ 0)
    : ((Action.fundPool target amt).exec ctx w).2.ok = false := by
  change ((State.fundPool ctx target amt.toInt).run serve w).2.ok = false
  simp only [State.fundPool, Program.run_bind, Program.run_ite,
    Program.run_pure]
  rcases nothing with unknown | zero
  · rw [if_pos unknown]
    split
    · rfl
    · split
      · rfl
      · split <;> rfl
  · rw [if_pos zero]
    split <;> rfl

section

variable (ctx : Ctx) {author permlink : String} {w : World A}

theorem payout_absent (absent : w.rows.getPost author permlink = none)
    : ((Action.payout author permlink).exec ctx w).2.ok = false := by
  have none_there : (rows.run serve w).2.getPost author permlink = none := absent
  change ((State.payout ctx author permlink).run serve w).2.ok = false
  simp only [State.payout, Program.run_bind, Program.run_ite,
    Program.run_pure, none_there]
  split <;> rfl

theorem claimCuration_absent (absent : w.rows.getPost author permlink = none) (curator : String)
    : ((Action.claimCuration author permlink curator).exec ctx w).2.ok = false := by
  have none_there : (rows.run serve w).2.getPost author permlink = none := absent
  change ((State.claimCuration ctx author permlink curator).run serve w).2.ok = false
  simp only [State.claimCuration, Program.run_bind, none_there]
  rfl

theorem sweepCuration_absent (absent : w.rows.getPost author permlink = none)
    : ((Action.sweepCuration author permlink).exec ctx w).2.ok = false := by
  have none_there : (rows.run serve w).2.getPost author permlink = none := absent
  change ((State.sweepCuration ctx author permlink).run serve w).2.ok = false
  simp only [State.sweepCuration, Program.run_bind, none_there]
  rfl

/-- No post is registered under an empty name. -/
theorem openPost_absent (absent : w.rows.getPost author permlink = none)
    (unnamed : author = "" ∨ permlink = "")
    : (openPost ctx author permlink).run serve w = (w, .error (fail "invalid post")) := by
  have none_there : (rows.run serve w).2.getPost author permlink = none := absent
  have invalid : author = "" ∨ permlink = "" ∨ '|' ∈ author.toList ∨ '|' ∈ permlink.toList :=
    unnamed.imp_right .inl
  simp only [State.openPost, Program.run_bind, none_there, registerForAuthor, if_pos invalid]
  rfl

theorem vote_absent (absent : w.rows.getPost author permlink = none)
    (unnamed : author = "" ∨ permlink = "") (weightPct : Int64)
    : ((Action.vote author permlink weightPct).exec ctx w).2.ok = false := by
  have read : rows.run serve w = (w, w.rows) := rfl
  change ((State.vote ctx author permlink weightPct.toInt).run serve w).2.ok = false
  simp only [State.vote, State.unvote, Program.run_bind,
    Program.run_ite, Program.run_pure, read, openPost_absent ctx absent unnamed, absent]
  split
  · rfl
  · split
    · rfl
    · split <;> rfl

end

-----------------------------------------------------------------------------------------
-- The two dispatchers
-----------------------------------------------------------------------------------------

section

variable {ctx : Ctx} {payload : String} {w : World A}

/-- A check of the first name that the simulator lacks does no harm where the operation makes
it too.
-/
theorem named_agrees {entrypoint : Entrypoint} (usage : String) (asked : Except String Action)
    (checks : entrypoint.action ctx (parseArgs payload)
      = if (parseArgs payload).str 0 = "" then .error usage else asked)
    (lacks : dispatch ctx (parseArgs payload) entrypoint = asked)
    (fails : (parseArgs payload).str 0 = "" → ∀ action, asked = .ok action
      → (action.exec ctx w).2.ok = false)
    : Agrees ctx entrypoint payload w := by
  by_cases unnamed : (parseArgs payload).str 0 = ""
  · refine agrees_of_refused ⟨usage, by rw [checks, if_pos unnamed]⟩ ?_
    rw [submit, lacks]
    cases said : asked with
    | error msg => rfl
    | ok action => exact fails unnamed action said
  · exact agrees_of_same (by rw [lacks, checks, if_neg unnamed])

theorem transfer_agrees : Agrees ctx .transfer payload w := by
  refine named_agrees "usage: <to>|<amount>" (amountArg (parseArgs payload) 1
    "usage: <to>|<amount>" (.transfer ((parseArgs payload).str 0))) rfl rfl ?_
  intro unnamed action asked
  rw [unnamed, amountArg] at asked
  split at asked <;> cases asked
  exact transfer_unnamed ctx _ w

theorem setParam_agrees : Agrees ctx .setParam payload w := by
  refine named_agrees "usage: <paramKey>|<value>" (intArg (parseArgs payload) 1
    "usage: <paramKey>|<value>" (.setPreference ((parseArgs payload).str 0))) rfl rfl ?_
  intro unnamed action asked
  rw [unnamed, intArg] at asked
  split at asked <;> cases asked
  exact setPreference_unnamed ctx _ w

/-- The contract has a fund that the simulator lacks, but refuses these as well. -/
theorem fund_agrees (step : InStep w.rows (parseArgs payload) .fund)
    : Agrees ctx .fund payload w := by
  refine agrees_of_failed ⟨_, rfl⟩ ?_
  intro action asked
  by_cases unnamed : (parseArgs payload).str 0 = ""
  · simp only [Entrypoint.action, if_pos unnamed] at asked
    cases asked
  · simp only [Entrypoint.action, if_neg unnamed, amountArg] at asked
    split at asked <;> cases asked
    rename_i amount read
    refine fundPool_refused ctx w (step.imp_right fun zero => ?_)
    rw [zero amount read]
    rfl

theorem sweepTranche_agrees (step : InStep w.rows (parseArgs payload) .sweepTranche)
    : Agrees ctx .sweepTranche payload w := by
  refine agrees_of_failed ⟨_, rfl⟩ ?_
  intro action asked
  rcases step with unnamed | unread
  · simp only [Entrypoint.action, if_pos unnamed] at asked
    cases asked
  · simp only [Entrypoint.action, idArg, unread, ite_self] at asked
    cases asked

theorem post_agrees (step : InStep w.rows (parseArgs payload) .post)
    : Agrees ctx .post payload w := by
  cases read : (parseArgs payload).u64 1 with
  | none => exact agrees_of_same (by simp only [dispatch, Entrypoint.action, read])
  | some number =>
      by_cases named : (parseArgs payload).str 0 = ""
      · refine agrees_of_refused
          ⟨_, by simp only [Entrypoint.action, read, if_pos (Or.inl named)]; rfl⟩ ?_
        simp only [submit, dispatch, read, named]
        split
        · rename_i asked
          split at asked
          · cases asked
          · cases asked
            exact createPost_unnamed ctx _ _ w
        · rfl
      · rcases step.resolve_left named with unopened | mode
        · refine agrees_of_same ?_
          simp only [dispatch, Entrypoint.action, read, named, false_or, if_pos (unopened number read)]
        · refine agrees_of_same ?_
          simp only [dispatch, Entrypoint.action, read, named, false_or, not_lt.mpr mode, if_false]

/-- A call about a post agrees when it addresses the post by both names, or no post at all. -/
theorem authored_agrees {entrypoint : Entrypoint} (usage : String)
    (action : String → String → Except String Action)
    (asks : entrypoint.action ctx (parseArgs payload)
      = authored (parseArgs payload) usage action)
    (asked : dispatch ctx (parseArgs payload) entrypoint
      = action ((parseArgs payload).str 0) ((parseArgs payload).str 1))
    (fails : (parseArgs payload).str 0 = "" ∨ (parseArgs payload).str 1 = ""
      → (submit ctx entrypoint payload w).2.ok = false)
    : Agrees ctx entrypoint payload w := by
  by_cases unnamed : (parseArgs payload).str 0 = "" ∨ (parseArgs payload).str 1 = ""
  · exact agrees_of_refused ⟨usage, by rw [asks, authored, if_pos unnamed]⟩ (fails unnamed)
  · refine agrees_of_same ?_
    rw [asks, asked, authored, if_neg unnamed]

theorem vote_agrees (step : InStep w.rows (parseArgs payload) .vote)
    : Agrees ctx .vote payload w := by
  cases read : (parseArgs payload).i64 2 with
  | none =>
      refine agrees_of_refused ?_ (by simp only [submit, dispatch, intArg, read]; rfl)
      simp only [Entrypoint.action, authored, intArg, read, ite_self]
      exact ⟨_, rfl⟩
  | some weight =>
      have addressed := step.resolve_right (by rw [read]; exact Option.some_ne_none _)
      refine authored_agrees "usage: <author>|<permlink>|<weightPct 0..100, 0 removes your vote>"
        (fun author permlink => .ok (.vote author permlink (.ofInt weight))) ?_ ?_ ?_
      · simp only [Entrypoint.action, intArg, read]
      · simp only [dispatch, intArg, read]
      · intro unnamed
        simp only [submit, dispatch, intArg, read]
        exact vote_absent ctx (addressed unnamed) unnamed _

/-- The simulator does as the contract on every call but those that it lacks or checks less. -/
theorem inStep_agrees (ctx : Ctx) (entrypoint : Entrypoint) (payload : String) (w : World A)
    (step : InStep w.rows (parseArgs payload) entrypoint)
    : Agrees ctx entrypoint payload w := by
  cases entrypoint with
  | transfer => exact transfer_agrees
  | fund => exact fund_agrees step
  | advance => exact step.elim
  | mint => exact mint_agrees
  | setDuration => exact setDuration_agrees
  | setParam => exact setParam_agrees
  | post => exact post_agrees step
  | vote => exact vote_agrees step
  | payout =>
      refine authored_agrees _ (fun author permlink => .ok (.payout author permlink)) rfl rfl ?_
      exact fun unnamed => payout_absent ctx (step unnamed)
  | claimCuration =>
      refine authored_agrees _ (fun author permlink =>
        .ok (.claimCuration author permlink ((parseArgs payload).str 2))) rfl rfl ?_
      exact fun unnamed => claimCuration_absent ctx (step unnamed) _
  | sweepCuration =>
      refine authored_agrees _ (fun author permlink => .ok (.sweepCuration author permlink)) rfl
        rfl ?_
      exact fun unnamed => sweepCuration_absent ctx (step unnamed)
  | sweepTranche => exact sweepTranche_agrees step
  | _ => exact agrees_of_same rfl

/-- On the others one of the two asks nothing of the state layer. -/
theorem outOfStep_asks {r : Rows} {args : Args} {entrypoint : Entrypoint}
    (out : ¬InStep r args entrypoint)
    : (∃ usage, entrypoint.action ctx args = .error usage)
      ∨ ∃ usage, dispatch ctx args entrypoint = .error usage := by
  have unaddressed (usage : String) (action : String → String → Except String Action)
      (out : ¬Addressed r args)
      : ∃ told, authored args usage action = .error told := by
    have unnamed : args.str 0 = "" ∨ args.str 1 = "" := by
      by_contra named
      exact out fun unnamed => absurd unnamed named
    exact ⟨usage, if_pos unnamed⟩
  cases entrypoint with
  | fund | advance | sweepTranche => exact .inr ⟨_, rfl⟩
  | post =>
      obtain ⟨named, out⟩ := not_or.mp out
      obtain ⟨opened, mode⟩ := not_or.mp out
      push Not at opened
      obtain ⟨window, read, valid⟩ := opened
      refine .inl ⟨"payoutMode must be 0 (split), 1 (power up) or 2 (burn)", ?_⟩
      simp only [Entrypoint.action, read, named, not_lt.mpr valid, or_self, if_false]
      exact if_pos (not_le.mp mode)
  | vote =>
      simp only [Entrypoint.action]
      exact .inl (unaddressed _ _ (not_or.mp out).1)
  | payout | claimCuration | sweepCuration =>
      simp only [Entrypoint.action]
      exact .inl (unaddressed _ _ out)
  | _ => exact absurd trivial out

/-- The simulator and the contract agree on a call exactly if it is in step or what either asks of the
state layer is refused there.
-/
theorem submit_agrees_iff (ctx : Ctx) (entrypoint : Entrypoint) (payload : String) (w : World A)
    : Agrees ctx entrypoint payload w
      ↔ InStep w.rows (parseArgs payload) entrypoint
        ∨ Refused ctx (parseArgs payload) entrypoint w := by
  by_cases step : InStep w.rows (parseArgs payload) entrypoint
  · exact ⟨fun _ => .inl step, fun _ => inStep_agrees ctx entrypoint payload w step⟩
  · rw [agrees_iff_refused (outOfStep_asks step), or_iff_right step]

/-- `advance` never fails in the contract, so on it the two never agree. -/
theorem advance_differs (ctx : Ctx) (payload : String) (w : World A)
    : ¬Agrees ctx .advance payload w := by
  intro agrees
  have refused : (submit ctx .advance payload w).2.ok = false := rfl
  obtain ⟨days, asks⟩ : ∃ days, Entrypoint.advance.action ctx (parseArgs payload)
      = .ok (.advance days) := by
    simp only [Entrypoint.action]
    split <;> exact ⟨_, rfl⟩
  have succeeds : ((Action.advance days).exec ctx w).2.ok = true := by
    simp only [Action.exec, Action.program, State.advance, Program.run_bind, Program.run_ite,
      Program.run_pure]
    split <;> rfl
  have called : (call ctx .advance payload w).isSome := by
    simp only [call, asks, finish, succeeds, if_true, Option.isSome_some]
  exact absurd (agrees.1.mpr called) (by rw [refused]; exact Bool.false_ne_true)

end

/-- An author with a stake, and with a post whose permlink ends in the keys' separator. -/
def postedByAuthor : World MemAssets :=
  after (initialised Store.newMem MemAssets.new 1000)
    [⟨.of "hive:owner" 1000,
        .creditMigration "hive:author" (5 * 10 ^ 8) (10 ^ 15), true⟩,
      ⟨.of "hive:author" 1000, .createPost "x_" .viral .default, true⟩]

/-- That author, later. -/
def laterAuthor : Ctx := .of "hive:author" 2000

theorem author_votes_in_step
    : Agrees laterAuthor .vote "hive:author|x_|100" postedByAuthor :=
  (submit_agrees_iff laterAuthor .vote "hive:author|x_|100" postedByAuthor).mpr
    (.inl (.inl fun unnamed => absurd unnamed (by decide)))

/-- In one reachable world, the simulator refuses a fund and an advance that the contract makes,
and makes a post with a fourth payout mode and a vote without a permlink that the contract
aborts.
-/
theorem dispatchers_differ
    : (¬Agrees laterAuthor .fund "all|100000000" postedByAuthor
        ∧ (call laterAuthor .fund "all|100000000" postedByAuthor).isSome)
      ∧ (¬Agrees laterAuthor .advance "" postedByAuthor
        ∧ (call laterAuthor .advance "" postedByAuthor).isSome)
      ∧ (¬Agrees laterAuthor .post "y|0|3" postedByAuthor
        ∧ (submit laterAuthor .post "y|0|3" postedByAuthor).2.ok)
      ∧ ¬Agrees laterAuthor .vote "hive:author_x||100" postedByAuthor
      ∧ (submit laterAuthor .vote "hive:author_x||100" postedByAuthor).2.ok := by
  have fund : (call laterAuthor .fund "all|100000000" postedByAuthor).isSome := by
    decide +kernel
  have advance : (call laterAuthor .advance "" postedByAuthor).isSome := by decide +kernel
  have post : (submit laterAuthor .post "y|0|3" postedByAuthor).2.ok := by decide +kernel
  have vote : (submit laterAuthor .vote "hive:author_x||100" postedByAuthor).2.ok := by
    decide +kernel
  refine ⟨⟨fun same => ?_, fund⟩, ⟨fun same => ?_, advance⟩, ⟨fun same => ?_, post⟩,
    fun same => ?_, vote⟩
  · exact absurd (same.1.mpr fund) (by decide +kernel)
  · exact absurd (same.1.mpr advance) (by decide +kernel)
  · exact absurd (same.1.mp post) (by decide +kernel)
  · exact absurd (same.1.mp vote) (by decide +kernel)

end LasseCash.Node
