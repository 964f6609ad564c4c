import LasseCash.State.ContentIdentity
import LasseCash.State.StepSides

/-! Whose posts and votes the rows hold in the middle of an operation: the log of the operation
under way accounts for every row it writes, step by step, so that what is claimed was voted.
-/

namespace LasseCash.State

open Engine MachineInt Function

-----------------------------------------------------------------------------------------
-- The log of an operation under way
-----------------------------------------------------------------------------------------

/-- The record of a vote, if it is live. -/
def Rows.castOn (r : Rows) (v : String × String × String) : Option Int :=
  r.postVote (postVoteKey v.1 v.2.1 v.2.2)

@[simp]
theorem Rows.getPost_putPost (r : Rows) (author permlink : String) (p : PostRec)
    : (r.putPost author permlink p).getPost author permlink = some p := by
  simp [getPost]

/-- The post that a vote is cast on. -/
abbrev votedPost (v : String × String × String) : String × String := (v.1, v.2.1)

/-- (log.Covers o) says that the log lists what the operation may publish and cast, that no
vote it names collides with a listed one, and that the caller and all voters have a name.
-/
structure ContentLog.Covers (log : ContentLog) (o : Origin) : Prop where
  posts : o.action.publishes o.ctx ⊆ log.posts
  votes : o.action.casts o.ctx ⊆ log.votes
  clear : ∀ v ∈ o.action.votesNamed o.ctx, ∀ v' ∈ log.votes, voteWords v = voteWords v' → v = v'
  voters : ∀ v ∈ log.votes, v.2.2 ≠ ""

section Steps

variable {log : ContentLog} {o : Origin} {whole : Prop} {r r' : Rows}

/-- Two listed votes with one key are one vote. -/
theorem ContentLog.Accounts.vote_eq (h : log.Accounts r) {v v' : String × String × String}
    (known : v ∈ log.votes) (known' : v' ∈ log.votes)
    (same : postVoteKey v.1 v.2.1 v.2.2 = postVoteKey v'.1 v'.2.1 v'.2.2)
    : v = v' :=
  h.votes_apart v known v' known' ((postVoteKey_eq_iff v v').mp same)

/-- Two listed posts with one key are one post. -/
theorem ContentLog.Accounts.post_eq (h : log.Accounts r) {p p' : String × String}
    (known : p ∈ log.posts) (known' : p' ∈ log.posts)
    (same : postKey p.1 p.2 = postKey p'.1 p'.2)
    : p = p' :=
  h.posts_apart p known p' known' ((postKey_eq_iff p p').mp same)

/-- A live vote that the operation names is listed. -/
theorem ContentLog.Accounts.named (h : log.Accounts r) (covers : log.Covers o)
    {v : String × String × String} (named : v ∈ o.action.votesNamed o.ctx)
    (live : r.castOn v ≠ none)
    : v ∈ log.votes := by
  obtain ⟨v', known, same⟩ := h.vote _ live
  exact covers.clear v named v' known ((postVoteKey_eq_iff v v').mp same) ▸ known

/-- A live vote whose claim the operation may settle is listed. -/
theorem ContentLog.Accounts.claimed (h : log.Accounts r) (covers : log.Covers o)
    {author permlink curator : String} (due : Claimable o r author permlink curator)
    (live : r.castOn (author, permlink, curator) ≠ none)
    : (author, permlink, curator) ∈ log.votes := by
  obtain ⟨named, asked | ⟨n, queued⟩, who⟩ := due
  · exact h.named covers (by simp [asked, Action.votesNamed, who]) live
  · have known := h.queued named n _ queued
    rw [if_neg (covers.voters _ known)] at who
    exact who ▸ known

/-- A vote that the operation casts is listed, and so is its post. -/
theorem ContentLog.Covers.cast (h : log.Covers o) {author permlink : String} {weightPct : Int64}
    (asked : o.action = .vote author permlink weightPct)
    (positive : 0 < voteCost weightPct.toInt)
    : (author, permlink, o.ctx.sender) ∈ log.votes ∧ (author, permlink) ∈ log.posts := by
  have nonzero : weightPct.toInt ≠ 0 := by
    rintro zero
    rw [zero] at positive
    exact absurd positive (by decide)
  exact ⟨h.votes (by simp [asked, Action.casts, nonzero]),
    h.posts (by simp [asked, Action.publishes, nonzero])⟩

/-- A vote that weighs something has cost some power. -/
theorem voteCost_pos {shares : Int} {weightPct : Int}
    (positive : 0 < voteWeight shares (voteCost weightPct))
    : 0 < voteCost weightPct := by
  by_contra free
  rw [voteWeight, if_pos (.inr (not_lt.mp free))] at positive
  exact absurd positive (lt_irrefl 0)

-----------------------------------------------------------------------------------------
-- Every step
-----------------------------------------------------------------------------------------

/-- Rows whose posts, votes and queues are no others are accounted for as well. -/
theorem ContentLog.Accounts.congr (h : log.Accounts r)
    (post : ∀ key, r'.post key ≠ none → r.post key ≠ none ∨ ∃ p ∈ log.posts, key = postKey p.1 p.2)
    (vote : ∀ key, r'.postVote key ≠ none
      → r.postVote key ≠ none ∨ ∃ v ∈ log.votes, key = postVoteKey v.1 v.2.1 v.2.2)
    (queued : ∀ account n claim, r'.curation (account, n) = some claim
      → r.curation (account, n) = some claim ∨ (claim.1, claim.2, account) ∈ log.votes)
    : log.Accounts r' where
  post key there := (post key there).elim (h.post key) id
  vote key there := (vote key there).elim (h.vote key) id
  queued account n claim there := (queued account n claim there).elim (h.queued account n claim) id
  voted := h.voted
  posts_apart := h.posts_apart
  votes_apart := h.votes_apart

/-- What authors under listed names stays accounted for. -/
theorem Authors.accounts (h : Authors log.posts log.votes r r') (accounts : log.Accounts r)
    : log.Accounts r' :=
  accounts.congr h.post h.vote h.queued

/-- A step of the content writes under listed names, by cases on the step. -/
theorem ContentWrite.authors (h : ContentWrite o r r') (covers : log.Covers o)
    : Authors log.posts log.votes r r' := by
  have still : Authors log.posts log.votes r r := .refl r
  have there {author permlink : String} {p : PostRec} (found : r.getPost author permlink = some p)
      : (r.getPost author permlink).isSome := by
    simp [found]
  cases h with
  | publish author permlink window mode parentAuthor parentPermlink asked unknown =>
      exact still.putPost author permlink _ (.inl (covers.posts asked))
  | boost author permlink p amt found => exact still.putPost author permlink _ (.inr (there found))
  | owe account amount => exact still.steady ((Aside.refl r).accruePending account amount _).steady
  | pay author permlink p asked accrued found unpaid closed =>
      have taken := still.steady ((Aside.refl r).claimPool p.window p.rshares).steady
      have known := there found
      unfold payoutRows
      dsimp only
      split
      · exact taken.putPost author permlink _ (.inr known)
      · exact taken.putPost author permlink _ (.inr known)
  | forfeit author permlink curator p mine due found paid vote worthless =>
      exact still.setPostVote author permlink curator none (.inl rfl)
  | claim author permlink curator p mine due found paid pot base vote positive worth =>
      exact (still.putPost author permlink _ (.inr (there found))).setPostVote author permlink
        curator none (.inl rfl)
  | sweepPot author permlink p found paid pot ripe =>
      exact (still.putPost author permlink _ (.inr (there found))).steady
        ((Aside.refl _).recycle p.curatorPot).steady
  | clearSlot account author permlink n queued settled => exact still.drop account n
  | advanceHead account => exact still.advanceHead account _ _
  | unvote author permlink weightPct p prev asked found unpaid open_ vote =>
      exact ((still.putPost author permlink _ (.inr (there found))).setPostVote author permlink
        o.ctx.sender none (.inl rfl)).steady ((Aside.refl _).setRshares p.window _).steady
  | vote author permlink weightPct p power asked found unpaid open_ opened positive =>
      obtain ⟨cast, _⟩ := covers.cast asked (voteCost_pos positive)
      exact (writeVote_authors o.ctx author permlink p _ power (there found)).widen
        (List.Subset.refl _) (by simpa using cast)
  | roll account => exact still.steady ((Aside.refl r).putPending account _).steady

/-- Every side but the posts, the votes, their totals and the queues. -/
abbrev besideContent : List Side :=
  [.supply, .setup, .calendar, .checkpoints, .accumulator, .lsharePool, .contentPools,
    .liquidityPool, .shares, .schedule, .mints, .pending, .power, .settings, .board, .roll,
    .tranches, .reserves, .lpAccumulator, .migration]

/-- A step is one of the content, or writes beside it. -/
theorem Step.elsewhere (h : Step o whole r r')
    : ContentWrite o r r' ∨ Touches besideContent r r' := by
  cases h with
  | ledger step => exact .inr (step.touches.widen (by decide))
  | mint step => exact .inr (step.touches.widen (by decide))
  | content step => exact .inl step
  | liquidity step => exact .inr (step.touches.widen (by decide))
  | migration step => exact .inr (step.touches.widen (by decide))

/-- What is accounted for stays so, whatever the step. -/
theorem Step.accounts (h : Step o whole r r') (covers : log.Covers o) (accounts : log.Accounts r)
    : log.Accounts r' := by
  rcases h.elsewhere with content | beside
  · exact (content.authors covers).accounts accounts
  · exact accounts.congr (fun _ there => .inl ((beside.post rfl) ▸ there))
      (fun _ there => .inl ((beside.postVote rfl) ▸ there))
      fun _ _ _ there => .inl ((beside.curation rfl) ▸ there)

end Steps

-----------------------------------------------------------------------------------------
-- The log of a request
-----------------------------------------------------------------------------------------

/-- The log with everything that a request may publish and cast. -/
def ContentLog.under (log : ContentLog) (q : Request) : ContentLog where
  posts := log.posts ++ q.action.publishes q.ctx
  votes := log.votes ++ q.action.casts q.ctx

/-- An action names one vote at most. -/
theorem Action.votesNamed_one (ctx : Ctx) (action : Action) {v v' : String × String × String}
    (h : v ∈ action.votesNamed ctx) (h' : v' ∈ action.votesNamed ctx)
    : v = v' := by
  unfold votesNamed at h h'
  split at h <;> simp_all

/-- An action casts votes of its caller. -/
theorem Action.casts_by (ctx : Ctx) (action : Action) {v : String × String × String}
    (cast : v ∈ action.casts ctx)
    : v.2.2 = ctx.sender := by
  unfold casts at cast
  split at cast
  · split at cast
    · cases cast
    · rw [List.mem_singleton.mp cast]
  · cases cast

section Requests

variable {A : Type} [Assets A] {log : ContentLog} {w : World A} {q : Request}

omit [Assets A] in
/-- A clear request of a named caller is covered by the log under way. -/
theorem ContentLog.Clear.covers (clear : log.Clear q) (signed : q.ctx.sender ≠ "")
    (voters : ∀ v ∈ log.votes, v.2.2 ≠ "")
    : (log.under q).Covers (q.origin w) where
  posts := List.subset_append_right _ _
  votes := List.subset_append_right _ _
  clear v named v' known same := by
    rcases List.mem_append.mp known with old | new
    · exact clear.2 v named v' old same
    · exact q.action.votesNamed_one q.ctx named (q.action.casts_named q.ctx new)
  voters v known := by
    rcases List.mem_append.mp known with old | new
    · exact voters v old
    · exact q.action.casts_by q.ctx new ▸ signed

omit [Assets A] in
/-- A clear request finds what the log under way accounts for. -/
theorem ContentLog.Accounts.under (h : log.Accounts w.rows) (clear : log.Clear q)
    : (log.under q).Accounts w.rows where
  post key there := (h.post key there).imp fun _ known => ⟨List.mem_append_left _ known.1, known.2⟩
  vote key there := (h.vote key there).imp fun _ known => ⟨List.mem_append_left _ known.1, known.2⟩
  queued account n claim there := List.mem_append_left _ (h.queued account n claim there)
  voted v known := by
    rcases List.mem_append.mp known with old | new
    · exact List.mem_append_left _ (h.voted v old)
    · exact List.mem_append_right _ (q.action.casts_publishes q.ctx v new)
  posts_apart p known p' known' same := by
    have named {p : String × String} (new : p ∈ q.action.publishes q.ctx) :=
      q.action.publishes_named q.ctx new
    rcases List.mem_append.mp known with old | new
      <;> rcases List.mem_append.mp known' with old' | new'
    · exact h.posts_apart p old p' old' same
    · exact (clear.1 p' (named new') p old same.symm).symm
    · exact clear.1 p (named new) p' old' same
    · exact q.action.publishes_one q.ctx new new'
  votes_apart v known v' known' same := by
    have named {v : String × String × String} (new : v ∈ q.action.casts q.ctx) :=
      q.action.casts_named q.ctx new
    rcases List.mem_append.mp known with old | new
      <;> rcases List.mem_append.mp known' with old' | new'
    · exact h.votes_apart v old v' old' same
    · exact (clear.2 v' (named new') v old same.symm).symm
    · exact clear.2 v (named new) v' old' same
    · exact q.action.casts_one q.ctx new new'

/-- The log under way lists no less than the log after the request. -/
theorem ContentLog.add_subset (log : ContentLog) (w : World A) (q : Request)
    : (log.add w q).posts ⊆ (log.under q).posts ∧ (log.add w q).votes ⊆ (log.under q).votes := by
  refine ⟨List.append_subset.mpr ⟨List.subset_append_left _ _,
    fun _ new => List.mem_append_right _ (List.mem_filter.mp new).1⟩,
    List.append_subset.mpr ⟨List.subset_append_left _ _, ?_⟩⟩
  split
  · exact List.subset_append_right _ _
  · exact List.nil_subset _

/-- What the log under way lists in excess has left no post. -/
theorem ContentLog.Accounts.unposted (h : log.Accounts w.rows) (clear : log.Clear q)
    {p : String × String} (known : p ∈ (log.under q).posts) (excess : p ∉ (log.add w q).posts)
    : (q.exec w).1.rows.getPost p.1 p.2 = none := by
  obtain ⟨old, unseen⟩ := not_or.mp (mt List.mem_append.mpr excess)
  have published := (List.mem_append.mp known).resolve_left old
  have before : w.rows.getPost p.1 p.2 = none := by
    by_contra there
    exact old (h.post_mem (clear.1 p (q.action.publishes_named q.ctx published))
      (Option.isSome_iff_ne_none.mpr there))
  by_contra there
  exact unseen (List.mem_filter.mpr
    ⟨published, by simp [before, Option.isSome_iff_ne_none, there]⟩)

/-- What the log under way lists in excess has left no vote. -/
theorem ContentLog.Accounts.uncast (after : (log.add w q).Accounts (q.exec w).1.rows)
    (clear : log.Clear q) {v : String × String × String} (known : v ∈ (log.under q).votes)
    (excess : v ∉ (log.add w q).votes)
    : (q.exec w).1.rows.castOn v = none := by
  by_contra live
  obtain ⟨v', known', same⟩ := after.vote _ live
  have words := (postVoteKey_eq_iff v v').mp same
  obtain ⟨old, uncast⟩ := not_or.mp (mt List.mem_append.mpr excess)
  have cast := (List.mem_append.mp known).resolve_left old
  rcases List.mem_append.mp known' with old' | new'
  · exact old (clear.2 v (q.action.casts_named q.ctx cast) v' old' words ▸ old')
  · split at new'
    · rename_i accepted
      rw [if_pos accepted] at uncast
      exact uncast cast
    · cases new'

-----------------------------------------------------------------------------------------
-- Runs
-----------------------------------------------------------------------------------------

/-- The log after a sequence of requests. -/
def ContentLog.after : ContentLog → World A → List Request → ContentLog
  | log, _, [] => log
  | log, w, q :: rest => (log.add w q).after (q.exec w).1 rest

/-- (log.Governs w) says that the log accounts for the rows of a settled world, and that only
named accounts have voted.
-/
structure ContentLog.Governs (log : ContentLog) (w : World A) : Prop where
  accounts : log.Accounts w.rows
  settled : Settled w.rows
  voters : ∀ v ∈ log.votes, v.2.2 ≠ ""

/-- The request is made by an account with a name. -/
def Signed (_ : World A) (q : Request) : Prop := q.ctx.sender ≠ ""

omit [Assets A] in
theorem ContentLog.Governs.covers (h : log.Governs w) (clear : log.Clear q) (signed : Signed w q)
    : (log.under q).Covers (q.origin w) :=
  clear.covers signed h.voters

theorem ContentLog.Governs.step (h : log.Governs w) (clear : log.Clear q) (signed : Signed w q)
    : (log.add w q).Governs (q.exec w).1 where
  accounts := h.accounts.step h.settled.words clear
  settled := Request.exec_settled h.settled
  voters v known := (h.covers clear signed).voters v ((log.add_subset w q).2 known)

theorem initialised_governs (store : Store) (assets : A) (genesis : UInt64)
    (fresh : store.rows = .empty)
    : ContentLog.empty.Governs (initialised store assets genesis) :=
  ⟨initialised_accounts store assets genesis fresh, initialised_settled store assets genesis fresh,
    nofun⟩

/-- What every request of a governed world keeps holds after the run, and what it ensures holds
along the run; by induction on the requests.
-/
theorem ContentLog.ClearRun.keeps {guard P : World A → Request → Prop}
    {I : ContentLog → World A → Prop}
    (step : ∀ (log : ContentLog) w q, log.Governs w → log.Clear q → Signed w q → guard w q → I log w
      → I (log.add w q) (q.exec w).1 ∧ P w q)
    {requests : List Request} (clear : log.ClearRun w requests) (signed : Along Signed w requests)
    (guarded : Along guard w requests) (governs : log.Governs w) (start : I log w)
    : I (log.after w requests) (State.after w requests) ∧ Along P w requests := by
  induction requests generalizing log w with
  | nil => exact ⟨start, trivial⟩
  | cons q rest ih =>
      obtain ⟨here, later⟩ := clear
      obtain ⟨kept, ensured⟩ := step log w q governs here signed.1 guarded.1 start
      obtain ⟨last, along⟩ := ih later signed.2 guarded.2 (governs.step here signed.1) kept
      exact ⟨last, ensured, along⟩

end Requests

end LasseCash.State
