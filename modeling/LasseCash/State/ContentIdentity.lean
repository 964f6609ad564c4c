import LasseCash.Lib.JoinedKeys
import LasseCash.State.Reachable

/-! Whose post and whose vote a joined key stands for. Keys join names with an underscore that
the names may contain themselves, so two pairs collide exactly when they consist of the same
words; as long as no request names a pair or a triple that collides with another one before,
every record belongs to the names it is read under.
-/

namespace LasseCash.State

open Engine MachineInt Function Program JoinedKeys

-----------------------------------------------------------------------------------------
-- Which keys collide
-----------------------------------------------------------------------------------------

/-- The words of a post's author and permlink. -/
def postWords (p : String × String) : List (List Char) := wordsOf '_' [p.1.toList, p.2.toList]

/-- The words of a vote's author, permlink and voter. -/
def voteWords (v : String × String × String) : List (List Char) :=
  wordsOf '_' [v.1.toList, v.2.1.toList, v.2.2.toList]

/-- Two posts share a key exactly when they consist of the same words. -/
theorem postKey_eq_iff (p p' : String × String)
    : postKey p.1 p.2 = postKey p'.1 p'.2 ↔ postWords p = postWords p' := by
  rw [postWords, postWords, ← join_eq_iff '_' (List.cons_ne_nil _ _) (List.cons_ne_nil _ _),
    ← String.toList_inj]
  simp [postKey, List.append_assoc]

/-- Two votes share a key exactly when they consist of the same words. -/
theorem postVoteKey_eq_iff (v v' : String × String × String)
    : postVoteKey v.1 v.2.1 v.2.2 = postVoteKey v'.1 v'.2.1 v'.2.2
      ↔ voteWords v = voteWords v' := by
  rw [voteWords, voteWords, ← join_eq_iff '_' (List.cons_ne_nil _ _) (List.cons_ne_nil _ _),
    ← String.toList_inj]
  simp [postVoteKey, List.append_assoc]

-----------------------------------------------------------------------------------------
-- What was published and voted
-----------------------------------------------------------------------------------------

/-- The pairs published and the triples voted so far. -/
structure ContentLog where
  posts : List (String × String)
  votes : List (String × String × String)

def ContentLog.empty : ContentLog := ⟨[], []⟩

/-- The pairs under which an action reads or writes posts. -/
def Action.postsNamed (ctx : Ctx) : Action → List (String × String)
  | createPost permlink _ _ => [(ctx.sender, permlink)]
  | createComment permlink _ parentAuthor parentPermlink =>
      [(ctx.sender, permlink), (parentAuthor, parentPermlink)]
  | vote author permlink _ => [(author, permlink)]
  | promotePost author permlink _ => [(author, permlink)]
  | payout author permlink => [(author, permlink)]
  | claimCuration author permlink _ => [(author, permlink)]
  | sweepCuration author permlink => [(author, permlink)]
  | _ => []

/-- The triples under which an action reads or writes votes. -/
def Action.votesNamed (ctx : Ctx) : Action → List (String × String × String)
  | vote author permlink _ => [(author, permlink, ctx.sender)]
  | claimCuration author permlink curator =>
      [(author, permlink, if curator = "" then ctx.sender else curator)]
  | _ => []

/-- An action names what it publishes and casts, by cases on the action. -/
theorem Action.publishes_named (ctx : Ctx) (action : Action)
    : action.publishes ctx ⊆ action.postsNamed ctx := by
  cases action with
  | createPost => exact List.Subset.refl _
  | createComment permlink _ parentAuthor parentPermlink =>
      exact List.cons_subset_cons _ (List.nil_subset _)
  | vote author permlink weightPct =>
      simp only [publishes]
      split <;> simp [postsNamed]
  | _ => exact List.nil_subset _

theorem Action.casts_named (ctx : Ctx) (action : Action)
    : action.casts ctx ⊆ action.votesNamed ctx := by
  cases action with
  | vote author permlink weightPct =>
      simp only [casts]
      split <;> simp [votesNamed]
  | _ => exact List.nil_subset _

/-- What an action casts is on a post it publishes or finds. -/
theorem Action.casts_publishes (ctx : Ctx) (action : Action) (v : String × String × String)
    (cast : v ∈ action.casts ctx)
    : (v.1, v.2.1) ∈ action.publishes ctx := by
  cases action <;> simp only [casts, List.not_mem_nil] at cast
  case vote author permlink weightPct =>
      simp only [publishes]
      split at cast
      · cases cast
      · rename_i nonzero
        obtain rfl := List.mem_singleton.mp cast
        simp [nonzero]

section Requests

variable {A : Type} [Assets A]

/-- The log after a request: the pair whose record appeared, and the triple of a vote that was
cast.
-/
def ContentLog.add (log : ContentLog) (w : World A) (q : Request) : ContentLog where
  posts := log.posts ++ (q.action.publishes q.ctx).filter fun p =>
    (w.rows.getPost p.1 p.2).isNone && ((q.exec w).1.rows.getPost p.1 p.2).isSome
  votes := log.votes ++ if (q.exec w).2.ok then q.action.casts q.ctx else []

/-- No pair that the request names consists of the words of another pair published before, and
no triple of the words of another triple voted before.
-/
def ContentLog.Clear (log : ContentLog) (q : Request) : Prop :=
  (∀ p ∈ q.action.postsNamed q.ctx, ∀ p' ∈ log.posts, postWords p = postWords p' → p = p')
    ∧ ∀ v ∈ q.action.votesNamed q.ctx, ∀ v' ∈ log.votes, voteWords v = voteWords v' → v = v'

/-- Every request of a run is clear of what was published and voted before it. -/
def ContentLog.ClearRun : ContentLog → World A → List Request → Prop
  | _, _, [] => True
  | log, w, q :: rest => log.Clear q ∧ (log.add w q).ClearRun (q.exec w).1 rest

instance (log : ContentLog) (q : Request) : Decidable (log.Clear q) :=
  inferInstanceAs (Decidable (_ ∧ _))

instance ContentLog.decideClearRun
    : (log : ContentLog) → (w : World A) → (requests : List Request)
      → Decidable (log.ClearRun w requests)
  | _, _, [] => isTrue trivial
  | log, w, q :: rest =>
      @instDecidableAnd _ _ _ ((log.add w q).decideClearRun (q.exec w).1 rest)

/-- Every record belongs to the names it is read under: distinct pairs and triples have
distinct records, a record that the request reads was written under the very names, as was
every queued claim, and a payout succeeds for a published pair only.
-/
structure ContentLog.Identifies (log : ContentLog) (w : World A) (q : Request) : Prop where
  posts_apart : ∀ p ∈ log.posts, ∀ p' ∈ log.posts, p ≠ p'
    → postKey p.1 p.2 ≠ postKey p'.1 p'.2
  votes_apart : ∀ v ∈ log.votes, ∀ v' ∈ log.votes, v ≠ v'
    → postVoteKey v.1 v.2.1 v.2.2 ≠ postVoteKey v'.1 v'.2.1 v'.2.2
  post_read : ∀ p ∈ q.action.postsNamed q.ctx, (w.rows.getPost p.1 p.2).isSome → p ∈ log.posts
  vote_read : ∀ v ∈ q.action.votesNamed q.ctx,
    (w.rows.postVote (postVoteKey v.1 v.2.1 v.2.2)).isSome → v ∈ log.votes
  queue_read : ∀ account n claim, w.rows.curation (account, n) = some claim
    → (claim.1, claim.2, account) ∈ log.votes ∧ claim ∈ log.posts
  payout : ∀ author permlink, q.action = .payout author permlink → (q.exec w).2.ok = true
    → (author, permlink) ∈ log.posts

/-- `Identifies` holds at every request of a run. -/
def ContentLog.IdentifiesRun : ContentLog → World A → List Request → Prop
  | _, _, [] => True
  | log, w, q :: rest => log.Identifies w q ∧ (log.add w q).IdentifiesRun (q.exec w).1 rest

-----------------------------------------------------------------------------------------
-- The log accounts for the rows
-----------------------------------------------------------------------------------------

/-- Every record, vote and queued claim of the rows is in the log, in which no two entries
collide.
-/
structure ContentLog.Accounts (log : ContentLog) (r : Rows) : Prop where
  post : ∀ key, r.post key ≠ none → ∃ p ∈ log.posts, key = postKey p.1 p.2
  vote : ∀ key, r.postVote key ≠ none → ∃ v ∈ log.votes, key = postVoteKey v.1 v.2.1 v.2.2
  queued : ∀ account n claim, r.curation (account, n) = some claim
    → (claim.1, claim.2, account) ∈ log.votes
  voted : ∀ v ∈ log.votes, (v.1, v.2.1) ∈ log.posts
  posts_apart : ∀ p ∈ log.posts, ∀ p' ∈ log.posts, postWords p = postWords p' → p = p'
  votes_apart : ∀ v ∈ log.votes, ∀ v' ∈ log.votes, voteWords v = voteWords v' → v = v'

/-- What a request writes of the content: new posts under the pairs it publishes, new votes
and claims under the triples it casts successfully.
-/
structure Inscribes (w : World A) (q : Request) : Prop where
  kept : ∀ key, w.rows.post key ≠ none → (q.exec w).1.rows.post key ≠ none
  post : ∀ key, (q.exec w).1.rows.post key ≠ none
    → w.rows.post key ≠ none ∨ ∃ p ∈ q.action.publishes q.ctx, key = postKey p.1 p.2
  vote : ∀ key, (q.exec w).1.rows.postVote key ≠ none → w.rows.postVote key ≠ none
    ∨ ∃ v ∈ (if (q.exec w).2.ok then q.action.casts q.ctx else []),
        key = postVoteKey v.1 v.2.1 v.2.2
  queued : ∀ account n claim, (q.exec w).1.rows.curation (account, n) = some claim
    → w.rows.curation (account, n) = some claim
      ∨ (claim.1, claim.2, account) ∈ if (q.exec w).2.ok then q.action.casts q.ctx else []

/-- Every request inscribes what it names only, as its effect says. -/
theorem Request.inscribes (q : Request) {w : World A} (words : (booksOf w.rows).Words)
    : Inscribes w q := by
  have effect := q.exec_effect w words
  unfold ActionEffect at effect
  split at effect
  · have same := effect.besides.content
    exact ⟨fun _ there => same.post ▸ there, fun _ there => .inl (same.post ▸ there),
      fun _ there => .inl (same.postVote ▸ there), fun _ _ _ there => .inl (same.curation ▸ there)⟩
  · exact ⟨effect.kept, effect.post, effect.vote, effect.queued⟩

/-- After a vote was cast its post is there. -/
theorem Request.cast_posted {q : Request} {w : World A} {v : String × String × String}
    (success : (q.exec w).2.ok = true) (cast : v ∈ q.action.casts q.ctx)
    : ((q.exec w).1.rows.getPost v.1 v.2.1).isSome := by
  rw [Request.exec_of_ok success] at success ⊢
  obtain ⟨ctx, action, unwinds⟩ := q
  cases action <;> simp only [Action.casts, List.not_mem_nil] at cast
  case vote author permlink weightPct =>
      split at cast
      · cases cast
      rename_i nonzero
      obtain rfl := List.mem_singleton.mp cast
      rw [Action.exec_of_program rfl] at success ⊢
      exact (always_serve (vote_authors ctx author permlink weightPct.toInt nonzero)).2 success

/-- A payout of a pair without a record is refused. -/
theorem Request.payout_found {q : Request} {w : World A} {author permlink : String}
    (payout : q.action = .payout author permlink) (success : (q.exec w).2.ok = true)
    : (w.rows.getPost author permlink).isSome := by
  by_contra absent
  have none_there := Option.not_isSome_iff_eq_none.mp absent
  have refused : (State.payout q.ctx author permlink).Always rowsMay
      (fun res _ => res.ok = false) w.rows := by
    simp [State.payout, none_there, fail]
  rw [Request.exec_of_ok success, payout, Action.exec_of_program rfl] at success
  simp [always_serve refused] at success

/-- An action publishes one pair at most. -/
theorem Action.publishes_one (ctx : Ctx) (action : Action) {p p' : String × String}
    (h : p ∈ action.publishes ctx) (h' : p' ∈ action.publishes ctx)
    : p = p' := by
  unfold publishes at h h'
  split at h <;> simp_all

/-- An action casts one triple at most. -/
theorem Action.casts_one (ctx : Ctx) (action : Action) {v v' : String × String × String}
    (h : v ∈ action.casts ctx) (h' : v' ∈ action.casts ctx)
    : v = v' := by
  unfold casts at h h'
  split at h <;> simp_all

/-- A clear pair with a record is in the log: the record's own pair has the same words. -/
theorem ContentLog.Accounts.post_mem {log : ContentLog} {r : Rows} (h : log.Accounts r)
    {p : String × String}
    (clear : ∀ p' ∈ log.posts, postWords p = postWords p' → p = p')
    (there : (r.getPost p.1 p.2).isSome)
    : p ∈ log.posts := by
  obtain ⟨p', known, same⟩ := h.post _ (Option.isSome_iff_ne_none.mp there)
  exact clear p' known ((postKey_eq_iff p p').mp same) ▸ known

/-- The log of a request accounts for the rows it leaves. -/
theorem ContentLog.Accounts.step {log : ContentLog} {w : World A} {q : Request}
    (h : log.Accounts w.rows) (words : (booksOf w.rows).Words) (clear : log.Clear q)
    : (log.add w q).Accounts (q.exec w).1.rows := by
  have inscribed := q.inscribes words
  have clearPost (p : String × String) (named : p ∈ q.action.publishes q.ctx) :=
    clear.1 p (q.action.publishes_named q.ctx named)
  have clearVote (v : String × String × String)
      (named : v ∈ if (q.exec w).2.ok then q.action.casts q.ctx else []) :=
    clear.2 v (q.action.casts_named q.ctx (by split at named; exacts [named, by cases named]))
  -- a published pair is in the log, now or before
  have logged (p : String × String) (named : p ∈ q.action.publishes q.ctx)
      (there : ((q.exec w).1.rows.getPost p.1 p.2).isSome) : p ∈ (log.add w q).posts := by
    cases before : w.rows.getPost p.1 p.2 with
    | none => exact List.mem_append_right _ (List.mem_filter.mpr ⟨named, by simp [before, there]⟩)
    | some record =>
        exact List.mem_append_left _ (h.post_mem (clearPost p named) (by simp [before]))
  refine ⟨fun key there => ?_, fun key there => ?_, fun account n claim there => ?_,
    fun v voted => ?_, fun p known p' known' same => ?_, fun v known v' known' same => ?_⟩
  · rcases inscribed.post key there with old | ⟨p, named, rfl⟩
    · obtain ⟨p, known, same⟩ := h.post key old
      exact ⟨p, List.mem_append_left _ known, same⟩
    · exact ⟨p, logged p named (Option.isSome_iff_ne_none.mpr there), rfl⟩
  · rcases inscribed.vote key there with old | ⟨v, named, rfl⟩
    · obtain ⟨v, known, same⟩ := h.vote key old
      exact ⟨v, List.mem_append_left _ known, same⟩
    · exact ⟨v, List.mem_append_right _ named, rfl⟩
  · rcases inscribed.queued account n claim there with old | named
    · exact List.mem_append_left _ (h.queued account n claim old)
    · exact List.mem_append_right _ named
  · rcases List.mem_append.mp voted with old | new
    · exact List.mem_append_left _ (h.voted v old)
    · split at new
      · rename_i success
        exact logged _ (q.action.casts_publishes q.ctx v new) (Request.cast_posted success new)
      · cases new
  · rcases List.mem_append.mp known with old | new
      <;> rcases List.mem_append.mp known' with old' | new'
    · exact h.posts_apart p old p' old' same
    · exact (clearPost p' (List.mem_filter.mp new').1 p old same.symm).symm
    · exact clearPost p (List.mem_filter.mp new).1 p' old' same
    · exact q.action.publishes_one q.ctx (List.mem_filter.mp new).1 (List.mem_filter.mp new').1
  · rcases List.mem_append.mp known with old | new
      <;> rcases List.mem_append.mp known' with old' | new'
    · exact h.votes_apart v old v' old' same
    · exact (clearVote v' new' v old same.symm).symm
    · exact clearVote v new v' old' same
    · split at new
      · rw [if_pos ‹_›] at new'
        exact q.action.casts_one q.ctx new new'
      · cases new

/-- Where the log accounts for the rows, a clear request reads only what it names. -/
theorem ContentLog.Accounts.identifies {log : ContentLog} {w : World A} {q : Request}
    (h : log.Accounts w.rows) (clear : log.Clear q)
    : log.Identifies w q where
  posts_apart p known p' known' ne same :=
    ne (h.posts_apart p known p' known' ((postKey_eq_iff p p').mp same))
  votes_apart v known v' known' ne same :=
    ne (h.votes_apart v known v' known' ((postVoteKey_eq_iff v v').mp same))
  post_read p named there := h.post_mem (clear.1 p named) there
  vote_read v named there := by
    obtain ⟨v', known, same⟩ := h.vote _ (Option.isSome_iff_ne_none.mp there)
    exact clear.2 v named v' known ((postVoteKey_eq_iff v v').mp same) ▸ known
  queue_read account n claim there :=
    let known := h.queued account n claim there
    ⟨known, h.voted _ known⟩
  payout author permlink payout success :=
    h.post_mem (clear.1 (author, permlink) (by simp [payout, Action.postsNamed]))
      (Request.payout_found payout success)

-----------------------------------------------------------------------------------------
-- The identity of content
-----------------------------------------------------------------------------------------

/-- A clear run from accounted rows identifies all content, by induction on the requests. -/
theorem ContentLog.ClearRun.identifies {log : ContentLog} {w : World A} {requests : List Request}
    (clear : log.ClearRun w requests) (accounts : log.Accounts w.rows) (settled : Settled w.rows)
    : log.IdentifiesRun w requests := by
  induction requests generalizing log w with
  | nil => trivial
  | cons q rest ih =>
      obtain ⟨here, later⟩ := clear
      exact ⟨accounts.identifies here,
        ih later (accounts.step settled.words here) (Request.exec_settled settled)⟩

/-- Nothing is published or voted in a fresh store. -/
theorem initialised_accounts (store : Store) (assets : A) (genesis : UInt64)
    (fresh : store.rows = .empty)
    : ContentLog.empty.Accounts (initialised store assets genesis).rows := by
  have untouched : SameContent Rows.empty (initialised store assets genesis).rows := by
    refine always_serve (w := ⟨store, assets⟩) (Q := fun _ r => SameContent Rows.empty r) ?_
    rw [World.rows, fresh]
    simp only [init, always_bind, always_rows, always_ite, always_pure, always_setRows]
    exact ⟨fun _ => .refl _, fun _ => ⟨fun _ => .refl _, fun _ => ⟨rfl, rfl, rfl⟩⟩⟩
  refine ⟨fun key there => ?_, fun key there => ?_, fun account n claim there => ?_,
    (by rintro _ ⟨⟩), (by rintro _ ⟨⟩), (by rintro _ ⟨⟩)⟩
  · exact absurd rfl (untouched.post ▸ there)
  · exact absurd rfl (untouched.postVote ▸ there)
  · rw [untouched.curation] at there
    cases there

/-- In every run from `Init`, on any ledger, that is clear of collisions, every record belongs
to the names it is read under.
-/
theorem content_identity (store : Store) (assets : A) (genesis : UInt64)
    (requests : List Request) (fresh : store.rows = .empty)
    (clear : ContentLog.empty.ClearRun (initialised store assets genesis) requests)
    : ContentLog.empty.IdentifiesRun (initialised store assets genesis) requests :=
  clear.identifies (initialised_accounts store assets genesis fresh)
    (initialised_settled store assets genesis fresh)

end Requests

/-- A staked account posts, funds its pool and votes; then a payout is asked for a pair that
splits the post's key at another underscore.
-/
def collidingRun : List Request :=
  [⟨.of "hive:owner" 1,
      .creditMigration "hive:a_b" 10000000000 200000000000, false⟩,
    ⟨.of "hive:a_b" 2, .createPost "c" .viral .default, false⟩,
    ⟨.of "hive:a_b" 3, .fundPool "viral" 10000000000, false⟩,
    ⟨.of "hive:a_b" 4, .vote "hive:a_b" "c" 100, false⟩,
    ⟨.of "hive:any" 201602, .payout "hive:a" "b_c", false⟩]

/-- Up to that payout the run is clear. -/
theorem content_identity_before_payout
    : ContentLog.empty.IdentifiesRun (initialised Store.newMem MemAssets.new 1)
      (collidingRun.take 4) :=
  content_identity Store.newMem MemAssets.new 1 _ rfl (by decide +kernel)

/-- The payout succeeds and pays the author's reward to an account that never posted. -/
theorem payout_redirected
    : ¬ContentLog.empty.IdentifiesRun (initialised Store.newMem MemAssets.new 1) collidingRun
      ∧ (results (initialised Store.newMem MemAssets.new 1) collidingRun).all Result.ok = true
      ∧ 0 < (after (initialised Store.newMem MemAssets.new 1) collidingRun).store.balance
        "hive:a" := by
  refine ⟨fun identified => ?_, by decide +kernel⟩
  have paid := identified.2.2.2.2.1.payout "hive:a" "b_c" rfl (by decide +kernel)
  revert paid
  decide +kernel

end LasseCash.State
