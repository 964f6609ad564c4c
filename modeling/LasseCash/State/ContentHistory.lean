import LasseCash.State.SteadyOperations

/-! What the content operations keep of the past, and whose posts and votes they write: a new
post is under the pair that the operation names, a new vote or queued claim under the triple.
-/

namespace LasseCash.State

open Engine MachineInt Function Program

/-- (Authors posts votes r r') says that `r'` has the past and the posts of `r`, and that its
new posts are among `posts`, its new votes and queued claims among `votes`.
-/
structure Authors (posts : List (String × String)) (votes : List (String × String × String))
    (r r' : Rows) : Prop where
  evolves : Evolves r r'
  migration : SameMigration r r'
  kept : ∀ key, r.post key ≠ none → r'.post key ≠ none
  post : ∀ key, r'.post key ≠ none → r.post key ≠ none ∨ ∃ p ∈ posts, key = postKey p.1 p.2
  vote : ∀ key, r'.postVote key ≠ none
    → r.postVote key ≠ none ∨ ∃ v ∈ votes, key = postVoteKey v.1 v.2.1 v.2.2
  queued : ∀ account n claim, r'.curation (account, n) = some claim
    → r.curation (account, n) = some claim ∨ (claim.1, claim.2, account) ∈ votes

section Relation

variable {posts : List (String × String)} {votes : List (String × String × String)}
variable {r r₁ r₂ : Rows}

theorem Steady.authors (h : Steady r r₁) : Authors posts votes r r₁ where
  evolves := h.evolves
  migration := h.migration
  kept _ there := h.content.post ▸ there
  post _ there := .inl (h.content.post ▸ there)
  vote _ there := .inl (h.content.postVote ▸ there)
  queued _ _ _ there := .inl (h.content.curation ▸ there)

theorem Authors.refl (r : Rows) : Authors posts votes r r :=
  (Steady.refl r).authors

theorem Authors.trans (h : Authors posts votes r r₁) (h' : Authors posts votes r₁ r₂)
    : Authors posts votes r r₂ where
  evolves := h.evolves.trans h'.evolves
  migration := h.migration.trans h'.migration
  kept key there := h'.kept key (h.kept key there)
  post key there := (h'.post key there).elim (h.post key) .inr
  vote key there := (h'.vote key there).elim (h.vote key) .inr
  queued account n claim there := (h'.queued account n claim there).elim
    (h.queued account n claim) .inr

theorem Authors.steady (h : Authors posts votes r r₁) (h' : Steady r₁ r₂)
    : Authors posts votes r r₂ :=
  h.trans h'.authors

/-- Naming more allows more. -/
theorem Authors.widen {posts' : List (String × String)}
    {votes' : List (String × String × String)} (h : Authors posts votes r r₁)
    (more : posts ⊆ posts') (moreVotes : votes ⊆ votes')
    : Authors posts' votes' r r₁ where
  evolves := h.evolves
  migration := h.migration
  kept := h.kept
  post key there := (h.post key there).imp_right fun ⟨p, named, same⟩ => ⟨p, more named, same⟩
  vote key there := (h.vote key there).imp_right fun ⟨v, named, same⟩ =>
    ⟨v, moreVotes named, same⟩
  queued account n claim there := (h.queued account n claim there).imp_right fun named =>
    moreVotes named

/-- An operation that names nothing keeps to any names. -/
theorem Authors.any (h : Authors [] [] r r₁) : Authors posts votes r r₁ :=
  h.widen (List.nil_subset _) (List.nil_subset _)

-----------------------------------------------------------------------------------------
-- Writes
-----------------------------------------------------------------------------------------

/-- Writing under the named pair, by cases on the key. -/
theorem Authors.putPost (h : Authors posts votes r r₁) (author permlink : String) (p : PostRec)
    (named : (author, permlink) ∈ posts ∨ (r₁.getPost author permlink).isSome)
    : Authors posts votes r (r₁.putPost author permlink p) := by
  refine h.trans { (Authors.refl r₁ : Authors posts votes r₁ r₁) with
    evolves := { Evolves.refl r₁ with calendar := fun c => ⟨c.settled, c.word, c.emitted⟩ }
    migration := { SameMigration.refl r₁ with }
    kept := fun key there => by
      by_cases same : key = postKey author permlink <;> simp [same, there]
    post := fun key there => ?_ }
  by_cases same : key = postKey author permlink
  · rcases named with named | known
    · exact .inr ⟨_, named, same⟩
    · exact .inl (by rw [same]; exact Option.isSome_iff_ne_none.mp known)
  · exact .inl (by simpa [same] using there)

/-- Writing a vote record under the named triple, or dropping one. -/
theorem Authors.setPostVote (h : Authors posts votes r r₁) (author permlink voter : String)
    (rshares : Option Int) (named : rshares = none ∨ (author, permlink, voter) ∈ votes)
    : Authors posts votes r (r₁.setPostVote (postVoteKey author permlink voter) rshares) := by
  refine h.trans { (Authors.refl r₁ : Authors posts votes r₁ r₁) with
    evolves := { Evolves.refl r₁ with calendar := fun c => ⟨c.settled, c.word, c.emitted⟩ }
    migration := { SameMigration.refl r₁ with }
    vote := fun key there => ?_ }
  by_cases same : key = postVoteKey author permlink voter
  · rcases named with gone | named
    · exact absurd (by simp [same, gone]) there
    · exact .inr ⟨_, named, same⟩
  · exact .inl (by simpa [same] using there)

/-- Queueing a claim on the named triple, or dropping one. -/
theorem Authors.setCuration (h : Authors posts votes r r₁) (account : String) (n : Nat)
    (slot : Option (String × String))
    (named : ∀ claim, slot = some claim → (claim.1, claim.2, account) ∈ votes)
    : Authors posts votes r (r₁.setCuration account n slot) := by
  refine h.trans { (Authors.refl r₁ : Authors posts votes r₁ r₁) with
    evolves := { Evolves.refl r₁ with calendar := fun c => ⟨c.settled, c.word, c.emitted⟩ }
    migration := { SameMigration.refl r₁ with }
    queued := fun account' n' claim there => ?_ }
  by_cases same : (account', n') = (account, n)
  · obtain ⟨rfl, rfl⟩ := Prod.mk.inj same
    exact .inr (named claim (by simpa using there))
  · exact .inl (by simpa [same] using there)

theorem Authors.drop (h : Authors posts votes r r₁) (account : String) (n : Nat)
    : Authors posts votes r (r₁.setCuration account n none) :=
  h.setCuration account n none (by simp)

/-- The head's run over settled slots, by induction on the slots before the tail. -/
theorem Authors.advanceHead (h : Authors posts votes r r₁) (account : String) (togo head : Nat)
    : Authors posts votes r (advanceHead account togo head r₁) := by
  have stop (r₂ : Rows) (head : Nat) :=
    ((Aside.refl r₂).setU64 (.cqHead account) head rfl).steady
  induction togo generalizing head r₁ with
  | zero => exact h.steady (stop _ _)
  | succ togo ih =>
      unfold State.advanceHead
      split
      · exact h.steady (stop _ _)
      · exact ih (h.drop account head) _

end Relation

-----------------------------------------------------------------------------------------
-- Posting
-----------------------------------------------------------------------------------------

variable {r : Rows}

theorem createContent_authors (ctx : Ctx) (permlink : String) (window : Window)
    (mode : PayoutMode) (parentAuthor parentPermlink : String)
    : (createContent ctx permlink window mode parentAuthor parentPermlink).Always rowsMay
      (fun _ r' => Authors [(ctx.sender, permlink)] [] r r') r := by
  have posted (p : PostRec) :=
    (Authors.refl r : Authors _ [] r r).putPost ctx.sender permlink p (.inl (List.mem_singleton_self _))
  simp [createContent, Authors.refl, posted]

theorem createComment_authors (ctx : Ctx) (permlink : String) (mode : PayoutMode)
    (parentAuthor parentPermlink : String)
    : (createComment ctx permlink mode parentAuthor parentPermlink).Always rowsMay
      (fun _ r' => Authors [(ctx.sender, permlink)] [] r r') r := by
  simp only [createComment, always_bind, always_ite, always_pure, always_rows]
  exact ⟨fun _ => .refl r, fun _ => ⟨fun _ => .refl r, fun _ =>
    createContent_authors ctx permlink .viral mode parentAuthor parentPermlink⟩⟩

/-- Registering names the pair, and leaves a record under it when it succeeds. -/
theorem registerForAuthor_authors (ctx : Ctx) (author permlink : String)
    : (registerForAuthor ctx author permlink).Always rowsMay
      (fun res r' => Authors [(author, permlink)] [] r r'
        ∧ (res.ok = true → (r'.getPost author permlink).isSome)) r := by
  have posted (p : PostRec) :=
    (Authors.refl r : Authors _ [] r r).putPost author permlink p (.inl (List.mem_singleton_self _))
  simp [registerForAuthor, Authors.refl, posted, fail, Rows.getPost]

theorem promotePost_authors (ctx : Ctx) (author permlink : String) (amt : Int)
    : (promotePost ctx author permlink amt).Always rowsMay
      (fun _ r' => Authors [] [] r r') r := by
  simp only [promotePost, always_bind, always_rows, always_ite, always_pure]
  refine ⟨fun _ => .refl r, fun _ => ?_⟩
  cases found : r.getPost author permlink with
  | none => exact .refl r
  | some p =>
      simp only [always_bind, always_ite, always_pure, always_debit]
      refine ⟨fun _ => .refl r, fun _ => ⟨fun _ => .refl r, fun _ => ⟨fun _ => .refl r, fun _ =>
        ⟨fun _ => .refl r, fun _ => ⟨fun _ => .refl r, fun _ b => ⟨fun _ => .refl r, fun _ => ?_⟩⟩⟩⟩⟩⟩
      refine always_mono (fun _ r₁ burned => ?_) (burn_steady amt)
      have known : (r₁.getPost author permlink).isSome := by
        rw [Rows.getPost, burned.content.post, ← Rows.getPost, found]
        rfl
      have promoted := (burned.authors : Authors [] [] r r₁).putPost author permlink
        { p with promoted := i64 (p.promoted + amt) } (.inr known)
      simp only [always_modify]
      exact ⟨fun _ => burned.authors, fun _ => promoted⟩

-----------------------------------------------------------------------------------------
-- Payout and curation
-----------------------------------------------------------------------------------------

theorem payReward_steady (ctx : Ctx) (account : String) (amount : Int) (mode : PayoutMode)
    : (payReward ctx account amount mode).Always rowsMay (fun _ r' => Steady r r') r := by
  have accrued (r₁ : Rows) (amt : Int) :=
    ((Aside.refl r₁).accruePending account amt ctx.epoch).steady
  have noted := ((Aside.refl r).noteAccount account).steady
  have both (amt : Int) := noted.trans (accrued _ amt)
  unfold payReward
  simp only [always_ite, always_pure]
  refine ⟨fun _ => .refl r, fun _ => ?_⟩
  cases mode with
  | burn => exact burn_steady amount
  | powerUp => simp [accrued]
  | default => simp [Steady.refl, accrued, both]

theorem payout_authors (ctx : Ctx) (author permlink : String)
    : (payout ctx author permlink).Always rowsMay (fun _ r' => Authors [] [] r r') r := by
  simp only [payout, always_bind, always_rows, always_ite, always_pure]
  refine ⟨fun _ => .refl r, fun _ => ?_⟩
  cases found : r.getPost author permlink with
  | none => exact .refl r
  | some p =>
      simp only [always_bind, always_ite, always_pure, always_rows, always_setRows]
      refine ⟨fun _ => .refl r, fun _ => ⟨fun _ => .refl r, fun _ => ?_⟩⟩
      refine always_mono (fun _ r₁ settled => ?_) (settle_steady ctx)
      have taken := settled.trans ((Aside.refl r₁).claimPool p.window p.rshares).steady
      have known : ((claimPool r₁ p.window p.rshares).2.getPost author permlink).isSome := by
        rw [Rows.getPost, taken.content.post, ← Rows.getPost, found]
        rfl
      have recorded (next : PostRec) :=
        (taken.authors : Authors [] [] r _).putPost author permlink next (.inr known)
      refine ⟨fun _ => recorded _, fun _ => ?_⟩
      exact always_mono (fun _ r₂ paid => ⟨fun _ => (recorded _).steady paid,
        fun _ => (recorded _).steady paid⟩) (payReward_steady ctx author _ p.mode)

theorem claimCuration_authors (ctx : Ctx) (author permlink curator : String)
    : (claimCuration ctx author permlink curator).Always rowsMay
      (fun _ r' => Authors [] [] r r') r := by
  unfold claimCuration
  generalize (if curator = "" then ctx.sender else curator) = curator
  simp only [always_bind, always_rows]
  cases found : r.getPost author permlink with
  | none => exact .refl r
  | some p =>
      dsimp only
      split
      · exact .refl r
      simp only [always_ite, always_pure]
      refine ⟨fun _ => .refl r, fun _ => ?_⟩
      cases r.postVote (postVoteKey author permlink curator) with
      | none => exact .refl r
      | some mine =>
          have dropped (r₁ : Rows) (kept : Authors [] [] r r₁) :=
            kept.setPostVote author permlink curator none (.inl rfl)
          have spent (next : PostRec) := dropped _ <|
            (Authors.refl r : Authors [] [] r r).putPost author permlink next (.inr (by simp [found]))
          simp only [always_bind, always_ite, always_pure, always_setRows]
          refine ⟨fun _ => dropped r (.refl r), fun _ => ⟨fun _ => dropped r (.refl r), fun _ => ?_⟩⟩
          exact always_mono (fun _ _ paid => ⟨fun _ => (spent _).steady paid,
            fun _ => (spent _).steady paid⟩) (payReward_steady ctx curator _ .default)

theorem sweepCuration_authors (ctx : Ctx) (author permlink : String)
    : (sweepCuration ctx author permlink).Always rowsMay (fun _ r' => Authors [] [] r r') r := by
  simp only [sweepCuration, always_bind, always_rows]
  cases found : r.getPost author permlink with
  | none => exact .refl r
  | some p =>
      have emptied (next : PostRec) (amt : Int) :=
        ((Authors.refl r : Authors [] [] r r).putPost author permlink next
          (.inr (by simp [found]))).steady ((Aside.refl _).recycle amt).steady
      simp [Authors.refl, emptied]

-----------------------------------------------------------------------------------------
-- The curation queue
-----------------------------------------------------------------------------------------

/-- The scan settles queued claims only, by induction on the slots to go. -/
theorem drainScan_authors (ctx : Ctx) (account : String) (togo n : Nat)
    : (drainScan ctx account togo n).Always rowsMay (fun _ r' => Authors [] [] r r') r := by
  induction togo generalizing r n with
  | zero => exact .refl r
  | succ togo ih =>
      have rest (r₁ : Rows) (kept : Authors [] [] r r₁)
          : (drainScan ctx account togo (n + 1)).Always rowsMay
            (fun _ r' => Authors [] [] r r') r₁ :=
        always_mono (fun _ _ later => kept.trans later) (ih (n + 1))
      unfold drainScan
      simp only [always_bind, always_rows]
      cases r.curation (account, n) with
      | none => exact rest r (.refl r)
      | some claim =>
          obtain ⟨author, permlink⟩ := claim
          dsimp only
          cases r.getPost author permlink with
          | none =>
              simp only [always_bind, always_modify]
              exact rest _ ((Authors.refl r).drop account n)
          | some p =>
              simp only [always_ite, always_bind, always_modify, always_pure]
              refine ⟨fun _ => rest r (.refl r), fun _ => ?_⟩
              exact always_mono (fun _ _ claimed => rest _ (claimed.drop account n))
                (claimCuration_authors ctx author permlink account)

theorem drainCuration_authors (ctx : Ctx) (account : String) (limit : Nat)
    : (drainCuration ctx account limit).Always rowsMay (fun _ r' => Authors [] [] r r') r := by
  simp only [drainCuration, always_bind, always_rows, always_modify, always_pure]
  exact always_mono (fun _ _ scanned => scanned.advanceHead account _ _)
    (drainScan_authors ctx account _ _)

-----------------------------------------------------------------------------------------
-- Voting
-----------------------------------------------------------------------------------------

/-- The rshares of a window are not watched. -/
theorem Aside.setRshares {r r₁ : Rows} (h : Aside r r₁) (w : Window) (v : Int)
    : Aside r (r₁.setAmount (rsharesKey w) v) := by
  cases w <;> exact h.setAmount _ v (by rfl)

theorem unvote_authors (ctx : Ctx) (author permlink : String)
    : (unvote ctx author permlink).Always rowsMay (fun _ r' => Authors [] [] r r') r := by
  simp only [unvote, always_bind, always_rows]
  cases found : r.getPost author permlink with
  | none => exact .refl r
  | some p =>
      simp only [always_ite, always_pure]
      refine ⟨fun _ => .refl r, fun _ => ?_⟩
      cases r.postVote (postVoteKey author permlink ctx.sender) with
      | none => exact .refl r
      | some prev =>
          simp only [always_bind, always_setRows, always_pure]
          exact (((Authors.refl r : Authors [] [] r r).putPost author permlink _
            (.inr (by simp [found]))).setPostVote author permlink ctx.sender none
              (.inl rfl)).steady ((Aside.refl _).setRshares p.window _).steady

/-- Opening a post leaves a record under its pair, unless it is refused. -/
theorem openPost_authors (ctx : Ctx) (author permlink : String)
    : (openPost ctx author permlink).Always rowsMay
      (fun p r' => Authors [(author, permlink)] [] r r'
        ∧ (∀ refusal, p = .error refusal → refusal.ok = false)
        ∧ ∀ opened, p = .ok opened → r'.getPost author permlink = some opened) r := by
  simp only [openPost, always_bind, always_rows]
  cases found : r.getPost author permlink with
  | some p =>
      refine ⟨.refl r, (by rintro _ ⟨⟩), ?_⟩
      rintro opened ⟨⟩
      exact found
  | none =>
      simp only [always_bind, always_ite, always_pure, always_rows]
      refine always_mono (fun reg r₁ registered => ⟨fun refused => ?_, fun accepted => ?_⟩)
        (registerForAuthor_authors ctx author permlink)
      · refine ⟨registered.1, ?_, (by rintro _ ⟨⟩)⟩
        rintro _ ⟨⟩
        simpa using refused
      · obtain ⟨p, opened⟩ := Option.isSome_iff_exists.mp (registered.2 (by simpa using accepted))
        rw [opened]
        refine ⟨registered.1, (by rintro _ ⟨⟩), ?_⟩
        rintro _ ⟨⟩
        exact opened

/-- Writing a vote names its triple. -/
theorem writeVote_authors {posts : List (String × String)} (ctx : Ctx)
    (author permlink : String) (p : PostRec) (rshares : Int) (power : VotePower)
    (known : (r.getPost author permlink).isSome)
    : Authors posts [(author, permlink, ctx.sender)] r
      (writeVote r ctx author permlink p rshares power) := by
  have named := List.mem_singleton_self (author, permlink, ctx.sender)
  have queued : Authors posts [(author, permlink, ctx.sender)] r
      (if (r.postVote (postVoteKey author permlink ctx.sender)).isNone then
        cqAppend r ctx.sender author permlink
      else r) := by
    split
    · refine ((Authors.refl r).setCuration _ _ _ ?_).steady
        ((Aside.refl _).setU64 (.cqTail _) _ (by rfl)).steady
      rintro claim ⟨⟩
      exact named
    · exact .refl r
  have still : ((if (r.postVote (postVoteKey author permlink ctx.sender)).isNone then
        cqAppend r ctx.sender author permlink
      else r).getPost author permlink).isSome := by
    split <;> exact known
  have written (next : PostRec) := (queued.putPost author permlink next (.inr still)).setPostVote
    author permlink ctx.sender (some rshares) (.inr named)
  exact (written _).steady (((Aside.refl _).putVotePower ctx.sender p.window power).setRshares
    p.window _).steady

/-- A vote of weight zero names nothing. -/
theorem withdraw_authors (ctx : Ctx) (author permlink : String)
    : (vote ctx author permlink 0).Always rowsMay (fun _ r' => Authors [] [] r r') r := by
  simp [vote, Authors.refl, unvote_authors]

/-- A vote names its pair, and its triple when it succeeds; then the post is there. -/
theorem vote_authors (ctx : Ctx) (author permlink : String) (weightPct : Int)
    (cast : weightPct ≠ 0)
    : (vote ctx author permlink weightPct).Always rowsMay
      (fun res r' => Authors [(author, permlink)]
          (if res.ok then [(author, permlink, ctx.sender)] else []) r r'
        ∧ (res.ok = true → (r'.getPost author permlink).isSome)) r := by
  have refused {res : Result} {r' : Rows} (kept : Authors [(author, permlink)] [] r r')
      (refusal : res.ok = false)
      : Authors [(author, permlink)]
          (if res.ok then [(author, permlink, ctx.sender)] else []) r r'
        ∧ (res.ok = true → (r'.getPost author permlink).isSome) := by
    simpa [refusal] using kept
  simp only [vote, always_bind, always_rows, always_ite, always_pure]
  refine ⟨fun _ => refused (.refl r) rfl, fun _ => ⟨fun _ => refused (.refl r) rfl, fun _ =>
    ⟨fun zero => absurd zero cast, fun _ => ?_⟩⟩⟩
  refine always_mono (fun p r₁ opened => ?_) (openPost_authors ctx author permlink)
  obtain ⟨opened, refusals, found⟩ := opened
  rcases p with reg | p
  · exact refused opened (refusals reg rfl)
  simp only [always_bind, always_rows, always_ite, always_pure]
  refine ⟨fun _ => refused opened rfl, fun _ => ⟨fun _ => refused opened rfl, fun _ => ?_⟩⟩
  cases (r₁.getVotePower ctx.sender p.window).spend p.window ctx.height weightPct with
  | none => exact refused opened rfl
  | some power =>
      simp only [always_bind, always_ite, always_pure, always_setRows]
      refine ⟨fun _ => refused opened rfl, fun _ => ?_⟩
      have there := found p rfl
      have written : Authors [(author, permlink)] _ r₁ _ :=
        writeVote_authors ctx author permlink p
          (voteWeight (sharesOf r₁ ctx.sender) (voteCost weightPct)) power
          (Option.isSome_of_mem there)
      refine always_mono (fun _ r₂ drained => ?_)
        (drainCuration_authors ctx ctx.sender piggybackDrain)
      have later := written.trans drained.any
      refine ⟨(opened.widen (List.Subset.refl _) (List.nil_subset _)).trans later, fun _ => ?_⟩
      refine Option.isSome_iff_ne_none.mpr (later.kept _ ?_)
      rw [← Rows.getPost, there]
      exact Option.some_ne_none _

theorem settlePending_authors (ctx : Ctx) (account : String)
    : (settlePending ctx account).Always rowsMay (fun _ r' => Authors [] [] r r') r := by
  simp only [settlePending, always_bind, always_rows, always_ite, always_pure]
  refine ⟨fun _ => .refl r, fun _ => ?_⟩
  refine always_mono (fun _ r₁ drained => ?_) (drainCuration_authors ctx account maxCurationDrain)
  have pending (r₂ : Rows) (p : PendingAccount) := ((Aside.refl r₂).putPending account p).steady
  simp only [always_setRows]
  refine ⟨fun _ => drained.steady (pending _ _), fun _ => ⟨fun _ => drained, fun _ => ⟨fun _ =>
    drained, fun _ => ?_⟩⟩⟩
  refine always_mono (fun b r₂ walked => ?_) (accrue_walked ctx)
  have caughtUp := drained.steady walked.steady
  refine ⟨fun _ => caughtUp, fun _ => ?_⟩
  split
  · simp only [always_bind, always_setRows, always_pure]
    exact caughtUp.steady ((pending _ _).trans (pending _ _))
  · simp only [always_bind, always_setRows, always_pure]
    exact always_mono (fun _ _ registered => (caughtUp.steady (pending _ _)).steady registered)
      (registerMints_steady ctx.height _ (.inl ctx.height_lt))

end LasseCash.State
