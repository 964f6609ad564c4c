import LasseCash.Engine.VoteMeter
import LasseCash.State.StepSides

/-! How fast an account can vote: every accepted vote takes its cost out of the meter of the post's
window, nothing else writes a meter, and so no sequence of votes outruns the regeneration.
-/

namespace LasseCash.State

open Engine MachineInt Program TokenBucket ProRata

variable {o : Origin} {r r' : Rows}

-----------------------------------------------------------------------------------------
-- One operation
-----------------------------------------------------------------------------------------

/-- The window that a vote on a post falls into; an unknown post is registered as a viral one. -/
def votedWindow (r : Rows) (author permlink : String) : Window :=
  ((r.getPost author permlink).map (·.window)).getD .viral

/-- No step of another operation than a vote writes a meter, by cases on the step. -/
theorem ContentWrite.votePower (h : ContentWrite o r r')
    (other : ∀ author permlink weightPct, o.action ≠ .vote author permlink weightPct)
    : r'.votePower = r.votePower := by
  have still : Touches [.posts, .votes, .tallies] r r := .refl r
  cases h with
  | publish author permlink window mode parentAuthor parentPermlink asked unknown =>
      exact (still.putPost author permlink _ (by rfl)).votePower (by rfl)
  | boost author permlink p amt found => exact (still.putPost author permlink _ (by rfl)).votePower (by rfl)
  | owe account amount => exact (accruePending_touches r account amount _).votePower (by rfl)
  | pay author permlink p asked accrued found unpaid closed =>
      exact (payoutRows_touches r _ author permlink p).votePower (by rfl)
  | forfeit author permlink curator p mine due found paid vote worthless =>
      exact (still.setPostVote _ none (by rfl)).votePower (by rfl)
  | claim author permlink curator p mine due found paid pot base vote positive worth =>
      exact ((still.putPost author permlink _ (by rfl)).setPostVote _ none (by rfl)).votePower (by rfl)
  | sweepPot author permlink p found paid pot ripe =>
      exact ((recycle_touches _ _).votePower rfl).trans
        ((still.putPost author permlink _ (by rfl)).votePower (by rfl))
  | clearSlot account author permlink n queued settled =>
      exact ((Touches.refl r).setCuration account n none rfl : Touches [.queues] r _).votePower (by rfl)
  | advanceHead account => exact (advanceHead_touches account _ _ r).votePower (by rfl)
  | unvote author permlink weightPct p prev asked found unpaid open_ vote =>
      exact absurd asked (other author permlink weightPct)
  | vote author permlink weightPct p power asked found unpaid open_ opened positive =>
      exact absurd asked (other author permlink weightPct)
  | roll account => rfl

theorem Step.votePower {whole : Prop} (h : Step o whole r r')
    (other : ∀ author permlink weightPct, o.action ≠ .vote author permlink weightPct)
    : r'.votePower = r.votePower := by
  cases h with
  | ledger step => exact step.touches.votePower rfl
  | mint step => exact step.touches.votePower rfl
  | content step => exact step.votePower other
  | liquidity step => exact step.touches.votePower rfl
  | migration step => exact step.touches.votePower rfl

/-- Withdrawing a vote gives back no power. -/
theorem unvote_votePower (author permlink : String)
    : Asks o (unvote o.ctx author permlink) (fun _ r' => r'.votePower = r.votePower) r := by
  simp only [unvote, Asks, wp_bind, asks_rows]
  cases r.getPost author permlink with
  | none => trivial
  | some p =>
      simp only [wp_ite, wp_pure]
      refine ⟨fun _ => trivial, fun _ => ?_⟩
      cases r.postVote (postVoteKey author permlink o.ctx.sender) with
      | none => trivial
      | some prev =>
          simp only [wp_bind, asks_setRows, wp_pure]
          refine ⟨?_, rfl⟩
          cases p.window <;> exact ⟨rfl, rfl, fun _ => id⟩

/-- (Metered o author permlink weightPct res r') says what a vote does to the meters: it has been
accepted and has taken its cost, or it weighs nothing or was refused and no meter has changed.
-/
def Metered (o : Origin) (author permlink : String) (weightPct : Int) (res : Result) (r' : Rows)
    : Prop :=
  (r'.votePower = o.start.votePower ∧ (res.ok = false ∨ weightPct = 0))
    ∨ res.ok = true ∧ ∃ power,
      (o.start.getVotePower o.ctx.sender (votedWindow o.start author permlink)).spend
          (votedWindow o.start author permlink) o.ctx.height weightPct = some power
        ∧ r'.votePower = Function.update o.start.votePower
          (o.ctx.sender, votedWindow o.start author permlink) (some power)

theorem writeVote_votePower (r : Rows) (ctx : Ctx) (author permlink : String) (p : PostRec)
    (rshares : Int) (power : VotePower)
    : (writeVote r ctx author permlink p rshares power).votePower
      = Function.update r.votePower (ctx.sender, p.window) (some power) := by
  unfold writeVote
  dsimp only
  split <;> rfl

theorem vote_metered (author permlink : String) (weightPct : Int)
    : Asks o (vote o.ctx author permlink weightPct) (Metered o author permlink weightPct)
      o.start := by
  simp only [vote, Asks, wp_bind, asks_rows, wp_ite, wp_pure]
  refine ⟨fun _ => .inl ⟨rfl, .inl rfl⟩, fun _ => ⟨fun _ => .inl ⟨rfl, .inl rfl⟩, fun _ =>
    ⟨fun nothing => ?_, fun _ => ?_⟩⟩⟩
  · exact (unvote_votePower author permlink).mono fun _ _ same => .inl ⟨same, .inr nothing⟩
  refine (openPost_asks o author permlink).mono fun opened r₁ h => ?_
  -- the post that is voted on, in rows whose meters are those of the start
  have cast (p : PostRec) (r₁ : Rows) (same : r₁.votePower = o.start.votePower)
      (window : p.window = votedWindow o.start author permlink)
      : Asks o (castVote o.ctx author permlink weightPct p) (Metered o author permlink weightPct)
        r₁ := by
    have meter : r₁.getVotePower o.ctx.sender p.window
        = o.start.getVotePower o.ctx.sender p.window := by
      rw [Rows.getVotePower, Rows.getVotePower, same]
    simp only [castVote, Asks, wp_bind, asks_rows, wp_ite, wp_pure, meter]
    refine ⟨fun _ => .inl ⟨same, .inl rfl⟩, fun _ => ⟨fun _ => .inl ⟨same, .inl rfl⟩, fun _ => ?_⟩⟩
    cases spent : (o.start.getVotePower o.ctx.sender p.window).spend p.window o.ctx.height
        weightPct with
    | none => exact .inl ⟨same, .inl rfl⟩
    | some power =>
        simp only [wp_bind, wp_ite, wp_pure, asks_setRows]
        refine ⟨fun _ => .inl ⟨same, .inl rfl⟩, fun _ =>
          ⟨((writeVote_touches r₁ o.ctx author permlink p _ power).sameSupply (by rfl) (by rfl)), ?_⟩⟩
        refine (drainCuration_asks o.ctx.sender piggybackDrain).mono fun _ r₂ drained => .inr ?_
        refine ⟨rfl, power, window ▸ spent, ?_⟩
        rw [(drained.2.votePower rfl), ← window, ← same]
        exact writeVote_votePower r₁ o.ctx author permlink p _ power
  rcases h with ⟨⟨reg, rfl, refused⟩, rfl⟩ | ⟨⟨p, rfl, found⟩, rfl⟩ | ⟨unknown, rfl, rfl⟩
  · exact .inl ⟨rfl, .inl refused⟩
  · exact cast p _ rfl (by simp [votedWindow, found])
  · exact cast _ _ rfl (by simp [votedWindow, unknown, registeredBy])

-----------------------------------------------------------------------------------------
-- Requests
-----------------------------------------------------------------------------------------

section Worlds

variable {A : Type} [Assets A] {w : World A} {q : Request} {account : String} {window : Window}

/-- The height of an accepted vote of the account on the window, and the power that it has spent. -/
def acceptedVote (account : String) (window : Window) (w : World A) (q : Request)
    : Option (Nat × Int) :=
  match q.action with
  | .vote author permlink weightPct =>
      if q.ctx.sender = account ∧ votedWindow w.rows author permlink = window
          ∧ weightPct.toInt ≠ 0 ∧ (q.exec w).2.ok = true then
        some (q.ctx.height, voteCost weightPct.toInt)
      else none
  | _ => none

/-- The accepted votes of a run. -/
def acceptedVotes (account : String) (window : Window) : World A → List Request → List (Nat × Int)
  | _, [] => []
  | w, q :: rest =>
      (acceptedVote account window w q).toList ++ acceptedVotes account window (q.exec w).1 rest

/-- A request that votes does to the meters what its vote does. -/
theorem Request.exec_metered {author permlink : String} {weightPct : Int64}
    (asked : q.action = .vote author permlink weightPct)
    : Metered (q.origin w) author permlink weightPct.toInt (q.exec w).2 (q.exec w).1.rows := by
  have ran : Metered (q.origin w) author permlink weightPct.toInt (q.action.exec q.ctx w).2
      (q.action.exec q.ctx w).1.rows := by
    rw [Action.exec_of_program (p := vote q.ctx author permlink weightPct.toInt)
      (by rw [asked]; rfl)]
    exact asks_serve id (vote_metered (o := q.origin w) author permlink weightPct.toInt)
  unfold Request.exec
  dsimp only
  split
  · rename_i unwound
    simp only [Bool.and_eq_true, Bool.not_eq_true'] at unwound
    exact .inl ⟨rfl, .inl unwound.2⟩
  · exact ran

/-- Any other request leaves the meters. -/
theorem Request.exec_votePower
    (other : ∀ author permlink weightPct, q.action ≠ .vote author permlink weightPct)
    : (q.exec w).1.rows.votePower = w.rows.votePower :=
  (q.exec_steps w).keep (I := fun r => r.votePower = w.rows.votePower)
    (fun _ _ same step => (step.votePower other).trans same) rfl

/-- A meter changes by an accepted vote on its window only, which has spent what it tells. -/
theorem Request.exec_meter (account : String) (window : Window) (w : World A) (q : Request)
    : (acceptedVote account window w q = none
        ∧ (q.exec w).1.rows.votePower (account, window) = w.rows.votePower (account, window))
      ∨ ∃ weightPct power,
        (w.rows.getVotePower account window).spend window q.ctx.height weightPct = some power
        ∧ acceptedVote account window w q = some (q.ctx.height, voteCost weightPct)
        ∧ (q.exec w).1.rows.votePower (account, window) = some power := by
  by_cases votes : ∃ author permlink weightPct, q.action = .vote author permlink weightPct
  swap
  · have other : ∀ author permlink weightPct, q.action ≠ .vote author permlink weightPct :=
      fun author permlink weightPct asked => votes ⟨author, permlink, weightPct, asked⟩
    refine .inl ⟨?_, congrFun (q.exec_votePower other) _⟩
    unfold acceptedVote
    split
    · rename_i author permlink weightPct asked
      exact absurd asked (other author permlink weightPct)
    · rfl
  obtain ⟨author, permlink, weightPct, asked⟩ := votes
  simp only [acceptedVote, asked]
  rcases q.exec_metered (w := w) asked with ⟨same, idle⟩ | ⟨accepted, power, spent, written⟩
  · have refused : ¬(q.ctx.sender = account ∧ votedWindow w.rows author permlink = window
        ∧ weightPct.toInt ≠ 0 ∧ (q.exec w).2.ok = true) := by
      rintro ⟨-, -, weighs, accepted⟩
      rcases idle with refused | nothing
      · rw [refused] at accepted
        cases accepted
      · exact weighs nothing
    rw [if_neg refused]
    exact .inl ⟨rfl, congrFun same _⟩
  · have weighs : weightPct.toInt ≠ 0 := by
      intro nothing
      have costs := (VotePower.spend_eq_some spent).1
      rw [nothing] at costs
      exact absurd costs (by decide)
    by_cases own : q.ctx.sender = account ∧ votedWindow w.rows author permlink = window
    · obtain ⟨rfl, rfl⟩ := own
      rw [if_pos ⟨rfl, rfl, weighs, accepted⟩]
      refine .inr ⟨weightPct.toInt, power, spent, rfl, ?_⟩
      rw [written]
      exact Function.update_self ..
    · rw [if_neg fun all => own ⟨all.1, all.2.1⟩]
      refine .inl ⟨rfl, ?_⟩
      rw [written]
      refine Function.update_of_ne (fun same => own ?_) ..
      obtain ⟨sender, voted⟩ := Prod.mk.inj same
      exact ⟨sender.symm, voted.symm⟩

-----------------------------------------------------------------------------------------
-- Runs
-----------------------------------------------------------------------------------------

/-- (MetersWithin r) says that every stored meter holds a fraction of the whole. -/
def MetersWithin (r : Rows) : Prop := ∀ key vp, r.votePower key = some vp → vp.Within

omit [Assets A] in
theorem MetersWithin.getVotePower (within : MetersWithin w.rows) (account : String)
    (window : Window)
    : (w.rows.getVotePower account window).Within := by
  unfold Rows.getVotePower
  cases stored : w.rows.votePower (account, window) with
  | none => exact VotePower.newVotePower_within 0
  | some vp => exact within _ vp stored

/-- Every request keeps the meters within bounds. -/
theorem Request.exec_metersWithin (within : MetersWithin w.rows) (q : Request)
    : MetersWithin (q.exec w).1.rows := by
  rintro ⟨account, window⟩ vp stored
  rcases q.exec_meter account window w with ⟨_, same⟩ | ⟨weightPct, power, spent, _, written⟩
  · exact within _ vp (same ▸ stored)
  · obtain rfl := Option.some.inj (written.symm.trans stored)
    exact VotePower.spend_within spent

/-- The accepted votes of a run draw on the meter's bucket, by induction on the requests. -/
theorem acceptedVotes_draw (within : MetersWithin w.rows) (requests : List Request)
    (word : ∀ v ∈ acceptedVotes account window w requests, v.1 < 2 ^ 36)
    : Draws multScale window.regenHeights (w.rows.getVotePower account window).bucket
        (acceptedVotes account window w requests) := by
  induction requests generalizing w with
  | nil => trivial
  | cons q rest ih =>
      have next := q.exec_metersWithin within
      unfold acceptedVotes at word ⊢
      rcases q.exec_meter account window w with ⟨idle, same⟩
        | ⟨weightPct, power, spent, accepted, written⟩
      · rw [idle] at word ⊢
        have meter : (q.exec w).1.rows.getVotePower account window
            = w.rows.getVotePower account window := by
          rw [Rows.getVotePower, Rows.getVotePower, same]
        exact meter ▸ ih next word
      · rw [accepted] at word ⊢
        simp only [Option.toList_some, List.singleton_append, List.mem_cons, forall_eq_or_imp]
          at word ⊢
        have meter : (q.exec w).1.rows.getVotePower account window = power := by
          rw [Rows.getVotePower, written]
          rfl
        have later := ih next word.2
        obtain ⟨_, covered, rfl⟩ := VotePower.spend_eq_some spent
        have held := VotePower.current_eq (w := window) (within.getVotePower account window) word.1
        rw [meter] at later
        rw [held] at covered later
        exact ⟨covered, later⟩

/-- The rate limit of voting: what the accepted votes of an account on one window spend between two
heights, the bounds of every stored meter, that withdrawing a vote gives nothing back, and that a
vote on one window leaves the meters of the other.
-/
theorem votes_rateLimited (account : String) (window : Window)
    : (∀ (w : World A) (requests : List Request) (start stop : Nat), MetersWithin w.rows
        → stop < 2 ^ 36
        → ((acceptedVotes account window w requests).map Prod.fst).Pairwise (· ≤ ·)
        → (∀ v ∈ acceptedVotes account window w requests, start ≤ v.1 ∧ v.1 ≤ stop)
        → ((acceptedVotes account window w requests).map Prod.snd).sum
          ≤ multScale + ((stop - start : Nat) : Int) * multScale / window.regenHeights)
      ∧ (∀ (store : Store) (assets : A) (genesis : UInt64) (requests : List Request),
        store.rows = .empty → MetersWithin (after (initialised store assets genesis) requests).rows)
      ∧ (∀ (w : World A) (q : Request) (author permlink : String),
        q.action = .vote author permlink 0 → (q.exec w).1.rows.votePower = w.rows.votePower)
      ∧ ∀ (w : World A) (q : Request) (author permlink : String) (weightPct : Int64),
        q.action = .vote author permlink weightPct → votedWindow w.rows author permlink ≠ window
        → (q.exec w).1.rows.votePower (account, window) = w.rows.votePower (account, window) := by
  refine ⟨?_, ?_, ?_, ?_⟩
  · intro w requests start stop within word ordered between
    have draws := acceptedVotes_draw within requests fun v there =>
      (between v there).2.trans_lt word
    have regen := window.regenHeights_bounds
    exact draws.total_le_capacity (by decide) (by omega) ordered between
  · intro store assets genesis requests fresh
    refine after_keep (I := fun w => MetersWithin w.rows)
      (fun w q within => q.exec_metersWithin within) (fun key vp stored => ?_) requests
    have empty := (initialised_touches store assets genesis fresh).votePower rfl
    rw [empty] at stored
    cases stored
  · intro w q author permlink asked
    rcases q.exec_metered (w := w) asked with ⟨same, _⟩ | ⟨_, power, spent, _⟩
    · exact same
    · exact absurd (VotePower.spend_eq_some spent).1 (by decide)
  · intro w q author permlink weightPct asked elsewhere
    rcases q.exec_meter account window w with ⟨_, same⟩ | ⟨_, _, _, accepted, _⟩
    · exact same
    · simp [acceptedVote, asked, elsewhere] at accepted

/-- Two posts of one author, and the author's votes on both. -/
def twoVotes : List Request :=
  [⟨.of "hive:owner" 1, .creditMigration "hive:a" 0 1000000000000000, false⟩,
    ⟨.of "hive:a" 2, .createPost "v" .viral .default, false⟩,
    ⟨.of "hive:a" 2, .createPost "x" .viral .default, false⟩,
    ⟨.of "hive:a" 3, .vote "hive:a" "v" 100, false⟩,
    ⟨.of "hive:a" 9, .vote "hive:a" "x" 50, false⟩]

/-- Both votes are accepted, and spend fifteen hundredths of a meter in six heights; withdrawing one
gives nothing back, and none of it touches the deep meter.
-/
theorem votes_rateLimited_two
    : let w := initialised Store.newMem MemAssets.new 1
      let unvote : Request :=
        ⟨{ sender := "hive:a", height := 10 }, .vote "hive:a" "v" 0, false⟩
      acceptedVotes "hive:a" .viral w twoVotes = [(3, 10000000), (9, 5000000)]
        ∧ ((acceptedVotes "hive:a" .viral w twoVotes).map Prod.snd).sum
          ≤ multScale + ((9 - 3 : Nat) : Int) * multScale / Window.viral.regenHeights
        ∧ (unvote.exec (after w twoVotes)).1.rows.votePower = (after w twoVotes).rows.votePower
        ∧ (unvote.exec (after w twoVotes)).1.rows.votePower ("hive:a", .deep)
          = (after w twoVotes).rows.votePower ("hive:a", .deep) := by
  have within := (votes_rateLimited "hive:a" .viral).2.1 Store.newMem MemAssets.new 1 [] rfl
  refine ⟨by decide +kernel, ?_, ?_, ?_⟩
  · exact (votes_rateLimited "hive:a" .viral).1 _ twoVotes 3 9 within (by decide)
      (by decide +kernel) (by decide +kernel)
  · exact (votes_rateLimited "hive:a" .viral).2.2.1 _ _ "hive:a" "v" rfl
  · exact (votes_rateLimited "hive:a" .deep).2.2.2 _ _ "hive:a" "v" 0 rfl (by decide +kernel)

end Worlds

end LasseCash.State
