import LasseCash.Lib.FiniteSum
import LasseCash.State.ContentPools
import LasseCash.State.ContentSteps

/-! The accounts of the votes: a window's total is the rshares of its posts that are not paid out, a
post's are those of its vote records. They hold in every run that is clear of colliding keys, as
long as no total outgrows its word and no voted post is paid out of an empty pool.
-/

namespace LasseCash.State

open Engine MachineInt Function FiniteSum

-----------------------------------------------------------------------------------------
-- Tallies
-----------------------------------------------------------------------------------------

/-- What a post counts toward the total of a window: its rshares, until it is paid out. -/
def openRshares (w : Window) : Option PostRec → Int
  | some p => if p.paidOut = false ∧ p.window = w then p.rshares else 0
  | none => 0

/-- The votes that were cast on a post. -/
def ContentLog.ballots (log : ContentLog) (p : String × String)
    : Finset (String × String × String) :=
  log.votes.toFinset.filter fun v => votedPost v = p

/-- (log.Tallies r) says that the votes add up: the total of each window over the posts that are
not paid out, and the rshares and the count of each of these over its live vote records.
-/
structure ContentLog.Tallies (log : ContentLog) (r : Rows) : Prop where
  accounts : log.Accounts r
  window : ∀ w, r.getAmount (rsharesKey w)
    = log.posts.toFinset.sum fun p => openRshares w (r.getPost p.1 p.2)
  rshares : ∀ p ∈ log.posts, ∀ post, r.getPost p.1 p.2 = some post → post.paidOut = false
    → post.rshares = (log.ballots p).sum fun v => (r.castOn v).getD 0
  votes : ∀ p ∈ log.posts, ∀ post, r.getPost p.1 p.2 = some post → post.paidOut = false
    → post.votes = ((log.ballots p).filter fun v => (r.castOn v).isSome).card

/-- The total of the window that a vote falls into, with the vote in place of the caller's
previous one, is a word.
-/
def Origin.VoteFits (o : Origin) : Prop :=
  match o.action with
  | .vote author permlink weightPct =>
      let window := ((o.start.getPost author permlink).map PostRec.window).getD .viral
      o.start.getAmount (rsharesKey window)
        - (o.start.castOn (author, permlink, o.ctx.sender)).getD 0
        + voteWeight (sharesOf o.start o.ctx.sender) (voteCost weightPct.toInt) < 2 ^ 63
  | _ => True

-----------------------------------------------------------------------------------------
-- Within an operation
-----------------------------------------------------------------------------------------

/-- (log.Polled r) says besides that votes stand on posts and count for something, and that the
totals are words.
-/
structure ContentLog.Polled (log : ContentLog) (r : Rows) : Prop extends log.Tallies r where
  posted : ∀ v ∈ log.votes, r.castOn v ≠ none
    → r.getPost (votedPost v).1 (votedPost v).2 ≠ none
  positive : ∀ key mine, r.postVote key = some mine → 0 < mine
  word : ∀ w, r.getAmount (rsharesKey w) < 2 ^ 63

section Rows

variable {log : ContentLog} {o : Origin} {whole : Prop} {r r' : Rows}

theorem ContentLog.mem_ballots {p : String × String} {v : String × String × String}
    : v ∈ log.ballots p ↔ v ∈ log.votes ∧ votedPost v = p := by
  simp [ballots]

/-- The count of the live votes as a sum. -/
theorem ContentLog.count_eq (log : ContentLog) (r : Rows) (p : String × String)
    : (((log.ballots p).filter fun v => (r.castOn v).isSome).card : Int)
      = (log.ballots p).sum fun v => if (r.castOn v).isSome then 1 else 0 :=
  Finset.natCast_card_filter _ _

/-- Rows that differ beside the content only are polled alike. -/
theorem ContentLog.Polled.beside (h : log.Polled r) (accounts : log.Accounts r')
    (post : r'.post = r.post) (votes : r'.postVote = r.postVote)
    (totals : ∀ w, r'.getAmount (rsharesKey w) = r.getAmount (rsharesKey w))
    : log.Polled r' := by
  have posts (p : String × String) : r'.getPost p.1 p.2 = r.getPost p.1 p.2 := congrFun post _
  have casts (v : String × String × String) : r'.castOn v = r.castOn v := congrFun votes _
  refine ⟨⟨accounts, fun w => ?_, fun p known post found unpaid => ?_,
    fun p known post found unpaid => ?_⟩, fun v known live => ?_, fun key mine there => ?_,
    fun w => ?_⟩
  · rw [totals, h.window]
    exact Finset.sum_congr rfl fun p _ => by rw [posts]
  · simp only [casts]
    exact h.rshares p known post ((posts p).symm.trans found) unpaid
  · simp only [casts]
    exact h.votes p known post ((posts p).symm.trans found) unpaid
  · rw [posts (votedPost v)]
    exact h.posted v known (casts v ▸ live)
  · exact h.positive key mine (votes ▸ there)
  · exact (totals w).trans_lt (h.word w)

/-- A write of one post and of votes on it, from what it does to the sums of that post. -/
theorem ContentLog.Polled.write (h : log.Polled r) (accounts : log.Accounts r')
    {p : String × String} (known : p ∈ log.posts) {post : PostRec}
    (found : r'.getPost p.1 p.2 = some post)
    (others : ∀ p' ∈ log.posts, p' ≠ p → r'.getPost p'.1 p'.2 = r.getPost p'.1 p'.2)
    (elsewhere : ∀ v ∈ log.votes, votedPost v ≠ p → r'.castOn v = r.castOn v)
    (window : ∀ w, r'.getAmount (rsharesKey w) = r.getAmount (rsharesKey w)
      - openRshares w (r.getPost p.1 p.2) + openRshares w (some post))
    (rshares : post.paidOut = false
      → post.rshares = (log.ballots p).sum fun v => (r'.castOn v).getD 0)
    (votes : post.paidOut = false
      → post.votes = (log.ballots p).sum fun v => if (r'.castOn v).isSome then 1 else 0)
    (positive : ∀ key mine, r'.postVote key = some mine → 0 < mine)
    (word : ∀ w, r'.getAmount (rsharesKey w) < 2 ^ 63)
    : log.Polled r' := by
  have same (p' : String × String) (known' : p' ∈ log.posts) (other : p' ≠ p)
      (v : String × String × String) (ballot : v ∈ log.ballots p') : r'.castOn v = r.castOn v := by
    obtain ⟨listed, rfl⟩ := mem_ballots.mp ballot
    exact elsewhere v listed other
  refine ⟨⟨accounts, fun w => ?_, fun p' known' post' found' unpaid => ?_,
    fun p' known' post' found' unpaid => ?_⟩, fun v listed live => ?_, positive, word⟩
  · have sum := sum_write (f := fun p => openRshares w (r.getPost p.1 p.2))
      (g := fun p => openRshares w (r'.getPost p.1 p.2)) (List.mem_toFinset.mpr known)
      fun p' listed other => by rw [others p' (List.mem_toFinset.mp listed) other]
    rw [sum, window, h.window, found]
  · by_cases here : p' = p
    · subst here
      obtain rfl := Option.some.inj (found.symm.trans found')
      exact rshares unpaid
    · rw [h.rshares p' known' post' ((others p' known' here).symm.trans found') unpaid]
      exact Finset.sum_congr rfl fun v ballot => by rw [same p' known' here v ballot]
  · rw [count_eq]
    by_cases here : p' = p
    · subst here
      obtain rfl := Option.some.inj (found.symm.trans found')
      exact votes unpaid
    · rw [h.votes p' known' post' ((others p' known' here).symm.trans found') unpaid, count_eq]
      exact Finset.sum_congr rfl fun v ballot => by rw [same p' known' here v ballot]
  · by_cases here : votedPost v = p
    · rw [here, found]
      nofun
    · rw [others (votedPost v) (h.accounts.voted v listed) here]
      exact h.posted v listed (elsewhere v listed here ▸ live)

-----------------------------------------------------------------------------------------
-- What bounds what
-----------------------------------------------------------------------------------------

theorem ContentLog.Polled.castOn_nonneg (h : log.Polled r) (v : String × String × String)
    : 0 ≤ (r.castOn v).getD 0 := by
  cases live : r.castOn v with
  | none => exact le_rfl
  | some mine => exact (h.positive _ mine live).le

/-- A vote is part of the rshares of its post. -/
theorem ContentLog.Polled.cast_le (h : log.Polled r) {v : String × String × String}
    (known : v ∈ log.votes) {post : PostRec}
    (found : r.getPost v.1 v.2.1 = some post) (unpaid : post.paidOut = false)
    : (r.castOn v).getD 0 ≤ post.rshares := by
  rw [h.rshares (votedPost v) (h.accounts.voted v known) post found unpaid]
  exact Finset.single_le_sum (fun v' _ => h.castOn_nonneg v') (ContentLog.mem_ballots.mpr ⟨known, rfl⟩)

theorem ContentLog.Polled.rshares_nonneg (h : log.Polled r) {p : String × String}
    (known : p ∈ log.posts) {post : PostRec} (found : r.getPost p.1 p.2 = some post)
    (unpaid : post.paidOut = false)
    : 0 ≤ post.rshares := by
  rw [h.rshares p known post found unpaid]
  exact Finset.sum_nonneg fun v _ => h.castOn_nonneg v

/-- What is not paid out is part of the total of its window. -/
theorem ContentLog.Polled.rshares_le (h : log.Polled r) {p : String × String}
    (known : p ∈ log.posts) {post : PostRec} (found : r.getPost p.1 p.2 = some post)
    (unpaid : post.paidOut = false)
    : post.rshares ≤ r.getAmount (rsharesKey post.window) := by
  have part (p' : String × String) (listed : p' ∈ log.posts.toFinset)
      : 0 ≤ openRshares post.window (r.getPost p'.1 p'.2) := by
    cases there : r.getPost p'.1 p'.2 with
    | none => exact le_rfl
    | some post' =>
        simp only [openRshares]
        split
        · rename_i counted
          exact h.rshares_nonneg (List.mem_toFinset.mp listed) there counted.1
        · exact le_rfl
  have le := Finset.single_le_sum part (List.mem_toFinset.mpr known)
  rw [← h.window, found, openRshares, if_pos ⟨unpaid, rfl⟩] at le
  exact le

/-- A post has no more votes than rshares. -/
theorem ContentLog.Polled.votes_le (h : log.Polled r) {p : String × String}
    (known : p ∈ log.posts) {post : PostRec} (found : r.getPost p.1 p.2 = some post)
    (unpaid : post.paidOut = false)
    : 0 ≤ post.votes ∧ post.votes ≤ post.rshares := by
  rw [h.votes p known post found unpaid, h.rshares p known post found unpaid, log.count_eq]
  refine ⟨Finset.sum_nonneg fun v _ => by split <;> decide, Finset.sum_le_sum fun v _ => ?_⟩
  cases live : r.castOn v with
  | none => exact le_rfl
  | some mine => exact h.positive _ mine live

/-- A post with a live vote has been voted on. -/
theorem ContentLog.Polled.votes_pos (h : log.Polled r) {v : String × String × String}
    (known : v ∈ log.votes) (live : r.castOn v ≠ none) {post : PostRec}
    (found : r.getPost v.1 v.2.1 = some post) (unpaid : post.paidOut = false)
    : 0 < post.votes := by
  rw [h.votes (votedPost v) (h.accounts.voted v known) post found unpaid]
  exact Int.natCast_pos.mpr (Finset.card_pos.mpr ⟨v, Finset.mem_filter.mpr
    ⟨ContentLog.mem_ballots.mpr ⟨known, rfl⟩, Option.isSome_iff_ne_none.mpr live⟩⟩)

-----------------------------------------------------------------------------------------
-- Writes
-----------------------------------------------------------------------------------------

/-- Writing a record changes the listed vote it is for, and no other. -/
theorem ContentLog.Accounts.castOn_write (h : log.Accounts r) {v : String × String × String}
    (known : v ∈ log.votes) {record : Option Int}
    (written : r'.postVote = update r.postVote (postVoteKey v.1 v.2.1 v.2.2) record)
    : r'.castOn v = record ∧ ∀ v' ∈ log.votes, v' ≠ v → r'.castOn v' = r.castOn v' := by
  refine ⟨by simp [Rows.castOn, written], fun v' known' other => ?_⟩
  rw [Rows.castOn, written]
  exact update_of_ne (fun same => other (h.vote_eq known' known same)) _ _

/-- Writing a post changes the listed post it is for, and no other. -/
theorem ContentLog.Accounts.getPost_write (h : log.Accounts r) {p : String × String}
    (known : p ∈ log.posts) {post : PostRec}
    (written : r'.post = update r.post (postKey p.1 p.2) (some post))
    : r'.getPost p.1 p.2 = some post
      ∧ ∀ p' ∈ log.posts, p' ≠ p → r'.getPost p'.1 p'.2 = r.getPost p'.1 p'.2 := by
  refine ⟨by simp [Rows.getPost, written], fun p' known' other => ?_⟩
  rw [Rows.getPost, written]
  exact update_of_ne (fun same => other (h.post_eq known' known same)) _ _

/-- A post may be rewritten, from what that does to the total of its window. -/
theorem ContentLog.Polled.rewrite (h : log.Polled r) (accounts : log.Accounts r')
    {p : String × String} (known : p ∈ log.posts) {post : PostRec}
    (written : r'.post = update r.post (postKey p.1 p.2) (some post))
    (kept : r'.postVote = r.postVote)
    (window : ∀ w, r'.getAmount (rsharesKey w) = r.getAmount (rsharesKey w)
      - openRshares w (r.getPost p.1 p.2) + openRshares w (some post))
    (rshares : post.paidOut = false
      → post.rshares = (log.ballots p).sum fun v => (r.castOn v).getD 0)
    (votes : post.paidOut = false
      → post.votes = (log.ballots p).sum fun v => if (r.castOn v).isSome then 1 else 0)
    (word : ∀ w, r'.getAmount (rsharesKey w) < 2 ^ 63)
    : log.Polled r' := by
  have casts (v : String × String × String) : r'.castOn v = r.castOn v := congrFun kept _
  obtain ⟨found, others⟩ := h.accounts.getPost_write known written
  refine h.write accounts known found others (fun v _ _ => casts v) window ?_ ?_
    (fun key mine there => h.positive key mine (kept ▸ there)) word
  · simpa only [casts] using rshares
  · simpa only [casts] using votes

/-- A post whose rshares, count, window and payout are as before counts as before. -/
theorem ContentLog.Polled.restate (h : log.Polled r) (accounts : log.Accounts r')
    {author permlink : String} {old post : PostRec}
    (found : r.getPost author permlink = some old)
    (written : r'.post = update r.post (postKey author permlink) (some post))
    (kept : r'.postVote = r.postVote)
    (totals : ∀ w, r'.getAmount (rsharesKey w) = r.getAmount (rsharesKey w))
    (counts : post.paidOut = old.paidOut ∧ post.window = old.window ∧ post.rshares = old.rshares
      ∧ post.votes = old.votes)
    : log.Polled r' := by
  obtain ⟨p, known, same⟩ := h.accounts.post (postKey author permlink)
    (by rw [← Rows.getPost, found]; exact Option.some_ne_none _)
  have there : r.getPost p.1 p.2 = some old := by rwa [Rows.getPost, ← same]
  obtain ⟨paid, window, rshares, votes⟩ := counts
  refine h.rewrite accounts known (same ▸ written) kept (fun w => ?_) (fun unpaid => ?_)
    (fun unpaid => ?_) (fun w => (totals w).trans_lt (h.word w))
  · rw [totals, there]
    simp only [openRshares, paid, window, rshares]
    omega
  · exact rshares.trans (h.rshares p known old there (paid ▸ unpaid))
  · exact votes.trans ((h.votes p known old there (paid ▸ unpaid)).trans (log.count_eq r p))

theorem ContentLog.Polled.restated (h : log.Polled r) {author permlink : String} {old : PostRec}
    (found : r.getPost author permlink = some old) (post : PostRec)
    (counts : post.paidOut = old.paidOut ∧ post.window = old.window ∧ post.rshares = old.rshares
      ∧ post.votes = old.votes)
    : log.Polled (r.putPost author permlink post) := by
  have written : Authors log.posts log.votes r (r.putPost author permlink post) :=
    (Authors.refl r).putPost author permlink post (.inr (by simp [found]))
  exact h.restate (written.accounts h.accounts) found rfl rfl (fun _ => rfl) counts

/-- Dropping a record from a post that has paid out changes no sum. -/
theorem ContentLog.Polled.drop (h : log.Polled r) (accounts : log.Accounts r')
    {v : String × String × String} (known : v ∈ log.votes) {post : PostRec}
    (found : r.getPost v.1 v.2.1 = some post) (paid : post.paidOut = true)
    (kept : r'.post = r.post)
    (written : r'.postVote = update r.postVote (postVoteKey v.1 v.2.1 v.2.2) none)
    (totals : ∀ w, r'.getAmount (rsharesKey w) = r.getAmount (rsharesKey w))
    : log.Polled r' := by
  have posts (p : String × String) : r'.getPost p.1 p.2 = r.getPost p.1 p.2 := congrFun kept _
  obtain ⟨-, others⟩ := h.accounts.castOn_write known written
  refine h.write accounts (h.accounts.voted v known) ((posts _).trans found) (fun p _ _ => posts p)
    (fun v' listed away => others v' listed fun same => away (same ▸ rfl)) (fun w => ?_)
    (fun unpaid => absurd (paid.symm.trans unpaid) nofun)
    (fun unpaid => absurd (paid.symm.trans unpaid) nofun) (fun key mine there => ?_)
    fun w => (totals w).trans_lt (h.word w)
  · rw [totals, found]
    omega
  · rw [written] at there
    by_cases here : key = postVoteKey v.1 v.2.1 v.2.2
    · simp [here] at there
    · exact h.positive key mine (by simpa [here] using there)

/-- A record on a post that is not paid out changes with the sums it is part of. -/
theorem ContentLog.Polled.recast (h : log.Polled r) (accounts : log.Accounts r')
    {v : String × String × String} (known : v ∈ log.votes) {old post : PostRec}
    (found : r.getPost v.1 v.2.1 = some old) (unpaid : old.paidOut = false)
    {record : Option Int} (positive : ∀ mine, record = some mine → 0 < mine)
    (written : r'.post = update r.post (postKey v.1 v.2.1) (some post))
    (recorded : r'.postVote = update r.postVote (postVoteKey v.1 v.2.1 v.2.2) record)
    (status : post.paidOut = false ∧ post.window = old.window)
    (rshares : post.rshares = old.rshares - (r.castOn v).getD 0 + record.getD 0)
    (votes : post.votes = old.votes - (if (r.castOn v).isSome then 1 else 0)
      + if record.isSome then 1 else 0)
    (total : r'.getAmount (rsharesKey old.window)
      = r.getAmount (rsharesKey old.window) - (r.castOn v).getD 0 + record.getD 0)
    (others : ∀ w, w ≠ old.window → r'.getAmount (rsharesKey w) = r.getAmount (rsharesKey w))
    (word : r'.getAmount (rsharesKey old.window) < 2 ^ 63)
    : log.Polled r' := by
  have voted := h.accounts.voted v known
  have ballot : v ∈ log.ballots (votedPost v) := ContentLog.mem_ballots.mpr ⟨known, rfl⟩
  obtain ⟨there, posts⟩ := h.accounts.getPost_write voted written
  obtain ⟨mine, casts⟩ := h.accounts.castOn_write known recorded
  have sum (f : Option Int → Int) : ((log.ballots (votedPost v)).sum fun v' => f (r'.castOn v'))
      = ((log.ballots (votedPost v)).sum fun v' => f (r.castOn v')) - f (r.castOn v) + f record := by
    rw [← mine]
    exact sum_write (f := fun v' => f (r.castOn v')) (g := fun v' => f (r'.castOn v')) ballot
      fun v' listed other => by rw [casts v' (ContentLog.mem_ballots.mp listed).1 other]
  refine h.write accounts voted there posts (fun v' listed away => casts v' listed fun same =>
      away (same ▸ rfl)) (fun w => ?_) (fun _ => ?_) (fun _ => ?_) (fun key amount there => ?_)
    fun w => ?_
  · rw [found]
    simp only [openRshares, unpaid, status, true_and]
    by_cases here : w = old.window
    · subst here
      rw [total, if_pos rfl, if_pos rfl, rshares]
      omega
    · rw [others w here, if_neg (Ne.symm here), if_neg (Ne.symm here)]
      omega
  · rw [sum fun record => record.getD 0, rshares, h.rshares (votedPost v) voted old found unpaid]
  · rw [sum fun record => if record.isSome then 1 else 0, votes,
      h.votes (votedPost v) voted old found unpaid, log.count_eq]
  · rw [recorded] at there
    by_cases here : key = postVoteKey v.1 v.2.1 v.2.2
    · exact positive amount (by simpa [here] using there)
    · exact h.positive key amount (by simpa [here] using there)
  · by_cases here : w = old.window
    · exact here ▸ word
    · exact (others w here).trans_lt (h.word w)

-----------------------------------------------------------------------------------------
-- Steps
-----------------------------------------------------------------------------------------

theorem rsharesKey_side (w : Window) : (rsharesKey w).side = .tallies := by
  cases w <;> rfl

/-- A footprint without the totals of the votes keeps them. -/
theorem Touches.totals {sides : List Side} (h : Touches sides r r')
    (away : sides.contains .tallies = false) (w : Window)
    : r'.getAmount (rsharesKey w) = r.getAmount (rsharesKey w) :=
  h.amount (rsharesKey w) (by rw [rsharesKey_side]; exact away)

/-- A new post has no votes yet. -/
theorem ContentLog.Polled.publish (h : log.Polled r) (accounts : log.Accounts r')
    {p : String × String} (known : p ∈ log.posts) (unknown : r.getPost p.1 p.2 = none)
    {post : PostRec} (blank : post.rshares = 0 ∧ post.votes = 0)
    (written : r'.post = update r.post (postKey p.1 p.2) (some post))
    (kept : r'.postVote = r.postVote)
    (totals : ∀ w, r'.getAmount (rsharesKey w) = r.getAmount (rsharesKey w))
    : log.Polled r' := by
  have none_cast (v : String × String × String) (ballot : v ∈ log.ballots p)
      : r.castOn v = none := by
    obtain ⟨listed, rfl⟩ := ContentLog.mem_ballots.mp ballot
    by_contra live
    exact h.posted v listed live unknown
  refine h.rewrite accounts known written kept (fun w => ?_) (fun _ => ?_) (fun _ => ?_)
    fun w => (totals w).trans_lt (h.word w)
  · rw [totals, unknown]
    simp [openRshares, blank]
  · rw [blank.1, Finset.sum_eq_zero fun v ballot => by simp [none_cast v ballot]]
  · rw [blank.2, Finset.sum_eq_zero fun v ballot => by simp [none_cast v ballot]]

/-- A vote is withdrawn with its part of the sums. -/
theorem ContentLog.Polled.unvote (h : log.Polled r) {author permlink voter : String}
    (known : (author, permlink, voter) ∈ log.votes) {p : PostRec} {prev : Int}
    (found : r.getPost author permlink = some p) (unpaid : p.paidOut = false)
    (vote : r.postVote (postVoteKey author permlink voter) = some prev)
    (accounts : log.Accounts (unvoteRows r author permlink voter p prev))
    : log.Polled (unvoteRows r author permlink voter p prev) := by
  have live : r.castOn (author, permlink, voter) = some prev := vote
  have voted := h.accounts.voted _ known
  have positive := h.positive _ prev vote
  have part := h.cast_le known found unpaid
  have whole := h.rshares_le voted found unpaid
  have word := h.word p.window
  have counted := h.votes_pos known (by simp [live]) found unpaid
  have small := h.votes_le voted found unpaid
  rw [live, Option.getD_some] at part
  have total : (unvoteRows r author permlink voter p prev).getAmount (rsharesKey p.window)
      = r.getAmount (rsharesKey p.window) - prev := by
    have : i64 (r.getAmount (rsharesKey p.window) - prev)
        = r.getAmount (rsharesKey p.window) - prev := i64_of_nonneg (by omega) (by omega)
    simpa [unvoteRows] using this
  have gone : ∀ mine, (none : Option Int) = some mine → 0 < mine := (by rintro _ ⟨⟩)
  refine h.recast accounts known found unpaid gone rfl rfl ⟨unpaid, rfl⟩ ?_ ?_ ?_
    (fun w other => ?_) ?_
  · rw [live]
    simpa using i64_of_nonneg (by omega) (by omega)
  · rw [live]
    simpa [counted] using i64_of_nonneg (by omega) (by omega)
  · rw [live, total]
    simp
  · simp [unvoteRows, rsharesKey_inj, other]
  · omega

/-- What a vote writes of the post, of the records and of the totals. -/
theorem writeVote_rows (r : Rows) (ctx : Ctx) (author permlink : String) (p : PostRec)
    (rshares : Int) (power : VotePower)
    : let prev := r.castOn (author, permlink, ctx.sender)
      let delta := i64 (rshares - prev.getD 0)
      (writeVote r ctx author permlink p rshares power).post
          = update r.post (postKey author permlink) (some { p with
            rshares := i64 (p.rshares + delta)
            votes := if prev.isNone then i64 (p.votes + 1) else p.votes })
        ∧ (writeVote r ctx author permlink p rshares power).postVote
          = update r.postVote (postVoteKey author permlink ctx.sender) (some rshares)
        ∧ ∀ w, (writeVote r ctx author permlink p rshares power).getAmount (rsharesKey w)
          = if w = p.window then i64 (r.getAmount (rsharesKey w) + delta)
            else r.getAmount (rsharesKey w) := by
  dsimp only [Rows.castOn]
  cases first : r.postVote (postVoteKey author permlink ctx.sender) with
  | none =>
      refine ⟨by simp [writeVote, cqAppend, first], by simp [writeVote, cqAppend, first], fun w => ?_⟩
      by_cases here : w = p.window <;> simp [writeVote, cqAppend, first, rsharesKey_inj, here]
  | some prev =>
      refine ⟨by simp [writeVote, first], by simp [writeVote, first], fun w => ?_⟩
      by_cases here : w = p.window <;> simp [writeVote, first, rsharesKey_inj, here]

/-- A vote joins the sums in place of the voter's previous one. -/
theorem ContentLog.Polled.vote (h : log.Polled r) {ctx : Ctx} {author permlink : String}
    (known : (author, permlink, ctx.sender) ∈ log.votes) {p : PostRec} {rshares : Int}
    {power : VotePower} (found : r.getPost author permlink = some p) (unpaid : p.paidOut = false)
    (positive : 0 < rshares) (fits_word : rshares < 2 ^ 63)
    (fits : r.getAmount (rsharesKey p.window) - (r.castOn (author, permlink, ctx.sender)).getD 0
      + rshares < 2 ^ 63)
    (accounts : log.Accounts (writeVote r ctx author permlink p rshares power))
    : log.Polled (writeVote r ctx author permlink p rshares power) := by
  have voted := h.accounts.voted _ known
  have part := h.cast_le known found unpaid
  have nonneg := h.castOn_nonneg (author, permlink, ctx.sender)
  have whole := h.rshares_le voted found unpaid
  have small := h.votes_le voted found unpaid
  have valid : ∀ mine, some rshares = some mine → 0 < mine := by
    rintro mine ⟨⟩
    exact positive
  obtain ⟨post, records, totals⟩ := writeVote_rows r ctx author permlink p rshares power
  have counted : (if (r.castOn (author, permlink, ctx.sender)).isNone then i64 (p.votes + 1)
      else p.votes) = p.votes - (if (r.castOn (author, permlink, ctx.sender)).isSome then 1 else 0)
        + 1 := by
    cases mine : r.castOn (author, permlink, ctx.sender) with
    | none =>
        rw [mine, Option.getD_none] at fits
        simpa using i64_of_nonneg (x := p.votes + 1) (by omega) (by omega)
    | some prev => simp
  generalize prev : (r.castOn (author, permlink, ctx.sender)).getD 0 = before at *
  have delta : i64 (rshares - before) = rshares - before :=
    i64_of_mem ⟨by have := h.word p.window; omega, by omega⟩
  rw [delta] at post totals
  have raised : i64 (p.rshares + (rshares - before)) = p.rshares - before + rshares := by
    rw [i64_of_nonneg (by omega) (by omega)]
    omega
  have total : i64 (r.getAmount (rsharesKey p.window) + (rshares - before))
      = r.getAmount (rsharesKey p.window) - before + rshares := by
    rw [i64_of_nonneg (by omega) (by omega)]
    omega
  refine h.recast accounts known found unpaid valid post records ⟨unpaid, rfl⟩ ?_ counted ?_
    (fun w other => ?_) ?_
  · rw [prev]
    exact raised
  · rw [totals, if_pos rfl, total, prev]
    rfl
  · rw [totals, if_neg other]
  · rw [totals, if_pos rfl, total]
    exact fits

/-- The rshares of a vote are a word. -/
theorem voteWeight_lt (shares cost : Int) : voteWeight shares cost < 2 ^ 63 := by
  unfold voteWeight
  split
  · decide
  · rename_i positive
    cases product : mulDiv shares cost multScale with
    | none => decide
    | some weight =>
        have := (mulDiv_eq_some (by omega) (by omega) (by decide) product).2
        unfold maxAmount at this
        rw [Option.getD_some]
        omega

/-- The total of a vote's window fits in the rows that the vote finds. -/
theorem Origin.VoteFits.opened (h : o.VoteFits) {author permlink : String} {weightPct : Int64}
    (asked : o.action = .vote author permlink weightPct) {p : PostRec}
    (found : r.getPost author permlink = some p)
    (opened : r = o.start ∨ o.start.getPost author permlink = none
      ∧ r = o.start.putPost author permlink (registeredBy o.ctx))
    : r.getAmount (rsharesKey p.window) - (r.castOn (author, permlink, o.ctx.sender)).getD 0
      + voteWeight (sharesOf r o.ctx.sender) (voteCost weightPct.toInt) < 2 ^ 63 := by
  simp only [Origin.VoteFits, asked] at h
  rcases opened with rfl | ⟨unknown, rfl⟩
  · simpa only [found, Option.map_some, Option.getD_some] using h
  · have viral : p.window = .viral := by
      have there : some (registeredBy o.ctx) = some p := by
        simpa [Rows.getPost] using found
      rw [← Option.some.inj there]
      rfl
    simp only [unknown, Option.map_none, Option.getD_none] at h
    rw [viral]
    exact h

/-- A step of the content other than a payout keeps the tallies, by cases on the step. -/
theorem ContentWrite.polled (h : ContentWrite o r r') (covers : log.Covers o) (fits : o.VoteFits)
    (unpaying : ∀ author permlink, o.action ≠ .payout author permlink) (polled : log.Polled r)
    : log.Polled r' := by
  have accounts := (Step.content h : Step o True r r').accounts covers polled.accounts
  cases h with
  | publish author permlink window mode parentAuthor parentPermlink asked unknown =>
      exact polled.publish accounts (covers.posts asked) unknown ⟨rfl, rfl⟩ rfl rfl fun _ => rfl
  | boost author permlink p amt found =>
      exact polled.restated found _ ⟨rfl, rfl, rfl, rfl⟩
  | owe account amount =>
      exact polled.beside accounts rfl rfl fun _ => rfl
  | pay author permlink p asked accrued found unpaid closed => exact absurd asked (unpaying _ _)
  | forfeit author permlink curator p mine due found paid vote worthless =>
      have known := polled.accounts.claimed covers due (by simp [Rows.castOn, vote])
      exact polled.drop accounts known found paid rfl rfl fun _ => rfl
  | claim author permlink curator p mine due found paid pot base vote positive worth =>
      have known := polled.accounts.claimed covers due (by simp [Rows.castOn, vote])
      have spent := polled.restated found { p with
        curatorPot := i64 (p.curatorPot - (mulDiv p.curatorPot mine p.curatorRshares).getD 0)
        curatorRshares := i64 (p.curatorRshares - mine)
        pot_open := fun h => absurd (paid.symm.trans h) (by simp) } ⟨rfl, rfl, rfl, rfl⟩
      exact spent.drop accounts known (r.getPost_putPost author permlink _) paid rfl rfl fun _ => rfl
  | sweepPot author permlink p found paid pot ripe =>
      have emptied := polled.restated found
        { p with curatorPot := 0, curatorRshares := 0, pot_open := fun _ => rfl } ⟨rfl, rfl, rfl, rfl⟩
      have recycled := recycle_touches (r.putPost author permlink
        { p with curatorPot := 0, curatorRshares := 0, pot_open := fun _ => rfl }) p.curatorPot
      exact emptied.beside accounts (recycled.post rfl) (recycled.postVote rfl) (recycled.totals rfl)
  | clearSlot account author permlink n queued settled =>
      exact polled.beside accounts rfl rfl fun _ => rfl
  | advanceHead account =>
      have moved := advanceHead_touches account (r.getU64 (.cqTail account) - r.getU64 (.cqHead account))
        (r.getU64 (.cqHead account)) r
      exact polled.beside accounts (moved.post rfl) (moved.postVote rfl) (moved.totals rfl)
  | unvote author permlink weightPct p prev asked found unpaid open_ vote =>
      have known := polled.accounts.named covers (v := (author, permlink, o.ctx.sender))
        (by simp [asked, Action.votesNamed]) (by simp [Rows.castOn, vote])
      exact polled.unvote known found unpaid vote accounts
  | vote author permlink weightPct p power asked found unpaid open_ opened positive =>
      obtain ⟨known, _⟩ := covers.cast asked (voteCost_pos positive)
      exact polled.vote known found unpaid positive (voteWeight_lt _ _)
        (fits.opened asked found opened) accounts
  | roll account => exact polled.beside accounts rfl rfl fun _ => rfl

/-- A step beside the content keeps the tallies too. -/
theorem Step.polled (h : Step o whole r r') (covers : log.Covers o) (fits : o.VoteFits)
    (unpaying : ∀ author permlink, o.action ≠ .payout author permlink) (polled : log.Polled r)
    : log.Polled r' := by
  have accounts := h.accounts covers polled.accounts
  rcases h.elsewhere with content | beside
  · exact content.polled covers fits unpaying polled
  · exact polled.beside accounts (beside.post rfl) (beside.postVote rfl) (beside.totals rfl)

-----------------------------------------------------------------------------------------
-- Payouts
-----------------------------------------------------------------------------------------

/-- A payout writes its post, as paid out, and what its claim leaves of the pools. -/
theorem payoutRows_rows (r : Rows) (height : Nat) (author permlink : String) (p : PostRec)
    : ∃ next : PostRec, next.paidOut = true
      ∧ (payoutRows r height author permlink p).post
        = update r.post (postKey author permlink) (some next)
      ∧ (payoutRows r height author permlink p).postVote = r.postVote := by
  unfold payoutRows
  dsimp only
  split
  · exact ⟨_, rfl, rfl, rfl⟩
  · exact ⟨_, rfl, rfl, rfl⟩

/-- A payout of a stocked pool takes what it pays out of the sums. -/
theorem ContentLog.Polled.pay (h : log.Polled r) (words : PoolWords r) (height : Nat)
    {author permlink : String} {p : PostRec} (found : r.getPost author permlink = some p)
    (unpaid : p.paidOut = false) (stocked : 0 < p.rshares → 0 < r.getAmount (poolKey p.window))
    (accounts : log.Accounts (payoutRows r height author permlink p))
    : log.Polled (payoutRows r height author permlink p)
      ∧ (payoutRows r height author permlink p).getAmount (rsharesKey p.window)
        = r.getAmount (rsharesKey p.window) - p.rshares := by
  obtain ⟨pair, known, same⟩ := h.accounts.post (postKey author permlink)
    (by rw [← Rows.getPost, found]; exact Option.some_ne_none _)
  have there : r.getPost pair.1 pair.2 = some p := by rwa [Rows.getPost, ← same]
  have nonneg := h.rshares_nonneg known there unpaid
  have totals (w : Window) : (payoutRows r height author permlink p).getAmount (rsharesKey w)
      = if w = p.window then r.getAmount (rsharesKey p.window) - p.rshares
        else r.getAmount (rsharesKey w) := by
    rw [Rows.getAmount, payoutRows_amount]
    exact claimPool_rshares words nonneg (h.rshares_le known there unpaid) (h.word _) stocked w
  obtain ⟨next, paid, written, kept⟩ := payoutRows_rows r height author permlink p
  refine ⟨h.rewrite accounts known (same ▸ written) kept (fun w => ?_)
    (fun open_ => absurd (paid.symm.trans open_) (by rintro ⟨⟩))
    (fun open_ => absurd (paid.symm.trans open_) (by rintro ⟨⟩)) fun w => ?_, by rw [totals, if_pos rfl]⟩
  · rw [totals, there]
    by_cases here : w = p.window
    · simp [openRshares, unpaid, paid, here]
    · simp [openRshares, paid, here, Ne.symm here]
  · rw [totals]
    have := h.word w
    have := h.word p.window
    split <;> omega

-----------------------------------------------------------------------------------------
-- Lists
-----------------------------------------------------------------------------------------

/-- Logs that list the same rows poll alike. -/
theorem ContentLog.Polled.relist {log' : ContentLog} (h : log.Polled r)
    (accounts : log'.Accounts r)
    (posts : ∀ p, r.getPost p.1 p.2 ≠ none → (p ∈ log'.posts ↔ p ∈ log.posts))
    (votes : ∀ v, r.castOn v ≠ none → (v ∈ log'.votes ↔ v ∈ log.votes))
    : log'.Polled r := by
  have ballots (p : String × String) (v : String × String × String) (live : r.castOn v ≠ none)
      : v ∈ log'.ballots p ↔ v ∈ log.ballots p := by
    rw [mem_ballots, mem_ballots, votes v live]
  have sum (f : Option Int → Int) (zero : f none = 0) (p : String × String)
      : ((log'.ballots p).sum fun v => f (r.castOn v))
        = (log.ballots p).sum fun v => f (r.castOn v) := by
    refine Finset.sum_congr_of_eq_on_inter (fun v mem missing => ?_) (fun v mem missing => ?_)
      fun _ _ _ => rfl
    · by_contra some_cast
      refine missing ((ballots p v fun gone => some_cast ?_).mp mem)
      rw [gone, zero]
    · by_contra some_cast
      refine missing ((ballots p v fun gone => some_cast ?_).mpr mem)
      rw [gone, zero]
  refine ⟨⟨accounts, fun w => ?_, fun p known post found unpaid => ?_,
    fun p known post found unpaid => ?_⟩, fun v known live => ?_, h.positive, h.word⟩
  · rw [h.window]
    refine Finset.sum_congr_of_eq_on_inter (fun p mem missing => ?_) (fun p mem missing => ?_)
      fun _ _ _ => rfl
    · by_contra counted
      refine missing (List.mem_toFinset.mpr ((posts p fun gone => counted ?_).mpr
        (List.mem_toFinset.mp mem)))
      rw [gone, openRshares]
    · by_contra counted
      refine missing (List.mem_toFinset.mpr ((posts p fun gone => counted ?_).mp
        (List.mem_toFinset.mp mem)))
      rw [gone, openRshares]
  · rw [sum (fun record => record.getD 0) rfl]
    exact h.rshares p ((posts p (by simp [found])).mp known) post found unpaid
  · rw [log'.count_eq, sum (fun record => if record.isSome then 1 else 0) rfl, ← log.count_eq]
    exact h.votes p ((posts p (by simp [found])).mp known) post found unpaid
  · exact h.posted v ((votes v live).mp known) live

end Rows

section Requests

variable {A : Type} [Assets A]

/-- A post with votes that a payout settles is paid out of a pool that holds something, once the
emission is booked.
-/
def PoolStocked (w : World A) (q : Request) : Prop :=
  match q.action with
  | .payout author permlink =>
      ∀ p ∈ w.rows.getPost author permlink, p.paidOut = false → p.closesAt ≤ q.ctx.height
        → 0 < p.rshares
        → 0 < ((settle q.ctx).run serve w).1.rows.getAmount (poolKey p.window)
  | _ => True

/-- What keeps the tallies: the caller has a name, the total stays a word, and the pool of a
payout is stocked.
-/
def TalliesKept (w : World A) (q : Request) : Prop := (q.origin w).VoteFits ∧ PoolStocked w q

/-- A payout that settles a post takes the rshares of the post off the total of its window. -/
def PayoutUntallies (w : World A) (q : Request) : Prop :=
  match q.action with
  | .payout author permlink =>
      ∀ p ∈ w.rows.getPost author permlink, p.paidOut = false
        → ((q.exec w).1.rows.getPost author permlink).map PostRec.paidOut = some true
        → (q.exec w).1.rows.getAmount (rsharesKey p.window)
          = w.rows.getAmount (rsharesKey p.window) - p.rshares
  | _ => True

variable {log : ContentLog} {w : World A} {q : Request}

omit [Assets A] in
/-- The tallies on the log under way, before the request. -/
theorem ContentLog.Polled.under (h : log.Polled w.rows) (clear : log.Clear q)
    : (log.under q).Polled w.rows := by
  refine h.relist (h.accounts.under clear) (fun p there => ⟨fun known => ?_,
    List.mem_append_left _⟩) fun v live => ⟨fun known => ?_, List.mem_append_left _⟩
  · rcases List.mem_append.mp known with old | new
    · exact old
    · exact h.accounts.post_mem (clear.1 p (q.action.publishes_named q.ctx new))
        (Option.isSome_iff_ne_none.mpr there)
  · rcases List.mem_append.mp known with old | new
    · exact old
    · obtain ⟨v', known', same⟩ := h.accounts.vote _ live
      exact clear.2 v (q.action.casts_named q.ctx new) v' known' ((postVoteKey_eq_iff v v').mp same)
        ▸ known'

/-- A payout keeps the tallies on the log under way, and takes its post out of them. -/
theorem ContentLog.Polled.payout (h : (log.under q).Polled w.rows) (words : PoolWords w.rows)
    (covers : (log.under q).Covers (q.origin w)) {author permlink : String}
    (asked : q.action = .payout author permlink) (stocked : PoolStocked w q)
    : (log.under q).Polled (q.exec w).1.rows ∧ PayoutUntallies w q := by
  simp only [PoolStocked, PayoutUntallies, asked] at stocked ⊢
  rcases Request.exec_payout (w := w) asked with same | ⟨p, r₁, closes, rewarded⟩
  · refine ⟨same ▸ h, fun p found unpaid paid => ?_⟩
    rw [same, Option.mem_def.mp found, Option.map_some] at paid
    exact absurd (unpaid.symm.trans (Option.some.inj paid)) nofun
  · obtain ⟨found, unpaid, closed, booked, accrued, strides⟩ := closes
    have moved := accrued.touches
    have found₁ := (moved.getPost author permlink rfl).trans found
    have accounts₁ := (Step.ledger (.accrue accrued strides) : Step (q.origin w) True w.rows r₁).accounts
      covers h.accounts
    have polled₁ := h.beside accounts₁ (moved.post rfl) (moved.postVote rfl) (moved.totals rfl)
    have paid : Step (q.origin w) True r₁ (payoutRows r₁ q.ctx.height author permlink p) :=
      .content (.pay author permlink p asked accrued found₁ unpaid closed)
    obtain ⟨settled, taken⟩ := polled₁.pay (words.accrue accrued) q.ctx.height found₁ unpaid
      (fun voted => booked ▸ stocked p found unpaid closed voted) (paid.accounts covers accounts₁)
    have accounts := settled.accounts.congr (fun _ there => .inl ((rewarded.post rfl) ▸ there))
      (fun _ there => .inl ((rewarded.postVote rfl) ▸ there))
      fun _ _ _ there => .inl ((rewarded.curation rfl) ▸ there)
    refine ⟨settled.beside accounts (rewarded.post rfl) (rewarded.postVote rfl) (rewarded.totals rfl),
      fun p' found' _ _ => ?_⟩
    obtain rfl := Option.some.inj (found.symm.trans found')
    rw [(rewarded.totals rfl), taken, (moved.totals rfl)]

/-- A request keeps the tallies. -/
theorem Request.exec_polled (governs : log.Governs w) (clear : log.Clear q) (signed : Signed w q)
    (kept : TalliesKept w q) (polled : log.Polled w.rows) (words : PoolWords w.rows)
    : ((log.add w q).Polled (q.exec w).1.rows ∧ PoolWords (q.exec w).1.rows)
      ∧ PayoutUntallies w q := by
  have covers := governs.covers clear signed
  have start := polled.under clear
  have pools : PoolWords (q.exec w).1.rows :=
    (q.exec_steps w).keep (fun _ _ words step => step.poolWords words) words
  have narrow (h : (log.under q).Polled (q.exec w).1.rows)
      : (log.add w q).Polled (q.exec w).1.rows := by
    have accounts := (governs.step clear signed).accounts
    obtain ⟨posts, votes⟩ := log.add_subset w q
    refine h.relist accounts (fun p there => ⟨fun known => posts known, fun known => ?_⟩)
      fun v live => ⟨fun known => votes known, fun known => ?_⟩
    · by_contra excess
      exact there (governs.accounts.unposted clear known excess)
    · by_contra excess
      exact live (accounts.uncast clear known excess)
  by_cases paying : ∃ author permlink, q.action = .payout author permlink
  · obtain ⟨author, permlink, asked⟩ := paying
    obtain ⟨after, untallied⟩ := start.payout words covers asked kept.2
    exact ⟨⟨narrow after, pools⟩, untallied⟩
  · have unpaying (author permlink : String) : q.action ≠ .payout author permlink := fun asked =>
      paying ⟨author, permlink, asked⟩
    have after : (log.under q).Polled (q.exec w).1.rows :=
      (q.exec_steps w).keep (fun _ _ h step => step.polled covers kept.1 unpaying h) start
    refine ⟨⟨narrow after, pools⟩, ?_⟩
    unfold PayoutUntallies
    split
    · rename_i asked
      exact absurd asked (unpaying _ _)
    · trivial

/-- Nothing is counted in a fresh store. -/
theorem initialised_polled (store : Store) (assets : A) (genesis : UInt64)
    (fresh : store.rows = .empty)
    : ContentLog.empty.Polled (initialised store assets genesis).rows
      ∧ PoolWords (initialised store assets genesis).rows := by
  have setUp := initialised_touches store assets genesis fresh
  have totals (w : Window) : (initialised store assets genesis).rows.getAmount (rsharesKey w) = 0 :=
    (setUp.totals rfl w).trans rfl
  refine ⟨⟨⟨initialised_accounts store assets genesis fresh, fun w => ?_, nofun, nofun⟩, nofun,
    fun key mine there => ?_, fun w => ?_⟩, PoolWords.touches (fun w => ?_) setUp rfl⟩
  · rw [totals]
    rfl
  · rw [(setUp.postVote rfl)] at there
    cases there
  · rw [totals]
    decide
  · cases w <;> decide

/-- In every run from `Init`, on any ledger, that is clear of colliding keys and in which no total
outgrows its word and no voted post is paid out of an empty pool, the votes add up in the end, and
every payout has taken its post off the total of its window.
-/
theorem votes_tallied (store : Store) (assets : A) (genesis : UInt64) (requests : List Request)
    (fresh : store.rows = .empty)
    (clear : ContentLog.empty.ClearRun (initialised store assets genesis) requests)
    (signed : Along Signed (initialised store assets genesis) requests)
    (kept : Along TalliesKept (initialised store assets genesis) requests)
    : (ContentLog.empty.after (initialised store assets genesis) requests).Tallies
        (after (initialised store assets genesis) requests).rows
      ∧ Along PayoutUntallies (initialised store assets genesis) requests := by
  obtain ⟨last, along⟩ := clear.keeps (P := PayoutUntallies)
    (I := fun log w => log.Polled w.rows ∧ PoolWords w.rows)
    (fun log w q governs clear signed (kept : TalliesKept w q) h =>
      Request.exec_polled governs clear signed kept h.1 h.2) signed kept
    (initialised_governs store assets genesis fresh) (initialised_polled store assets genesis fresh)
  exact ⟨last.1.toTallies, along⟩

end Requests

/-- An account posts and votes on its post, which is paid out a week later. -/
def votedRun : List Request :=
  [⟨.of "hive:owner" 1, .creditMigration "hive:a" 0 1000000000000000, false⟩,
    ⟨.of "hive:a" 2, .createPost "v" .viral .default, false⟩,
    ⟨.of "hive:a" 3, .vote "hive:a" "v" 100, false⟩,
    ⟨.of "hive:any" 201602, .payout "hive:a" "v", false⟩]

/-- Once the emission has begun, the pool pays and the votes add up. -/
theorem votes_tallied_paid
    : (ContentLog.empty.after (initialised Store.newMem MemAssets.new 1) votedRun).Tallies
        (after (initialised Store.newMem MemAssets.new 1) votedRun).rows
      ∧ Along PayoutUntallies (initialised Store.newMem MemAssets.new 1) votedRun := by
  have kept : Along TalliesKept (initialised Store.newMem MemAssets.new 1) votedRun := by
    refine ⟨⟨trivial, trivial⟩, ⟨trivial, trivial⟩, ⟨?_, trivial⟩, ⟨trivial, ?_⟩, trivial⟩
    · change (_ : Int) < _
      decide +kernel
    · change ∀ p ∈ _, _ → _ → _ → _
      decide +kernel
  refine votes_tallied _ _ _ _ rfl (by decide +kernel) ⟨?_, ?_, ?_, ?_, trivial⟩ kept
  all_goals
    change (_ : String) ≠ _
    decide

/-- Before the emission begins the viral pool is empty: the payout settles the post, and leaves its
rshares in the total of the window.
-/
theorem rshares_stranded
    : let w := initialised Store.newMem MemAssets.new 1000000
      (results w votedRun).all Result.ok = true
        ∧ ((after w votedRun).rows.getPost "hive:a" "v").map PostRec.paidOut = some true
        ∧ (after w votedRun).rows.getAmount .rsharesViral = 100000000000000
        ∧ ¬(ContentLog.empty.after w votedRun).Tallies (after w votedRun).rows
        ∧ ¬Along PayoutUntallies w votedRun := by
  refine ⟨by decide +kernel, by decide +kernel, by decide +kernel, fun tallies => ?_, fun along => ?_⟩
  · have window := tallies.window .viral
    revert window
    decide +kernel
  · have untallied := along.2.2.2.1
    revert untallied
    change ¬∀ p ∈ _, _ → _ → _ = _
    decide +kernel

end LasseCash.State
