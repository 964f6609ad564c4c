import LasseCash.Lib.ProRata
import LasseCash.State.CurationAnswers
import LasseCash.State.VoteTallies

/-! Claims of a settled post's curation, by anyone and in any order: no order of the claims pays a
curator less than the floored part of the first pot, and all of them together are paid the pot.
-/

namespace LasseCash.State

open Engine Function MachineInt ProRata

-----------------------------------------------------------------------------------------
-- A pot under claims
-----------------------------------------------------------------------------------------

/-- The vote records of one post have different keys. -/
theorem postVoteKey_inj {author permlink voter voter' : String}
    (same : postVoteKey author permlink voter = postVoteKey author permlink voter')
    : voter = voter' := by
  have lists := congrArg String.toList same
  exact String.toList_inj.mp (by simpa [postVoteKey] using lists)

/-- Dropping one vote of a post leaves the others. -/
theorem castOn_dropped {r r' : Rows} {author permlink curator : String}
    (dropped : r'.postVote = update r.postVote (postVoteKey author permlink curator) none)
    (c : String)
    : r'.castOn (author, permlink, c)
      = if c = curator then none else r.castOn (author, permlink, c) := by
  change r'.postVote (postVoteKey author permlink c) = _
  rw [dropped, update_apply]
  by_cases same : c = curator
  · rw [if_pos same, if_pos (congrArg _ same)]
  · rw [if_neg same, if_neg fun key => same (postVoteKey_inj key)]
    rfl

/-- A settled post's pot, shared by the rshares that have not been claimed. -/
def PostRec.fund (p : PostRec) : ProRata.Fund := ⟨p.curatorPot, p.curatorRshares⟩

/-- The sum of the vote records that are left on a post. -/
def votesLeft (r : Rows) (author permlink : String) (curators : Finset String) : Int :=
  curators.sum fun curator => (r.castOn (author, permlink, curator)).getD 0

/-- (Whole author permlink curators r p) says that the votes left are all of the rshares left, and
that there is a pot only while a vote is left.
-/
def Whole (author permlink : String) (curators : Finset String) (r : Rows) (p : PostRec) : Prop :=
  votesLeft r author permlink curators = p.curatorRshares
    ∧ (p.curatorPot = 0 ∨ ∃ curator ∈ curators, r.castOn (author, permlink, curator) ≠ none)

/-- (Shared author permlink curators votes first r p) says that the post is settled with a pot that
owes the votes left on it no less than the first fund did.
-/
structure Shared (author permlink : String) (curators : Finset String) (votes : String → Int)
    (first : ProRata.Fund) (r : Rows) (p : PostRec) : Prop where
  found : r.getPost author permlink = some p
  paid : p.paidOut = true
  positive : ∀ curator ∈ curators, 0 < votes curator
  records : ∀ curator mine, r.castOn (author, permlink, curator) = some mine
    → curator ∈ curators ∧ mine = votes curator
  pot_nonneg : 0 ≤ p.curatorPot
  pot_le : p.curatorPot ≤ first.pot
  base_le : p.curatorRshares ≤ first.total
  backed : votesLeft r author permlink curators ≤ p.curatorRshares
  fair : p.fund.Covers first

namespace Shared

variable {author permlink curator : String} {curators : Finset String} {votes : String → Int}
  {first : ProRata.Fund} {r r' : Rows} {p p' : PostRec} {mine : Int}

/-- Every record that is left counts for something. -/
theorem record_nonneg (h : Shared author permlink curators votes first r p) (curator : String)
    : 0 ≤ (r.castOn (author, permlink, curator)).getD 0 := by
  cases live : r.castOn (author, permlink, curator) with
  | none => exact le_refl 0
  | some mine =>
      obtain ⟨known, rfl⟩ := h.records curator mine live
      exact (h.positive curator known).le

/-- A record that is left is within the rshares that are left. -/
theorem record_le (h : Shared author permlink curators votes first r p)
    (live : r.castOn (author, permlink, curator) = some mine)
    : 0 < mine ∧ mine ≤ p.curatorRshares := by
  obtain ⟨known, rfl⟩ := h.records curator mine live
  have single := Finset.single_le_sum (fun c _ => h.record_nonneg c) known
  rw [live] at single
  exact ⟨h.positive curator known, single.trans h.backed⟩

/-- A vote that is left is due at least its part of the first fund. -/
theorem part_le_part (h : Shared author permlink curators votes first r p)
    (live : r.castOn (author, permlink, curator) = some mine)
    : part first.pot mine first.total ≤ part p.curatorPot mine p.curatorRshares := by
  obtain ⟨positive, le⟩ := h.record_le live
  have base_le := h.base_le
  exact h.fair.part_le positive.le (by omega) (show 0 < p.curatorRshares by omega)

/-- The claim of a vote that is left is worth its part of the pot. -/
theorem worth_eq (h : Shared author permlink curators votes first r p)
    (word : first.pot < 2 ^ 63) (live : r.castOn (author, permlink, curator) = some mine)
    : (mulDiv p.curatorPot mine p.curatorRshares).getD 0
      = part p.curatorPot mine p.curatorRshares := by
  obtain ⟨positive, le⟩ := h.record_le live
  have pot_le := h.pot_le
  have within : part p.curatorPot mine p.curatorRshares ≤ p.curatorPot :=
    ProRata.part_le h.pot_nonneg le (by omega)
  have fits : part p.curatorPot mine p.curatorRshares ≤ maxAmount := by
    unfold maxAmount
    omega
  rw [mulDiv_of_fits h.pot_nonneg positive.le (by omega) fits]
  rfl

/-- What is left of the votes without one of them. -/
theorem votesLeft_drop (h : Shared author permlink curators votes first r p)
    (live : r.castOn (author, permlink, curator) = some mine)
    (dropped : ∀ c, r'.castOn (author, permlink, c)
      = if c = curator then none else r.castOn (author, permlink, c))
    : votesLeft r' author permlink curators = votesLeft r author permlink curators - mine := by
  obtain ⟨known, -⟩ := h.records curator mine live
  have sum := FiniteSum.sum_write (s := curators) (i := curator)
    (f := fun c => (r.castOn (author, permlink, c)).getD 0)
    (g := fun c => (r'.castOn (author, permlink, c)).getD 0) known
    fun c _ other => by rw [dropped, if_neg other]
  have gone := dropped curator
  rw [if_pos rfl] at gone
  rw [live, gone] at sum
  simp only [Option.getD_some, Option.getD_none, add_zero] at sum
  exact sum

/-- A vote that is dropped with nothing paid leaves the pot to the others. -/
theorem drop (h : Shared author permlink curators votes first r p)
    (live : r.castOn (author, permlink, curator) = some mine)
    (same : r'.getPost author permlink = r.getPost author permlink)
    (dropped : ∀ c, r'.castOn (author, permlink, c)
      = if c = curator then none else r.castOn (author, permlink, c))
    : Shared author permlink curators votes first r' p := by
  have left := h.votesLeft_drop live dropped
  obtain ⟨positive, -⟩ := h.record_le live
  have backed := h.backed
  refine ⟨same.trans h.found, h.paid, h.positive, fun c other there => ?_, h.pot_nonneg, h.pot_le,
    h.base_le, by omega, h.fair⟩
  rw [dropped] at there
  split at there
  · cases there
  · exact h.records c other there

/-- A vote that is paid its part burns down the pot, and what is left covers the others. -/
theorem take (h : Shared author permlink curators votes first r p) (pot_word : first.pot < 2 ^ 63)
    (base_word : first.total < 2 ^ 63)
    (live : r.castOn (author, permlink, curator) = some mine)
    (found : r'.getPost author permlink = some p') (paid : p'.paidOut = true)
    (pot : p'.curatorPot = i64 (p.curatorPot - part p.curatorPot mine p.curatorRshares))
    (base : p'.curatorRshares = i64 (p.curatorRshares - mine))
    (dropped : ∀ c, r'.castOn (author, permlink, c)
      = if c = curator then none else r.castOn (author, permlink, c))
    : Shared author permlink curators votes first r' p' ∧ p'.fund = p.fund.take mine := by
  have left := h.votesLeft_drop live dropped
  obtain ⟨positive, le⟩ := h.record_le live
  have pot_nonneg := h.pot_nonneg
  have pot_le := h.pot_le
  have base_le := h.base_le
  have backed := h.backed
  have total_pos : 0 < p.curatorRshares := by omega
  have within : part p.curatorPot mine p.curatorRshares ≤ p.curatorPot :=
    ProRata.part_le h.pot_nonneg le total_pos
  have nonneg : 0 ≤ part p.curatorPot mine p.curatorRshares :=
    part_nonneg h.pot_nonneg positive.le total_pos.le
  rw [i64_of_nonneg (by omega) (by omega)] at pot base
  have burnt : p'.fund = p.fund.take mine := by
    simp only [PostRec.fund, ProRata.Fund.take, pot, base]
  have covers : p'.fund.Covers first := by
    rw [burnt]
    refine (ProRata.Fund.take_covers p.fund total_pos).trans h.fair total_pos ?_ ?_
    · omega
    · change 0 ≤ p.curatorRshares - mine
      omega
  refine ⟨⟨found, paid, h.positive, fun c other there => ?_, by omega, by omega, by omega, by omega,
    covers⟩, burnt⟩
  rw [dropped] at there
  split at there
  · cases there
  · exact h.records c other there

/-- A pot of which a vote is due something is not empty. -/
theorem part_zero (h : Shared author permlink curators votes first r p)
    (live : r.castOn (author, permlink, curator) = some mine)
    (nothing : part p.curatorPot mine p.curatorRshares ≤ 0)
    : first.pot * mine / first.total = 0 := by
  obtain ⟨positive, le⟩ := h.record_le live
  have fair := h.part_le_part live
  have nonneg : 0 ≤ part first.pot mine first.total :=
    part_nonneg (h.pot_nonneg.trans h.pot_le) positive.le (by have := h.base_le; omega)
  change part first.pot mine first.total = 0
  omega

/-- The claim of the whole rest takes the whole pot, and any other leaves a vote. -/
theorem take_whole (h : Shared author permlink curators votes first r p)
    (live : r.castOn (author, permlink, curator) = some mine)
    (burnt : p'.fund = p.fund.take mine)
    (dropped : ∀ c, r'.castOn (author, permlink, c)
      = if c = curator then none else r.castOn (author, permlink, c))
    (whole : Whole author permlink curators r p)
    : Whole author permlink curators r' p' := by
  obtain ⟨positive, le⟩ := h.record_le live
  have left := h.votesLeft_drop live dropped
  have pot : p'.curatorPot = p.curatorPot - part p.curatorPot mine p.curatorRshares :=
    congrArg ProRata.Fund.pot burnt
  have base : p'.curatorRshares = p.curatorRshares - mine := congrArg ProRata.Fund.total burnt
  refine ⟨by rw [left, base, whole.1], ?_⟩
  by_cases last : mine = p.curatorRshares
  · left
    subst last
    rw [pot, part_whole positive, sub_self]
  · right
    by_contra none_left
    push Not at none_left
    have nothing : votesLeft r' author permlink curators = 0 :=
      Finset.sum_eq_zero fun c known => by rw [none_left c known]; rfl
    have all := whole.1
    omega

end Shared

-----------------------------------------------------------------------------------------
-- Pots and votes of every state
-----------------------------------------------------------------------------------------

/-- (p.PotSound) says that the counters of a post are words, and that its pot is overdrawn only
together with the rshares.
-/
structure PostRec.PotSound (p : PostRec) : Prop where
  rshares : p.rshares < 2 ^ 63
  pot : p.curatorPot < 2 ^ 63
  base : p.curatorRshares < 2 ^ 63
  drawn : 0 ≤ p.curatorPot ∨ p.curatorRshares < 0

/-- (CurationSound r) says that every post has a sound pot, and every vote record counts. -/
structure CurationSound (r : Rows) : Prop where
  post : ∀ key p, r.post key = some p → p.PotSound
  vote : ∀ key mine, r.postVote key = some mine → 0 < mine ∧ mine < 2 ^ 63

/-- A non-negative fraction is a word. -/
theorem mulDiv_word {a num den : Int} (a_nonneg : 0 ≤ a) (num_nonneg : 0 ≤ num) (den_pos : 0 < den)
    : 0 ≤ (mulDiv a num den).getD 0 ∧ (mulDiv a num den).getD 0 < 2 ^ 63 := by
  cases quotient : mulDiv a num den with
  | none => exact ⟨le_refl 0, by decide⟩
  | some q =>
      obtain ⟨rfl, le⟩ := mulDiv_eq_some a_nonneg num_nonneg den_pos quotient
      unfold maxAmount at le
      exact ⟨part_nonneg a_nonneg num_nonneg den_pos.le, by simp only [Option.getD_some]; omega⟩

namespace CurationSound

variable {r r' : Rows} {key : String} {p : PostRec}

/-- Rows with the same posts and votes. -/
theorem beside (h : CurationSound r) (post : r'.post = r.post) (votes : r'.postVote = r.postVote)
    : CurationSound r' :=
  ⟨fun key p there => h.post key p (post ▸ there),
    fun key mine there => h.vote key mine (votes ▸ there)⟩

/-- Rows with one post written. -/
theorem put (h : CurationSound r) (p : PostRec) (sound : p.PotSound)
    (post : r'.post = update r.post key (some p)) (votes : r'.postVote = r.postVote)
    : CurationSound r' := by
  refine ⟨fun other p' there => ?_, fun key mine there => h.vote key mine (votes ▸ there)⟩
  rw [post, update_apply] at there
  split at there
  · exact Option.some.inj there ▸ sound
  · exact h.post other p' there

/-- Rows with one vote dropped. -/
theorem unvote (h : CurationSound r) (post : r'.post = r.post)
    (votes : r'.postVote = update r.postVote key none)
    : CurationSound r' := by
  refine ⟨fun key p there => h.post key p (post ▸ there), fun other mine there => ?_⟩
  rw [votes, update_apply] at there
  split at there
  · cases there
  · exact h.vote other mine there

/-- Rows with one post written and one vote recorded. -/
theorem recorded {voteKey : String} {rshares : Int} (h : CurationSound r) (p : PostRec)
    (sound : p.PotSound) (positive : 0 < rshares) (word : rshares < 2 ^ 63)
    (post : r'.post = update r.post key (some p))
    (votes : r'.postVote = update r.postVote voteKey (some rshares))
    : CurationSound r' := by
  have put : CurationSound { r' with postVote := r.postVote } := h.put p sound post rfl
  refine ⟨put.post, fun other mine there => ?_⟩
  rw [votes, update_apply] at there
  split at there
  · exact Option.some.inj there ▸ ⟨positive, word⟩
  · exact h.vote other mine there

/-- A payout parks a fraction of what it takes from the pool. -/
theorem settled (h : CurationSound r) {author permlink : String} {height : Nat}
    (found : r.getPost author permlink = some p)
    : CurationSound (payoutRows r height author permlink p) := by
  have sound := h.post _ p found
  have pool := claimPool_touches r p.window p.rshares
  unfold payoutRows
  dsimp only
  split
  · exact h.put (p.settled height p.curatorPot p.curatorRshares)
      ⟨sound.rshares, sound.pot, sound.base, sound.drawn⟩
      (congrArg (update · _ _) (pool.post rfl)) (pool.postVote rfl)
  · rename_i some_left
    obtain ⟨nonneg, word⟩ := mulDiv_word (not_le.mp some_left).le
      (by decide : 0 ≤ curatorPct) (by decide : (0 : Int) < 100)
    exact h.put (p.settled height _ p.rshares) ⟨sound.rshares, word, sound.rshares, .inl nonneg⟩
      (congrArg (update · _ _) (pool.post rfl)) (pool.postVote rfl)

/-- A claim overdraws the pot only where it overdraws the rshares. -/
theorem claimed (h : CurationSound r) {author permlink curator : String} {mine : Int}
    (found : r.getPost author permlink = some p) (paid : p.paidOut = true) (pot : 0 < p.curatorPot)
    (base : 0 < p.curatorRshares)
    (vote : r.postVote (postVoteKey author permlink curator) = some mine)
    : CurationSound (claimRows r author permlink curator p paid
        ((mulDiv p.curatorPot mine p.curatorRshares).getD 0) mine) := by
  have sound := h.post _ p found
  obtain ⟨positive, word⟩ := h.vote _ mine vote
  obtain ⟨nonneg, share_word⟩ := mulDiv_word pot.le positive.le base
  have drawn : (mulDiv p.curatorPot mine p.curatorRshares).getD 0 ≤ p.curatorPot
      ∨ p.curatorRshares < mine := by
    by_cases within : mine ≤ p.curatorRshares
    · left
      cases quotient : mulDiv p.curatorPot mine p.curatorRshares with
      | none => exact pot.le
      | some q => exact (mulDiv_le_self pot.le positive.le base within quotient).2
    · exact .inr (not_le.mp within)
  have pot_word := sound.pot
  have base_word := sound.base
  have rest : i64 (p.curatorPot - (mulDiv p.curatorPot mine p.curatorRshares).getD 0)
      = p.curatorPot - (mulDiv p.curatorPot mine p.curatorRshares).getD 0 :=
    i64_of_mem ⟨by omega, by omega⟩
  have left : i64 (p.curatorRshares - mine) = p.curatorRshares - mine :=
    i64_of_mem ⟨by omega, by omega⟩
  let spent : PostRec :=
    { p with
      curatorPot := i64 (p.curatorPot - (mulDiv p.curatorPot mine p.curatorRshares).getD 0)
      curatorRshares := i64 (p.curatorRshares - mine)
      pot_open := fun open_ => absurd (paid.symm.trans open_) (by decide) }
  have spent_sound : spent.PotSound := by
    refine ⟨sound.rshares, (i64_mem _).upper, (i64_mem _).upper, ?_⟩
    change 0 ≤ i64 _ ∨ i64 _ < 0
    rw [rest, left]
    omega
  have put : CurationSound (r.putPost author permlink spent) := h.put spent spent_sound rfl rfl
  exact put.unvote rfl rfl

/-- A withdrawn vote leaves the other records. -/
theorem withdrawn (h : CurationSound r) {author permlink : String} (voter : String) (prev : Int)
    (found : r.getPost author permlink = some p)
    : CurationSound (unvoteRows r author permlink voter p prev) := by
  have sound := h.post _ p found
  let votes := if p.votes > 0 then i64 (p.votes - 1) else p.votes
  let less : PostRec := { p with rshares := i64 (p.rshares - prev), votes }
  have put : CurationSound (r.putPost author permlink less) :=
    h.put less ⟨(i64_mem _).upper, sound.pot, sound.base, sound.drawn⟩ rfl rfl
  have dropped : CurationSound ((r.putPost author permlink less).setPostVote
      (postVoteKey author permlink voter) none) :=
    put.unvote rfl rfl
  exact dropped.beside (by simp [unvoteRows, less, votes]) (by simp [unvoteRows, less])

/-- A vote is recorded with its positive weight. -/
theorem voted (h : CurationSound r) {author permlink : String} (ctx : Ctx) {rshares : Int}
    (power : VotePower) (found : r.getPost author permlink = some p) (positive : 0 < rshares)
    (word : rshares < 2 ^ 63)
    : CurationSound (writeVote r ctx author permlink p rshares power) := by
  have sound := h.post _ p found
  obtain ⟨post, votes, -⟩ := writeVote_rows r ctx author permlink p rshares power
  refine h.recorded _ ?_ positive word post votes
  exact ⟨(i64_mem _).upper, sound.pot, sound.base, sound.drawn⟩

end CurationSound

/-- No step makes an unsound pot or a vote that counts for nothing, by cases on the step. -/
theorem ContentWrite.curationSound {o : Origin} {r r' : Rows} (h : ContentWrite o r r')
    (sound : CurationSound r)
    : CurationSound r' := by
  have fresh (p : PostRec) (rshares : p.rshares = 0) (pot : p.curatorPot = 0)
      (base : p.curatorRshares = 0) : p.PotSound := by
    refine ⟨?_, ?_, ?_, .inl pot.ge⟩ <;> omega
  cases h with
  | publish author permlink window mode parentAuthor parentPermlink asked unknown =>
      exact sound.put _ (fresh _ rfl rfl rfl) rfl rfl
  | boost author permlink p amt found =>
      have before := sound.post _ p found
      exact sound.put { p with promoted := i64 (p.promoted + amt) }
        ⟨before.rshares, before.pot, before.base, before.drawn⟩ rfl rfl
  | owe account amount => exact sound.beside rfl rfl
  | pay author permlink p asked accrued found unpaid closed => exact sound.settled found
  | forfeit author permlink curator p mine due found paid vote worthless =>
      exact sound.unvote rfl rfl
  | claim author permlink curator p mine due found paid pot base vote positive worth =>
      exact sound.claimed found paid pot base vote
  | sweepPot author permlink p found paid pot ripe =>
      have before := sound.post _ p found
      let swept : PostRec :=
        { p with curatorPot := 0, curatorRshares := 0, pot_open := fun _ => rfl }
      have put : CurationSound (r.putPost author permlink swept) :=
        sound.put swept ⟨before.rshares, (by decide : (0 : Int) < 2 ^ 63),
          (by decide : (0 : Int) < 2 ^ 63), .inl (le_refl 0)⟩ rfl rfl
      have recycled := recycle_touches (r.putPost author permlink swept) p.curatorPot
      exact put.beside (recycled.post rfl) (recycled.postVote rfl)
  | clearSlot account author permlink n queued settled => exact sound.beside rfl rfl
  | advanceHead account =>
      have advanced := advanceHead_touches account
        (r.getU64 (.cqTail account) - r.getU64 (.cqHead account)) (r.getU64 (.cqHead account)) r
      exact sound.beside (advanced.post rfl) (advanced.postVote rfl)
  | unvote author permlink weightPct p prev asked found unpaid open_ vote =>
      exact sound.withdrawn _ prev found
  | vote author permlink weightPct p power asked found unpaid open_ opened positive =>
      refine sound.voted o.ctx power found positive ?_
      unfold voteWeight at positive ⊢
      split at positive
      · cases positive
      · rename_i some_power
        rw [if_neg some_power]
        exact (mulDiv_word (by omega) (by omega) (by decide)).2
  | roll account => exact sound.beside rfl rfl

theorem Step.curationSound {o : Origin} {whole : Prop} {r r' : Rows} (h : Step o whole r r')
    (sound : CurationSound r)
    : CurationSound r' := by
  rcases h.elsewhere with content | beside
  · exact content.curationSound sound
  · exact sound.beside (beside.post rfl) (beside.postVote rfl)

-----------------------------------------------------------------------------------------
-- Runs of claims
-----------------------------------------------------------------------------------------

/-- One claim on a post: who calls and when, the curator it names, and whether the chain unwinds it
when it fails.
-/
structure CurationCall where
  ctx : Ctx
  named : String
  unwinds : Bool := false

/-- The curator that a call claims for; the empty name stands for the caller. -/
def CurationCall.curator (c : CurationCall) : String :=
  if c.named = "" then c.ctx.sender else c.named

def CurationCall.request (author permlink : String) (c : CurationCall) : Request :=
  ⟨c.ctx, .claimCuration author permlink c.named, c.unwinds⟩

/-- The pot of a post. -/
def potOf (r : Rows) (author permlink : String) : Int :=
  ((r.getPost author permlink).map (·.curatorPot)).getD 0

section Worlds

variable {A : Type}

/-- (FairClaim author permlink first curator w w' res) says what a call does for a vote that is left:
it brings the curator no less than the part of the first pot that the vote is due. The call is
refused only where this part is zero, or where the ledger does not take the credit.
-/
def FairClaim (author permlink : String) (first : ProRata.Fund) (curator : String) (w w' : World A)
    (res : Result) : Prop :=
  ∀ mine, w.rows.castOn (author, permlink, curator) = some mine →
    (∃ share, res = ok ("claimed " ++ encI64 share) ∧ first.pot * mine / first.total ≤ share
        ∧ potOf w'.rows author permlink = potOf w.rows author permlink - share
        ∧ CuratorPaid curator w w' share)
      ∨ first.pot * mine / first.total = 0
        ∧ (res = fail "share rounds to zero" ∨ res = fail "nothing to claim")
      ∨ ∃ share, res = fail "curator payout failed"
        ∧ (w.store.credit curator (routePayout share).1).2 = false

variable {author permlink curator : String} {curators : Finset String} {votes : String → Int}
  {first : ProRata.Fund} {p p' : PostRec} {w w' : World A} {res : Result} {mine share : Int}

/-- (ClaimKept … p w w' res p') says that a call keeps a pot shared, and whole unless the claim
rounds to zero.
-/
structure ClaimKept (author permlink : String) (curators : Finset String) (votes : String → Int)
    (first : ProRata.Fund) (p : PostRec) (w w' : World A) (res : Result) (p' : PostRec) : Prop where
  shared : Shared author permlink curators votes first w'.rows p'
  pot_le : p'.curatorPot ≤ p.curatorPot
  whole : res ≠ fail "share rounds to zero" → Whole author permlink curators w.rows p
    → Whole author permlink curators w'.rows p'

/-- A call that changes nothing keeps the pot. -/
theorem Shared.kept (h : Shared author permlink curators votes first w.rows p) (res : Result)
    : ClaimKept author permlink curators votes first p w w res p :=
  ⟨h, le_refl _, fun _ => id⟩

/-- A claim that burns down the pot keeps it shared, and whole. -/
theorem Shared.claimed (h : Shared author permlink curators votes first w.rows p)
    (pot_word : first.pot < 2 ^ 63) (base_word : first.total < 2 ^ 63)
    (live : w.rows.castOn (author, permlink, curator) = some mine)
    (eq : share = (mulDiv p.curatorPot mine p.curatorRshares).getD 0)
    (claimed : ClaimedRows author permlink curator p share mine w w') (res : Result)
    : ∃ p', ClaimKept author permlink curators votes first p w w' res p'
      ∧ p'.curatorPot = p.curatorPot - share := by
  rw [h.worth_eq pot_word live] at eq
  subst eq
  obtain ⟨p', found, paid, pot, base⟩ := claimed.post
  have dropped := castOn_dropped claimed.votes
  obtain ⟨shared, burnt⟩ := h.take pot_word base_word live found paid pot base dropped
  have left : p'.curatorPot = p.curatorPot - part p.curatorPot mine p.curatorRshares :=
    congrArg ProRata.Fund.pot burnt
  obtain ⟨positive, le⟩ := h.record_le live
  have nonneg : 0 ≤ part p.curatorPot mine p.curatorRshares :=
    part_nonneg h.pot_nonneg positive.le (positive.le.trans le)
  exact ⟨p', ⟨shared, by omega, fun _ => h.take_whole live burnt dropped⟩, left⟩

/-- What a claim does to a shared pot, by cases on its answer. -/
theorem ClaimAnswer.kept (h : Shared author permlink curators votes first w.rows p)
    (pot_word : first.pot < 2 ^ 63) (base_word : first.total < 2 ^ 63)
    (answer : ClaimAnswer author permlink curator p w w' res)
    : ∃ p', ClaimKept author permlink curators votes first p w w' res p' := by
  cases answer with
  | spent nothing => exact ⟨p, h.kept _⟩
  | unvoted absent => exact ⟨p, h.kept _⟩
  | void mine vote nothing => exact absurd (h.record_le vote).1 (not_lt.mpr nothing)
  | dust mine base pot vote positive nothing _ post dropped =>
      refine ⟨p, h.drop vote (congrFun post _) (castOn_dropped dropped), le_refl _, ?_⟩
      exact fun worth => absurd rfl worth
  | refused mine base pot vote positive share eq worth _ claimed unpaid =>
      obtain ⟨p', taken, -⟩ := h.claimed pot_word base_word vote eq claimed (fail "curator payout failed")
      exact ⟨p', taken⟩
  | paid mine base pot vote positive share eq worth _ claimed brings =>
      obtain ⟨p', taken, -⟩ := h.claimed pot_word base_word vote eq claimed
        (ok ("claimed " ++ encI64 share))
      exact ⟨p', taken⟩

/-- What a claim does for the curator, by cases on its answer. -/
theorem ClaimAnswer.fair (h : Shared author permlink curators votes first w.rows p)
    (pot_word : first.pot < 2 ^ 63) (base_word : first.total < 2 ^ 63)
    (answer : ClaimAnswer author permlink curator p w w' res)
    : FairClaim author permlink first curator w w' res := by
  intro mine live
  have same {mine' : Int}
      (vote : w.rows.postVote (postVoteKey author permlink curator) = some mine') : mine' = mine :=
    Option.some.inj (vote.symm.trans live)
  obtain ⟨positive, le⟩ := h.record_le live
  cases answer with
  | spent nothing =>
      have empty : p.curatorPot = 0 := le_antisymm (by omega) h.pot_nonneg
      refine .inr (.inl ⟨h.part_zero live ?_, .inr rfl⟩)
      rw [empty, part, zero_mul, Int.zero_ediv]
  | unvoted absent => exact absurd (absent.symm.trans live) nofun
  | void mine' vote nothing => exact absurd (h.record_le vote).1 (not_lt.mpr nothing)
  | dust mine' base pot vote positive nothing =>
      obtain rfl := same vote
      rw [h.worth_eq pot_word live] at nothing
      exact .inr (.inl ⟨h.part_zero live nothing, .inl rfl⟩)
  | refused mine' base pot vote positive share eq worth _ claimed unpaid =>
      exact .inr (.inr ⟨share, rfl, unpaid⟩)
  | paid mine' base pot vote positive share eq worth _ claimed brings =>
      obtain rfl := same vote
      obtain ⟨p', kept, left⟩ := h.claimed pot_word base_word live eq claimed
        (ok ("claimed " ++ encI64 share))
      have fair := h.part_le_part live
      rw [h.worth_eq pot_word live] at eq
      refine .inl ⟨share, rfl, eq ▸ fair, ?_, brings⟩
      rw [potOf, potOf, kept.shared.found, h.found]
      exact left

/-- A claim is accepted only for a vote that is left. -/
theorem ClaimAnswer.live (answer : ClaimAnswer author permlink curator p w w' res)
    (accepted : res.ok = true)
    : ∃ mine, w.rows.castOn (author, permlink, curator) = some mine := by
  cases answer with
  | paid mine base pot vote => exact ⟨mine, vote⟩
  | _ => cases accepted

variable [Assets A]

/-- A call of the claim, which is unwound where it fails and the chain unwinds. -/
theorem CurationCall.exec_answers (c : CurationCall) (found : w.rows.getPost author permlink = some p)
    (paid : p.paidOut = true)
    : ∃ w₁, ClaimAnswer author permlink c.curator p w w₁ ((c.request author permlink).exec w).2
      ∧ (((c.request author permlink).exec w).1 = w₁
        ∨ ((c.request author permlink).exec w).1 = w
          ∧ ((c.request author permlink).exec w).2.ok = false) := by
  refine ⟨_, claimCuration_answers c.ctx author permlink c.named found paid, ?_⟩
  unfold Request.exec
  dsimp only
  split
  · rename_i unwound
    simp only [Bool.and_eq_true, Bool.not_eq_true'] at unwound
    exact .inr ⟨rfl, unwound.2⟩
  · exact .inl rfl

/-- What the accepted calls take out of the pot, each for its curator. -/
def curationPaid (author permlink : String) : World A → List CurationCall → List (String × Int)
  | _, [] => []
  | w, c :: rest =>
      let (w', res) := (c.request author permlink).exec w
      (if res.ok = true then
        [(c.curator, potOf w.rows author permlink - potOf w'.rows author permlink)] else [])
        ++ curationPaid author permlink w' rest

/-- A call keeps the pot shared and is fair to its curator. -/
theorem Shared.call (h : Shared author permlink curators votes first w.rows p)
    (pot_word : first.pot < 2 ^ 63) (base_word : first.total < 2 ^ 63) (c : CurationCall)
    : let out := (c.request author permlink).exec w
      (∃ p', ClaimKept author permlink curators votes first p w out.1 out.2 p')
        ∧ FairClaim author permlink first c.curator w out.1 out.2 := by
  intro out
  obtain ⟨w₁, answer, done | ⟨unwound, refused⟩⟩ := c.exec_answers h.found h.paid
  · rw [← done] at answer
    exact ⟨answer.kept h pot_word base_word, answer.fair h pot_word base_word⟩
  · have same : out.1 = w := unwound
    rw [same]
    refine ⟨⟨p, h.kept _⟩, fun mine live => ?_⟩
    rcases answer.fair h pot_word base_word mine live with ⟨share, accepted, -⟩ | nothing
    · rw [accepted] at refused
      cases refused
    · exact .inr nothing

/-- What an accepted call takes out of the pot is no less than the vote's part of the first. -/
theorem Shared.call_paid (h : Shared author permlink curators votes first w.rows p)
    (pot_word : first.pot < 2 ^ 63) (base_word : first.total < 2 ^ 63) (c : CurationCall)
    (accepted : ((c.request author permlink).exec w).2.ok = true)
    : c.curator ∈ curators ∧ first.pot * votes c.curator / first.total
      ≤ potOf w.rows author permlink
        - potOf ((c.request author permlink).exec w).1.rows author permlink := by
  obtain ⟨w₁, answer, -⟩ := c.exec_answers h.found h.paid
  obtain ⟨mine, live⟩ := answer.live accepted
  obtain ⟨known, same⟩ := h.records c.curator mine live
  refine ⟨known, ?_⟩
  rcases (h.call pot_word base_word c).2 mine live with ⟨share, -, fair, left, -⟩
    | ⟨-, refused | refused⟩ | ⟨share, refused, -⟩
  · rw [← same, left]
    omega
  all_goals
    rw [refused] at accepted
    cases accepted

/-- A run of calls keeps the pot shared, and pays out of it. By induction on the calls. -/
theorem Shared.run (h : Shared author permlink curators votes first w.rows p)
    (pot_word : first.pot < 2 ^ 63) (base_word : first.total < 2 ^ 63) (calls : List CurationCall)
    : ∃ p', Shared author permlink curators votes first
        (after w (calls.map (CurationCall.request author permlink))).rows p'
      ∧ ((curationPaid author permlink w calls).map Prod.snd).sum + p'.curatorPot ≤ p.curatorPot
      ∧ (∀ due ∈ curationPaid author permlink w calls,
        first.pot * votes due.1 / first.total ≤ due.2)
      ∧ ((∀ res ∈ results w (calls.map (CurationCall.request author permlink)),
          res ≠ fail "share rounds to zero")
        → Whole author permlink curators w.rows p
        → Whole author permlink curators
          (after w (calls.map (CurationCall.request author permlink))).rows p') := by
  induction calls generalizing w p with
  | nil => exact ⟨p, h, by simp [curationPaid], by simp [curationPaid], fun _ => id⟩
  | cons c rest ih =>
      obtain ⟨⟨p₁, kept⟩, -⟩ := h.call pot_word base_word c
      obtain ⟨p', shared, sum, fair, whole⟩ := ih kept.shared
      have first_pot : potOf w.rows author permlink = p.curatorPot := by
        rw [potOf, h.found]
        rfl
      have next_pot : potOf ((c.request author permlink).exec w).1.rows author permlink
          = p₁.curatorPot := by
        rw [potOf, kept.shared.found]
        rfl
      have pot_le := kept.pot_le
      refine ⟨p', shared, ?_, fun due there => ?_, fun worth before => ?_⟩
      · unfold curationPaid
        dsimp only
        split
        · simp only [List.singleton_append, List.map_cons, List.sum_cons]
          omega
        · simp only [List.nil_append]
          omega
      · unfold curationPaid at there
        dsimp only at there
        split at there
        · rename_i accepted
          rcases List.mem_cons.mp there with rfl | later
          · exact (h.call_paid pot_word base_word c accepted).2
          · exact fair due later
        · exact fair due there
      · have now := worth _ (List.mem_cons_self ..)
        have later := fun res there => worth res (List.mem_cons_of_mem _ there)
        exact whole later (kept.whole now before)

/-- The fairness of the curation claims of a settled post, whoever makes them and in any order: each
accepted claim pays its curator at least the floored part of the first pot, and all of them together
at most this pot; the pot is never overdrawn, the rshares cover the votes that are left, and where
no claim rounds to zero the last one leaves no pot. The pots and votes of every state are sound.
-/
theorem curation_fair
    : (∀ (w : World A) (author permlink : String) (p : PostRec) (curators : Finset String)
        (votes : String → Int) (calls : List CurationCall), CurationSound w.rows
        → w.rows.getPost author permlink = some p → p.paidOut = true
        → (∀ c, w.rows.castOn (author, permlink, c) = if c ∈ curators then some (votes c) else none)
        → curators.sum votes = p.curatorRshares
        → let requests := calls.map (CurationCall.request author permlink)
          let paid := curationPaid author permlink w calls
          (∀ due ∈ paid, p.curatorPot * votes due.1 / p.curatorRshares ≤ due.2)
            ∧ (paid.map Prod.snd).sum ≤ p.curatorPot
            ∧ (∀ c : CurationCall,
              let out := (c.request author permlink).exec (after w requests)
              FairClaim author permlink ⟨p.curatorPot, p.curatorRshares⟩ c.curator
                (after w requests) out.1 out.2)
            ∧ ∃ p', (after w requests).rows.getPost author permlink = some p'
              ∧ 0 ≤ p'.curatorPot
              ∧ votesLeft (after w requests).rows author permlink curators ≤ p'.curatorRshares
              ∧ (curators.Nonempty
                → (∀ res ∈ results w requests, res ≠ fail "share rounds to zero")
                → (∀ c ∈ curators, (after w requests).rows.castOn (author, permlink, c) = none)
                → p'.curatorPot = 0))
      ∧ ∀ (store : Store) (assets : A) (genesis : UInt64) (history : List Request),
        store.rows = .empty
        → CurationSound (after (initialised store assets genesis) history).rows := by
  refine ⟨?_, ?_⟩
  · intro w author permlink p curators votes calls sound found paid records whole
    have pot := sound.post _ p found
    have positive (c : String) (known : c ∈ curators) : 0 < votes c := by
      have live := records c
      rw [if_pos known] at live
      exact (sound.vote _ _ live).1
    have left : votesLeft w.rows author permlink curators = p.curatorRshares := by
      rw [← whole]
      refine Finset.sum_congr rfl fun c known => ?_
      rw [records c, if_pos known]
      rfl
    have base_nonneg : 0 ≤ p.curatorRshares :=
      whole ▸ Finset.sum_nonneg fun c known => (positive c known).le
    have shared : Shared author permlink curators votes p.fund w.rows p := by
      refine ⟨found, paid, positive, fun c mine live => ?_, pot.drawn.resolve_right (by omega),
        le_refl _, le_refl _, left.le, .refl _⟩
      rw [records] at live
      split at live
      · exact ⟨‹_›, (Option.some.inj live).symm⟩
      · cases live
    obtain ⟨p', after_, sum, fair, last⟩ := shared.run pot.pot pot.base calls
    have pot_nonneg := after_.pot_nonneg
    refine ⟨fair, by omega, fun c => (after_.call pot.pot pot.base c).2, p', after_.found,
      pot_nonneg, after_.backed, fun some_curators worth claimed => ?_⟩
    obtain ⟨c, known⟩ := some_curators
    have live := records c
    rw [if_pos known] at live
    have before : Whole author permlink curators w.rows p :=
      ⟨left, .inr ⟨c, known, by rw [live]; nofun⟩⟩
    rcases (last worth before).2 with empty | ⟨c, known, waiting⟩
    · exact empty
    · exact absurd (claimed c known) waiting
  · intro store assets genesis history fresh
    have touched := initialised_touches store assets genesis fresh
    have start : CurationSound (initialised store assets genesis).rows := by
      refine ⟨fun key p there => ?_, fun key mine there => ?_⟩
      · rw [(touched.post rfl)] at there
        cases there
      · rw [(touched.postVote rfl)] at there
        cases there
    exact after_keep (I := fun w => CurationSound w.rows) (fun w q sound =>
      (q.exec_steps w).keep (fun _ _ kept step => step.curationSound kept) sound) start history

/-- One post with the votes of two curators, paid out. -/
def curatedRun : List Request :=
  [⟨.of "hive:owner" 1, .creditMigration "hive:a" 0 1000000000000000, false⟩,
    ⟨.of "hive:owner" 1, .creditMigration "hive:b" 0 2000000000000000, false⟩,
    ⟨.of "hive:a" 2, .createPost "v" .viral .default, false⟩,
    ⟨.of "hive:a" 3, .vote "hive:a" "v" 100, false⟩,
    ⟨.of "hive:b" 3, .vote "hive:a" "v" 70, false⟩,
    ⟨.of "hive:any" 201602, .payout "hive:a" "v", false⟩]

/-- A stranger claims for the second curator, then the first claims for itself. -/
def curatedCalls : List CurationCall :=
  [⟨.of "hive:any" 201603, "hive:b", false⟩,
    ⟨.of "hive:a" 201604, "", true⟩]

/-- The second curator is paid seven twelfths of the pot, and the first the rest. -/
theorem curation_fair_two
    : let w := after (initialised Store.newMem MemAssets.new 1) curatedRun
      let requests := curatedCalls.map (CurationCall.request "hive:a" "v")
      curationPaid "hive:a" "v" w curatedCalls
          = [("hive:b", 116533481925), ("hive:a", 83238201375)]
        ∧ (∀ due ∈ curationPaid "hive:a" "v" w curatedCalls,
          199771683300 * (if due.1 = "hive:a" then 100000000000000 else 140000000000000)
            / 240000000000000 ≤ due.2)
        ∧ potOf (after w requests).rows "hive:a" "v" = 0 := by
  intro w requests
  have start := initialised_governs Store.newMem MemAssets.new 1 rfl
  have quiet : Along (fun _ _ => True) (initialised Store.newMem MemAssets.new 1) curatedRun := by
    refine ⟨?_, ?_, ?_, ?_, ?_, ?_, ?_⟩ <;> trivial
  have signed : Along Signed (initialised Store.newMem MemAssets.new 1) curatedRun := by
    refine ⟨?_, ?_, ?_, ?_, ?_, ?_, trivial⟩
    all_goals
      change (_ : String) ≠ _
      decide
  have accounts : (ContentLog.empty.after (initialised Store.newMem MemAssets.new 1)
      curatedRun).Accounts w.rows :=
    (ContentLog.ClearRun.keeps (I := fun log w => log.Accounts w.rows) (P := fun _ _ => True)
      (fun log w q governs clear signed _ _ => ⟨(governs.step clear signed).accounts, trivial⟩)
      (by decide +kernel) signed quiet start start.accounts).1
  have cast : (ContentLog.empty.after (initialised Store.newMem MemAssets.new 1) curatedRun).votes
      = [("hive:a", "v", "hive:a"), ("hive:a", "v", "hive:b")] := by
    decide +kernel
  have records (c : String) : w.rows.castOn ("hive:a", "v", c)
      = if c ∈ ({"hive:a", "hive:b"} : Finset String) then
          some (if c = "hive:a" then 100000000000000 else 140000000000000)
        else none := by
    by_cases known : c = "hive:a" ∨ c = "hive:b"
    · rcases known with rfl | rfl <;> decide +kernel
    · rw [if_neg (by simpa using known)]
      by_contra live
      unfold Rows.castOn at live
      obtain ⟨v, listed, same⟩ := accounts.vote _ live
      rw [cast] at listed
      rcases List.mem_pair.mp listed with rfl | rfl
      · exact known (.inl (postVoteKey_inj same))
      · exact known (.inr (postVoteKey_inj same))
  cases post : w.rows.getPost "hive:a" "v" with
  | none =>
      have there : (w.rows.getPost "hive:a" "v").isSome = true := by decide +kernel
      rw [post] at there
      cases there
  | some p =>
      have pot : (w.rows.getPost "hive:a" "v").map (fun p => (p.paidOut, p.curatorPot, p.curatorRshares))
          = some (true, 199771683300, 240000000000000) := by
        decide +kernel
      rw [post] at pot
      simp only [Option.map_some, Option.some.injEq, Prod.mk.injEq] at pot
      have sound := curation_fair.2 Store.newMem MemAssets.new 1 curatedRun rfl
      have fair := curation_fair.1 w "hive:a" "v" p {"hive:a", "hive:b"} _ curatedCalls sound post
        pot.1 records (by rw [pot.2.2]; decide)
      rw [pot.2.1, pot.2.2] at fair
      obtain ⟨p', found, -, -, last⟩ := fair.2.2.2
      refine ⟨by decide +kernel, fair.1, ?_⟩
      rw [potOf, found]
      exact last ⟨"hive:a", by decide⟩ (by decide +kernel) (by decide +kernel)

end Worlds

end LasseCash.State
