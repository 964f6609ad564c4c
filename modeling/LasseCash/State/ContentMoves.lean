import LasseCash.State.Moves

/-! Publishing, voting, paying out and claiming move the rows by steps. -/

namespace LasseCash.State

open Engine MachineInt Program

variable {o : Origin} {r : Rows}

-----------------------------------------------------------------------------------------
-- Posting
-----------------------------------------------------------------------------------------

theorem putPost_supply (r : Rows) (author permlink : String) (p : PostRec)
    : SameSupply r (r.putPost author permlink p) :=
  ⟨rfl, rfl, fun _ => id⟩

theorem createContent_moves (permlink : String) (window : Window) (mode : PayoutMode)
    (parentAuthor parentPermlink : String)
    (asked : (o.ctx.sender, permlink) ∈ o.action.publishes o.ctx)
    : Asks o (createContent o.ctx permlink window mode parentAuthor parentPermlink)
      (fun _ r' => Moves o r r') r := by
  simp only [createContent, Asks, wp_bind, asks_rows, wp_ite, wp_pure, asks_setRows]
  refine ⟨fun _ => .refl r, fun _ => ⟨fun _ => .refl r, fun _ => ⟨fun _ => .refl r, fun unused =>
    ⟨fun _ => ⟨fun _ => .refl r, fun _ => .refl r⟩, fun _ => ⟨putPost_supply _ _ _ _, ?_⟩⟩⟩⟩⟩
  have unknown : r.getPost o.ctx.sender permlink = none := by simpa using unused
  exact (Moves.refl r).step fun _ => .content <| .publish _ _ _ _ _ _ asked unknown

theorem createComment_moves (permlink : String) (mode : PayoutMode)
    (parentAuthor parentPermlink : String)
    (asked : (o.ctx.sender, permlink) ∈ o.action.publishes o.ctx)
    : Asks o (createComment o.ctx permlink mode parentAuthor parentPermlink)
      (fun _ r' => Moves o r r') r := by
  simp only [createComment, Asks, wp_bind, asks_rows, wp_ite, wp_pure]
  exact ⟨fun _ => .refl r, fun _ => ⟨fun _ => .refl r, fun _ => createContent_moves _ _ _ _ _ asked⟩⟩

theorem registerForAuthor_asks (o : Origin) (author permlink : String)
    : Asks o (registerForAuthor o.ctx author permlink)
      (fun res r' => res.ok = false ∧ r' = r
        ∨ res.ok = true ∧ r' = r.putPost author permlink (registeredBy o.ctx)) r := by
  simp only [registerForAuthor, Asks, wp_bind, asks_rows, wp_ite, wp_pure, asks_setRows]
  exact ⟨fun _ => .inl (by simp [fail]), fun _ => ⟨fun _ => .inl (by simp [fail]), fun _ =>
    ⟨putPost_supply _ _ _ _, .inr ⟨rfl, rfl⟩⟩⟩⟩

/-- Opening a post finds it or registers it, and otherwise changes nothing. -/
theorem openPost_asks (o : Origin) (author permlink : String)
    : Asks o (openPost o.ctx author permlink)
      (fun opened r' => (∃ reg, opened = .error reg ∧ reg.ok = false) ∧ r' = r
        ∨ (∃ p, opened = .ok p ∧ r.getPost author permlink = some p) ∧ r' = r
        ∨ r.getPost author permlink = none ∧ opened = .ok (registeredBy o.ctx)
          ∧ r' = r.putPost author permlink (registeredBy o.ctx)) r := by
  simp only [openPost, Asks, wp_bind, asks_rows]
  cases found : r.getPost author permlink with
  | some p => exact .inr (.inl ⟨⟨p, rfl, rfl⟩, rfl⟩)
  | none =>
      simp only [wp_bind, wp_ite, wp_pure, asks_rows]
      refine (registerForAuthor_asks o author permlink).mono fun reg r₁ h => ?_
      rcases h with ⟨refused, rfl⟩ | ⟨accepted, rfl⟩
      · exact ⟨fun _ => .inl ⟨⟨reg, rfl, refused⟩, rfl⟩, fun accepted => by simp [refused] at accepted⟩
      · refine ⟨fun refused => by simp [accepted] at refused, fun _ => ?_⟩
        have there : (r.putPost author permlink (registeredBy o.ctx)).getPost author permlink
            = some (registeredBy o.ctx) := by
          simp [Rows.getPost]
        simp only [there]
        exact .inr (.inr ⟨trivial, rfl, rfl⟩)

theorem promotePost_moves (author permlink : String) (amt : Int)
    : Asks o (promotePost o.ctx author permlink amt) (fun _ r' => Moves o r r') r := by
  simp only [promotePost, Asks, wp_bind, asks_rows, wp_ite, wp_pure]
  refine ⟨fun _ => .refl r, fun _ => ?_⟩
  cases found : r.getPost author permlink with
  | none => exact .refl r
  | some p =>
      simp only [wp_bind, wp_ite, wp_pure, asks_debit, true_and]
      refine ⟨fun _ => .refl r, fun _ => ⟨fun _ => .refl r, fun _ => ⟨fun _ => .refl r, fun _ =>
        ⟨fun _ => .refl r, fun _ => ⟨fun _ => .refl r, fun _ b => ⟨fun _ => .refl r, fun _ => ?_⟩⟩⟩⟩⟩⟩
      simp only [burn, wp_ite, wp_pure, asks_credit, asks_modify]
      have boosted (r₁ : Rows) (moved : Moves o r r₁) (same : r₁.post = r.post)
          : Moves o r (r₁.putPost author permlink { p with promoted := i64 (p.promoted + amt) }) :=
        moved.step fun _ => .content <| .boost author permlink p amt ((congrFun same _).trans found)
      have rolled : Touches [.roll] r (noteAccount r burnAccount) := (Touches.refl r).noteAccount _ (by rfl)
      have noted : Moves o r (noteAccount r burnAccount) := (Moves.refl r).note _
      simp [Moves.refl, putPost_supply, boosted r (.refl r) rfl, noted,
        boosted _ noted (rolled.post rfl)]

-----------------------------------------------------------------------------------------
-- Rewards
-----------------------------------------------------------------------------------------

/-- A reward writes a pending balance and the roll. -/
theorem payReward_asks (account : String) (amount : Int) (mode : PayoutMode)
    : Asks o (payReward o.ctx account amount mode)
      (fun _ r' => Moves o r r' ∧ Touches [.pending, .roll] r r') r := by
  have owed (r₁ : Rows) (h : Moves o r r₁ ∧ Touches [.pending, .roll] r r₁) (amount : Int)
      : Moves o r (accruePending r₁ account amount o.ctx.epoch)
        ∧ Touches [.pending, .roll] r (accruePending r₁ account amount o.ctx.epoch) :=
    ⟨h.1.step fun _ => .content <| .owe account amount, h.2.putPending account _ (by rfl)⟩
  have kept (r₁ : Rows) (amount : Int) : SameSupply r₁ (accruePending r₁ account amount o.ctx.epoch) :=
    (accruePending_touches r₁ account amount o.ctx.epoch).sameSupply rfl rfl
  have still : Moves o r r ∧ Touches [.pending, .roll] r r := ⟨.refl r, .refl r⟩
  have noted (account : String)
      : Moves o r (noteAccount r account) ∧ Touches [.pending, .roll] r (noteAccount r account) :=
    ⟨(Moves.refl r).note account, (Touches.refl r).noteAccount account rfl⟩
  simp only [payReward, Asks, wp_ite, wp_pure]
  refine ⟨fun _ => still, fun _ => ?_⟩
  cases mode with
  | burn =>
      simp only [burn, wp_ite, wp_pure, asks_credit]
      exact ⟨fun _ => still, fun _ => ⟨fun _ => still, noted burnAccount⟩⟩
  | powerUp =>
      simp only [wp_bind, asks_modify, wp_pure]
      exact ⟨kept r amount, owed r still amount⟩
  | default =>
      simp only [wp_bind, asks_credit, wp_ite, wp_pure, asks_modify]
      exact ⟨fun _ => ⟨fun _ => still, fun _ => ⟨kept _ _, owed _ still _⟩⟩,
        fun _ => noted account, fun _ => ⟨kept _ _, owed _ (noted account) _⟩⟩

/-- What is left of a payout once the emission is booked. -/
def closePost (ctx : Ctx) (author permlink : String) (p : PostRec) : Op Result := do
  let (total, r) := claimPool (← rows) p.window p.rshares
  if total ≤ 0 then
    setRows (r.putPost author permlink (p.settled ctx.height p.curatorPot p.curatorRshares))
    return ok "no rewards"
  let curatorPot := (mulDiv total curatorPct 100).getD 0
  let authorAmount := i64 (total - curatorPot)
  setRows (r.putPost author permlink (p.settled ctx.height curatorPot p.rshares))
  if !(← payReward ctx author authorAmount p.mode) then
    return fail "author payout failed"
  return ok ("paid author " ++ encI64 authorAmount)

/-- Closing a post writes the post and its pool, and then the author's reward. -/
theorem closePost_asks (author permlink : String) (p : PostRec)
    (paid : Moves o r (payoutRows r o.ctx.height author permlink p))
    : Asks o (closePost o.ctx author permlink p)
      (fun _ r' => Moves o r r'
        ∧ Touches [.pending, .roll] (payoutRows r o.ctx.height author permlink p) r') r := by
  have kept (next : PostRec)
      : SameSupply r ((claimPool r p.window p.rshares).2.putPost author permlink next) :=
    (((claimPool_touches r p.window p.rshares).sameSupply rfl rfl)).trans (putPost_supply _ _ _ _)
  simp only [closePost, Asks, wp_bind, asks_rows, wp_ite, wp_pure, asks_setRows]
  refine ⟨fun none_left => ⟨kept _, ?_⟩, fun some_left => ⟨kept _, ?_⟩⟩
  · simp only [payoutRows, none_left, if_true] at paid ⊢
    exact ⟨paid, .refl _⟩
  · simp only [payoutRows, some_left, if_false] at paid ⊢
    refine (payReward_asks author _ p.mode).mono fun _ _ rewarded => ?_
    have later := paid.trans rewarded.1
    exact ⟨fun _ => ⟨later, rewarded.2⟩, fun _ => ⟨later, rewarded.2⟩⟩

/-- A payout, from the rows that its settlement leaves. -/
theorem payout_moves (author permlink : String) (asked : o.action = .payout author permlink)
    : Asks o (payout o.ctx author permlink) (fun _ r' => Moves o o.start r') o.start := by
  simp only [payout, Asks, wp_bind, asks_rows, wp_ite, wp_pure]
  refine ⟨fun _ => .refl _, fun _ => ?_⟩
  cases found : o.start.getPost author permlink with
  | none => exact .refl _
  | some p =>
      simp only [wp_bind, wp_ite, wp_pure]
      refine ⟨fun _ => .refl _, fun unpaid => ⟨fun _ => .refl _, fun closed => ?_⟩⟩
      refine (settle_asks o).mono fun _ r₁ h => ?_
      obtain ⟨accrued, strides⟩ := h
      have found₁ := (accrued.touches.getPost author permlink rfl).trans found
      have moved : Moves o o.start r₁ := (Moves.refl _).step fun _ => .ledger <| .accrue accrued strides
      have paid : Moves o r₁ (payoutRows r₁ o.ctx.height author permlink p) :=
        (Moves.refl r₁).step fun _ => .content <| .pay author permlink p asked accrued found₁
          (by simpa using unpaid) (by omega)
      have rest := (closePost_asks author permlink p paid).mono fun _ _ closed =>
        moved.trans closed.1
      simpa only [closePost, Asks, wp_bind, asks_rows, wp_ite, wp_pure] using rest

/-- (Redeemed r account author permlink) says that a queue slot of `account` for this post has
nothing left to claim: the post has paid out, and its pot or the account's vote is gone. The
empty account's slots are claimed for the caller, so nothing is known of them.
-/
def Redeemed (r : Rows) (account author permlink : String) : Prop :=
  ∀ p, r.getPost author permlink = some p → p.paidOut = true
    ∧ (p.curatorRshares ≤ 0 ∨ p.curatorPot ≤ 0 ∨ account = ""
      ∨ r.postVote (postVoteKey author permlink account) = none)

/-- What a claim of curation writes. -/
abbrev claimSides : List Side := [.posts, .votes, .pending, .roll]

/-- A curation claim redeems the slot of its curator, if the post has paid out. -/
theorem claimCuration_asks (author permlink curator : String)
    (due : ∀ payee, payee = (if curator = "" then o.ctx.sender else curator)
      → Claimable o r author permlink payee)
    : Asks o (claimCuration o.ctx author permlink curator)
      (fun _ r' => Moves o r r' ∧ Touches claimSides r r'
        ∧ ((∀ p, r.getPost author permlink = some p → p.paidOut = true)
          → Redeemed r' curator author permlink)) r := by
  generalize who : (if curator = "" then o.ctx.sender else curator) = payee at due
  have due := due payee rfl
  have named : curator = "" ∨ curator = payee := by
    split at who <;> simp [*]
  simp only [claimCuration, Asks, wp_bind, asks_rows, who]
  cases found : r.getPost author permlink with
  | none => exact ⟨.refl r, .refl r, fun _ p there => absurd (found.symm.trans there) (by rintro ⟨⟩)⟩
  | some p =>
      have same (p' : PostRec) (there : r.getPost author permlink = some p') : p' = p :=
        Option.some.inj (there.symm.trans found)
      dsimp only
      split
      · rename_i unpaid
        exact ⟨.refl r, .refl r, fun settled => absurd (settled p rfl) (by simp [unpaid])⟩
      rename_i settled
      have paid : p.paidOut = true := by simpa using settled
      simp only [wp_ite, wp_pure]
      refine ⟨fun spent => ⟨.refl r, .refl r, fun _ p' there => ?_⟩, fun left => ?_⟩
      · obtain rfl := same p' there
        exact ⟨paid, by tauto⟩
      obtain ⟨base, pot⟩ := not_or.mp left
      cases vote : r.postVote (postVoteKey author permlink payee) with
      | none =>
          refine ⟨.refl r, .refl r, fun _ p' there => ?_⟩
          obtain rfl := same p' there
          refine ⟨paid, .inr (.inr ?_)⟩
          rcases named with empty | rfl
          · exact .inl empty
          · exact .inr vote
      | some mine =>
          have gone (r₁ : Rows) (absent : r₁.postVote (postVoteKey author permlink payee) = none)
              (known : ∀ p', r₁.getPost author permlink = some p' → p'.paidOut = true)
              : Redeemed r₁ curator author permlink := by
            refine fun p' there => ⟨known p' there, .inr (.inr ?_)⟩
            rcases named with empty | rfl
            · exact .inl empty
            · exact .inr absent
          have absent (r₁ : Rows) : (r₁.setPostVote (postVoteKey author permlink payee) none).postVote
              (postVoteKey author permlink payee) = none := by
            simp
          have dropped (worthless : mine ≤ 0
              ∨ (mulDiv p.curatorPot mine p.curatorRshares).getD 0 ≤ 0)
              : Moves o r (r.setPostVote (postVoteKey author permlink payee) none)
                ∧ Touches claimSides r (r.setPostVote (postVoteKey author permlink payee) none)
                ∧ ((∀ p', some p = some p' → p'.paidOut = true) → Redeemed
                  (r.setPostVote (postVoteKey author permlink payee) none) curator author permlink) :=
            ⟨(Moves.refl r).step fun _ => .content <| .forfeit author permlink payee p mine due found paid vote
                worthless,
              (Touches.refl r).setPostVote _ _ (by rfl), fun _ => gone _ (absent r)
                fun p' there => by rw [same p' there]; exact paid⟩
          simp only [wp_ite, wp_bind, wp_pure, asks_setRows]
          refine ⟨fun none_cast => ⟨⟨rfl, rfl, fun _ => id⟩, dropped (.inl none_cast)⟩, fun cast =>
            ⟨fun dust => ⟨⟨rfl, rfl, fun _ => id⟩, dropped (.inr dust)⟩,
              fun worth => ⟨⟨rfl, rfl, fun _ => id⟩, ?_⟩⟩⟩
          have claimed := (Moves.refl r : Moves o r r).step fun _ => .content <| .claim
            author permlink payee p mine due found paid (by omega) (by omega) vote (by omega) (by omega)
          have kept : Touches claimSides r (claimRows r author permlink payee p paid
              ((mulDiv p.curatorPot mine p.curatorRshares).getD 0) mine) :=
            ((Touches.refl r).putPost _ _ _ (by rfl)).setPostVote _ _ (by rfl)
          refine (payReward_asks payee _ .default).mono fun _ r₁ rewarded => ?_
          have later : Redeemed r₁ curator author permlink := by
            refine gone r₁ ((congrFun (rewarded.2.postVote rfl) _).trans (absent _)) ?_
            intro p' there
            have put : (claimRows r author permlink payee p paid
                ((mulDiv p.curatorPot mine p.curatorRshares).getD 0) mine).getPost author permlink
                = some p' := (rewarded.2.getPost author permlink rfl).symm.trans there
            simp only [claimRows, Rows.getPost, Rows.setPostVote_post, Rows.putPost_post,
              Function.update_self, Option.some.injEq] at put
            rw [← put]
            exact paid
          have moved := claimed.trans rewarded.1
          have touched := kept.trans (rewarded.2.widen (by decide))
          exact ⟨fun _ => ⟨moved, touched, fun _ => later⟩, fun _ => ⟨moved, touched, fun _ => later⟩⟩

theorem sweepCuration_moves (author permlink : String)
    : Asks o (sweepCuration o.ctx author permlink) (fun _ r' => Moves o r r') r := by
  simp only [sweepCuration, Asks, wp_bind, asks_rows]
  cases found : r.getPost author permlink with
  | none => exact .refl r
  | some p =>
      simp only [wp_ite, wp_bind, wp_pure, asks_setRows]
      refine ⟨fun _ => .refl r, fun paid => ⟨fun _ => .refl r, fun pot => ⟨fun _ => .refl r,
        fun ripe => ⟨(putPost_supply _ _ _ _).trans ((recycle_touches _ _).sameSupply (by rfl) (by rfl)), ?_⟩⟩⟩⟩
      exact (Moves.refl r).step fun _ => .content <| .sweepPot author permlink p found (by simpa using paid)
        (by omega) (by omega)

-----------------------------------------------------------------------------------------
-- The curation queue
-----------------------------------------------------------------------------------------

/-- The ends of the queues agree. -/
def SameEnds (r r' : Rows) : Prop :=
  ∀ account, r'.getU64 (.cqHead account) = r.getU64 (.cqHead account)
    ∧ r'.getU64 (.cqTail account) = r.getU64 (.cqTail account)

theorem Touches.sameEnds {sides : List Side} {r' : Rows} (h : Touches sides r r')
    (away : sides.contains .queues = false)
    : SameEnds r r' :=
  fun account => ⟨h.count (.cqHead account) away, h.count (.cqTail account) away⟩

theorem SameEnds.trans {r₁ r₂ : Rows} (h : SameEnds r r₁) (h' : SameEnds r₁ r₂)
    : SameEnds r r₂ :=
  fun account => ⟨(h' account).1.trans (h account).1, (h' account).2.trans (h account).2⟩

/-- What draining a queue of claims writes. -/
abbrev drainSides : List Side := .queues :: claimSides

/-- The scan claims and clears, by induction on the slots to go. -/
theorem drainScan_asks (account : String) (togo n : Nat)
    : Asks o (drainScan o.ctx account togo n)
      (fun _ r' => Moves o r r' ∧ SameEnds r r' ∧ Touches drainSides r r') r := by
  induction togo generalizing r n with
  | zero => exact ⟨.refl r, ((Touches.refl r : Touches [] r r).sameEnds rfl), .refl r⟩
  | succ togo ih =>
      have rest (r₁ : Rows) (moved : Moves o r r₁) (ends : SameEnds r r₁)
          (touched : Touches drainSides r r₁)
          : Asks o (drainScan o.ctx account togo (n + 1))
            (fun _ r' => Moves o r r' ∧ SameEnds r r' ∧ Touches drainSides r r') r₁ :=
        (ih (n + 1)).mono fun _ _ later =>
          ⟨moved.trans later.1, ends.trans later.2.1, touched.trans later.2.2⟩
      have still := (Touches.refl r : Touches [] r r).sameEnds rfl
      have cleared (r₁ : Rows) : SameEnds r₁ (r₁.setCuration account n none) := fun _ => ⟨rfl, rfl⟩
      unfold drainScan
      simp only [Asks, wp_bind, asks_rows]
      cases queued : r.curation (account, n) with
      | none => exact rest r (.refl r) still (.refl r)
      | some claim =>
          obtain ⟨author, permlink⟩ := claim
          dsimp only
          cases found : r.getPost author permlink with
          | none =>
              simp only [wp_bind, asks_modify]
              refine ⟨⟨rfl, rfl, fun _ => id⟩, rest _ ((Moves.refl r).step fun _ => .content <|
                .clearSlot account author permlink n queued fun p there => ?_) (still.trans (cleared r))
                ((Touches.refl r).setCuration account n none rfl)⟩
              exact absurd (found.symm.trans there) (by rintro ⟨⟩)
          | some p =>
              simp only [wp_ite, wp_bind, asks_modify, wp_pure]
              refine ⟨fun _ => rest r (.refl r) still (.refl r), fun paid => ?_⟩
              refine (claimCuration_asks author permlink account fun payee who =>
                ⟨account, .inr ⟨n, queued⟩, who⟩).mono fun _ r₁ claimed => ?_
              obtain ⟨moved, touched, redeemed⟩ := claimed
              have settled := redeemed fun p' there => by
                obtain rfl := Option.some.inj (found.symm.trans there)
                simpa using paid
              have claims : Touches drainSides r r₁ := touched.widen (by decide)
              refine ⟨⟨rfl, rfl, fun _ => id⟩, rest _ (moved.step fun _ => .content <|
                .clearSlot account author permlink n
                  ((congrFun (touched.curation rfl) _).trans queued) settled)
                ((touched.sameEnds rfl).trans (cleared r₁)) (claims.setCuration account n none rfl)⟩

theorem drainCuration_asks (account : String) (limit : Nat)
    : Asks o (drainCuration o.ctx account limit)
      (fun _ r' => Moves o r r' ∧ Touches drainSides r r') r := by
  simp only [drainCuration, Asks, wp_bind, asks_rows, asks_modify, wp_pure]
  refine (drainScan_asks account _ _).mono fun _ r₁ scanned => ?_
  obtain ⟨moved, ends, touched⟩ := scanned
  have advanced := moved.step fun _ => .content <| .advanceHead account
  rw [(ends account).1, (ends account).2] at advanced
  have heads := advanceHead_touches account
    (r.getU64 (.cqTail account) - r.getU64 (.cqHead account)) (r.getU64 (.cqHead account)) r₁
  exact ⟨(heads.sameSupply rfl rfl), advanced, touched.trans (heads.widen (by decide))⟩

theorem drainCuration_moves (account : String) (limit : Nat)
    : Asks o (drainCuration o.ctx account limit) (fun _ r' => Moves o r r') r :=
  (drainCuration_asks account limit).mono fun _ _ drained => drained.1

-----------------------------------------------------------------------------------------
-- Voting
-----------------------------------------------------------------------------------------

theorem unvote_moves (author permlink : String) (weightPct : Int64)
    (asked : o.action = .vote author permlink weightPct)
    : Asks o (unvote o.ctx author permlink) (fun _ r' => Moves o r r') r := by
  simp only [unvote, Asks, wp_bind, asks_rows]
  cases found : r.getPost author permlink with
  | none => exact .refl r
  | some p =>
      simp only [wp_ite, wp_pure]
      refine ⟨fun _ => .refl r, fun going => ?_⟩
      obtain ⟨unpaid, early⟩ := not_or.mp going
      cases vote : r.postVote (postVoteKey author permlink o.ctx.sender) with
      | none => exact .refl r
      | some prev =>
          simp only [wp_bind, asks_setRows, wp_pure]
          have moved := (Moves.refl r : Moves o r r).step fun _ => .content <| .unvote
            author permlink weightPct p prev asked found (by simpa using unpaid) (by omega) vote
          refine ⟨?_, moved⟩
          cases p.window <;> exact ⟨rfl, rfl, fun _ => id⟩

/-- What a vote does on the post that it finds or registers. -/
def castVote (ctx : Ctx) (author permlink : String) (weightPct : Int) (p : PostRec) : Op Result := do
  let r ← rows
  if p.paidOut ∨ ctx.height ≥ p.closesAt then return fail "voting has closed"
  let shares := sharesOf r ctx.sender
  if shares ≤ 0 then return fail "no L-Shares, no vote weight"
  match (r.getVotePower ctx.sender p.window).spend p.window ctx.height weightPct with
  | none => return fail "not enough vote power"
  | some power =>
      let rshares := voteWeight shares (voteCost weightPct)
      if rshares ≤ 0 then return fail "vote too small to register"
      setRows (writeVote r ctx author permlink p rshares power)
      let _ ← drainCuration ctx ctx.sender piggybackDrain
      return ok "voted"

/-- A vote, on a post that it finds or registers. -/
theorem vote_moves (author permlink : String) (weightPct : Int64)
    (asked : o.action = .vote author permlink weightPct)
    : Asks o (vote o.ctx author permlink weightPct.toInt) (fun _ r' => Moves o o.start r')
      o.start := by
  simp only [vote, Asks, wp_bind, asks_rows, wp_ite, wp_pure]
  refine ⟨fun _ => .refl _, fun _ => ⟨fun _ => .refl _, fun _ => ⟨fun _ => unvote_moves _ _ _ asked,
    fun nonzero => ?_⟩⟩⟩
  -- what the record that is voted on has to do with the rows at the start
  have cast (p : PostRec) (r₁ : Rows) (moved : Moves o o.start r₁)
      (found : r₁.getPost author permlink = some p)
      (opened : r₁ = o.start ∨ o.start.getPost author permlink = none
        ∧ r₁ = o.start.putPost author permlink (registeredBy o.ctx))
      : Asks o (castVote o.ctx author permlink weightPct.toInt p) (fun _ r' => Moves o o.start r')
        r₁ := by
    simp only [castVote, Asks, wp_bind, asks_rows, wp_ite, wp_pure]
    refine ⟨fun _ => moved, fun going => ⟨fun _ => moved, fun _ => ?_⟩⟩
    obtain ⟨unpaid, early⟩ := not_or.mp going
    cases (r₁.getVotePower o.ctx.sender p.window).spend p.window o.ctx.height weightPct.toInt with
    | none => exact moved
    | some power =>
        simp only [wp_bind, wp_ite, wp_pure, asks_setRows]
        refine ⟨fun _ => moved, fun weighty =>
          ⟨((writeVote_touches r₁ o.ctx author permlink p _ power).sameSupply (by rfl) (by rfl)), ?_⟩⟩
        have voted := moved.step fun _ => .content <| .vote author permlink
          weightPct p power asked found (by simpa using unpaid) (by omega) opened (by omega)
        exact (drainCuration_moves o.ctx.sender piggybackDrain).mono fun _ _ drained =>
          voted.trans drained
  refine (openPost_asks o author permlink).mono fun opened r₁ h => ?_
  rcases h with ⟨⟨reg, rfl, _⟩, rfl⟩ | ⟨⟨p, rfl, found⟩, rfl⟩ | ⟨unknown, rfl, rfl⟩
  · exact .refl _
  · exact cast p _ (.refl _) found (.inl rfl)
  · have published : (author, permlink) ∈ o.action.publishes o.ctx := by
      simp [asked, Action.publishes, nonzero]
    exact cast _ _ ((Moves.refl _).step fun _ => .content <| .publish author permlink .viral .default
      "" "" published unknown) (by simp [Rows.getPost]) (.inr ⟨unknown, rfl⟩)

-----------------------------------------------------------------------------------------
-- The monthly mint
-----------------------------------------------------------------------------------------

theorem putPending_supply (r : Rows) (account : String) (p : PendingAccount)
    : SameSupply r (r.putPending account p) :=
  ⟨rfl, rfl, fun _ => id⟩

theorem settlePending_moves (account : String)
    : Asks o (settlePending o.ctx account) (fun _ r' => Moves o r r') r := by
  simp only [settlePending, Asks, wp_bind, asks_rows, wp_ite, wp_pure]
  refine ⟨fun _ => .refl r, fun _ => ?_⟩
  refine (drainCuration_moves account maxCurationDrain).mono fun _ r₁ drained => ?_
  simp only [asks_setRows]
  refine ⟨fun _ => ⟨putPending_supply _ _ _, drained.step fun _ => .content <| .roll account⟩, fun _ =>
    ⟨fun _ => drained, fun _ => ⟨fun _ => drained, fun _ => ?_⟩⟩⟩
  refine (accrue_asks o).mono fun b r₂ h => ?_
  obtain ⟨⟨accrued, strides⟩, caught⟩ := h
  have moved : Moves o r r₂ := drained.step fun _ => .ledger <| .accrue accrued strides
  refine ⟨fun _ => moved, fun caughtUp => ?_⟩
  have current := caught (by simpa using caughtUp)
  have same := accrued.touches.getPending account rfl
  split
  · simp only [wp_bind, asks_setRows, wp_pure]
    refine ⟨⟨rfl, rfl, fun _ => id⟩, ?_⟩
    have rolled := moved.step fun _ => .content <| .roll account
    rw [same] at rolled
    simpa [Rows.putPending] using rolled
  · rename_i m made
    simp only [wp_bind, asks_setRows, wp_pure]
    refine ⟨putPending_supply _ _ _, ?_⟩
    refine (registerMints_asks o [m] ?_).mono fun _ _ entered => ?_
    · exact current
    · rw [entered.2]
      rw [← same] at made
      exact moved.step fun _ => .mint <| .convert account _ _ m made current

end LasseCash.State
