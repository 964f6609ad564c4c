import LasseCash.Engine.ConsensusGroup
import LasseCash.State.StepSides

/-! The leaderboard never holds an account twice, and offering it the accounts that lead puts them
in front of whatever is stale: the consensus group is then exactly these accounts.
-/

namespace LasseCash.State

open Engine MachineInt Program Ranking

-----------------------------------------------------------------------------------------
-- Ranks
-----------------------------------------------------------------------------------------

/-- An account's rank by its shares. -/
def seatRank (shares : String → Int) (account : String) : Int ×ₗ String :=
  (⟨account, shares account⟩ : Holder).rank

theorem seatRank_injective (shares : String → Int) : Function.Injective (seatRank shares) := by
  intro a b same
  exact congrArg Holder.account (Holder.rank_injective same)

/-- Whatever ranks before a holder of shares holds shares. -/
theorem holds_of_before {shares : String → Int} {a b : String} (holds : 0 < shares a)
    (before : seatRank shares b < seatRank shares a)
    : 0 < shares b := by
  rcases Prod.Lex.toLex_lt_toLex.mp before with more | ⟨same, -⟩
  · exact holds.trans (neg_lt_neg_iff.mp more)
  · exact holds.trans_eq (neg_inj.mp same).symm

theorem betterSeat_iff (r : Rows) (account other : String)
    : betterSeat r account (sharesOf r account) other = true
      ↔ seatRank (sharesOf r) account < seatRank (sharesOf r) other := by
  unfold betterSeat seatRank Holder.rank
  rw [Prod.Lex.toLex_lt_toLex]
  by_cases same : sharesOf r account = sharesOf r other <;> simp [same]

/-- The insertion loop places an account before the first one it outranks, by induction on the
board.
-/
theorem insertOnBoard_eq (r : Rows) (account : String) (board : List String)
    : insertOnBoard r account (sharesOf r account) board
      = board.orderedInsert (seatRank (sharesOf r) · < seatRank (sharesOf r) ·) account := by
  induction board with
  | nil => rfl
  | cons a rest ih =>
      rw [insertOnBoard, List.orderedInsert_cons, ih]
      exact if_congr (betterSeat_iff r account a) rfl rfl

/-- Every seat of the board ranks no later than the weakest, by induction on the board. -/
theorem weakestOnBoard_last (r : Rows) (weakest : String) (rest : List String)
    : weakestOnBoard r weakest rest ∈ weakest :: rest
      ∧ ∀ a ∈ weakest :: rest,
        seatRank (sharesOf r) a ≤ seatRank (sharesOf r) (weakestOnBoard r weakest rest) := by
  induction rest generalizing weakest with
  | nil => exact ⟨List.mem_cons_self, fun a there => by rw [List.mem_singleton.mp there]; rfl⟩
  | cons a rest ih =>
      rw [weakestOnBoard]
      by_cases ahead : betterSeat r weakest (sharesOf r weakest) a = true
      · obtain ⟨there, last⟩ := ih a
        rw [if_pos ahead]
        refine ⟨List.mem_cons_of_mem _ there, List.forall_mem_cons.mpr ⟨?_, last⟩⟩
        exact ((betterSeat_iff r weakest a).mp ahead).le.trans (last a List.mem_cons_self)
      · obtain ⟨there, last⟩ := ih weakest
        have behind := not_lt.mp fun before => ahead ((betterSeat_iff r weakest a).mpr before)
        rw [if_neg ahead]
        obtain ⟨least, later⟩ := List.forall_mem_cons.mp last
        refine ⟨?_, List.forall_mem_cons.mpr ⟨least, List.forall_mem_cons.mpr
          ⟨behind.trans least, later⟩⟩⟩
        rcases List.mem_cons.mp there with same | deeper
        · rw [same]
          exact List.mem_cons_self
        · exact List.mem_cons_of_mem _ (List.mem_cons_of_mem _ deeper)

-----------------------------------------------------------------------------------------
-- Offers
-----------------------------------------------------------------------------------------

/-- The board on which an account has been given its seat. -/
def seated (r : Rows) (account : String) : List String :=
  (insertOnBoard r account (sharesOf r account) (r.board.filter (· ≠ account))).take boardSize

theorem mem_insertOnBoard (r : Rows) (account : String) (board : List String)
    : account ∈ insertOnBoard r account (sharesOf r account) board := by
  rw [insertOnBoard_eq]
  exact (List.mem_orderedInsert _).mpr (.inl rfl)

/-- An offer to a named holder of shares gives it a seat, or finds a full board on which all
rank before it.
-/
theorem offer_seats {r : Rows} {account : String} (named : account ≠ "")
    (holds : 0 < sharesOf r account)
    : (offer r account).board = seated r account
      ∨ account ∉ r.board ∧ boardSize ≤ r.board.length
        ∧ ∀ b ∈ r.board, seatRank (sharesOf r) b ≤ seatRank (sharesOf r) account := by
  unfold offer
  dsimp only
  rw [if_neg holds.not_ge]
  split_ifs with refused same
  · obtain ⟨outside, full, unbeaten⟩ := refused
    refine .inr ⟨outside, full, fun b there => ?_⟩
    cases board : r.board with
    | nil =>
        rw [board] at there
        exact absurd there List.not_mem_nil
    | cons first rest =>
        rw [board] at there
        simp only [board] at unbeaten
        have last := (weakestOnBoard_last r first rest).2 b there
        refine last.trans (not_lt.mp fun before => ?_)
        rw [(betterSeat_iff r account _).mpr before] at unbeaten
        cases unbeaten
  · exact .inl same
  · left
    have placed := mem_insertOnBoard r account (r.board.filter (· ≠ account))
    have listed : seated r account ≠ [""] := by
      intro nobody
      have one := congrArg List.length nobody
      rw [seated, List.length_take] at one
      have whole : seated r account
          = insertOnBoard r account (sharesOf r account) (r.board.filter (· ≠ account)) :=
        List.take_of_length_le (by simp [boardSize] at one ⊢; omega)
      rw [← whole, nobody] at placed
      exact named (List.mem_singleton.mp placed)
    have kept : (seated r account).take 20 = seated r account := by
      rw [seated, List.take_take]
      rfl
    rw [Rows.putBoard_board]
    change (if (seated r account).take 20 = [""] then [] else (seated r account).take 20) = _
    rw [kept, if_neg listed]

/-- No account is seated twice. -/
theorem putBoard_nodup {r : Rows} {accounts : List String} (apart : accounts.Nodup)
    : (r.putBoard accounts).board.Nodup := by
  rw [Rows.putBoard_board]
  split
  · exact .nil
  · exact apart.sublist (List.take_sublist 20 accounts)

theorem seated_nodup {r : Rows} (apart : r.board.Nodup) (account : String)
    : (insertOnBoard r account (sharesOf r account) (r.board.filter (· ≠ account))).Nodup := by
  rw [insertOnBoard_eq]
  refine (List.perm_orderedInsert _ account _).nodup_iff.mpr (List.nodup_cons.mpr ⟨?_, ?_⟩)
  · simp
  · exact apart.filter _

/-- By cases on the tests of the offer. -/
theorem offer_nodup {r : Rows} (apart : r.board.Nodup) (account : String)
    : (offer r account).board.Nodup := by
  unfold offer
  dsimp only
  have removed : (r.board.filter (· ≠ account)).Nodup := apart.filter _
  have placed := (seated_nodup apart account).sublist (List.take_sublist boardSize _)
  split_ifs
  · exact putBoard_nodup removed
  · exact apart
  · exact apart
  · exact apart
  · exact putBoard_nodup placed

theorem offer_sharesOf (r : Rows) (account : String) : sharesOf (offer r account) = sharesOf r := by
  have touched : Touches [.board] r (offer r account) := (Touches.refl r).offer account rfl
  funext other
  exact touched.amount (.shares other) rfl

-----------------------------------------------------------------------------------------
-- Promotions
-----------------------------------------------------------------------------------------

/-- The consensus group holds the first ten of the board's holders of shares, ranked. -/
theorem consensusMembers_ranked (r : Rows)
    : ∃ names : List String, names.Perm (r.board.filter (0 < sharesOf r ·))
      ∧ names.Pairwise (seatRank (sharesOf r) · ≤ seatRank (sharesOf r) ·)
      ∧ consensusMembers r
        = (names.take consensusSize).map fun account => ⟨account, sharesOf r account⟩ := by
  obtain ⟨ranked, same, sorted, group⟩ :=
    consensusGroup_ranked (r.board.map fun account => ⟨account, sharesOf r account⟩)
  rw [List.filter_map] at same
  have live : (ranked.map (·.account)).map (fun account => ⟨account, sharesOf r account⟩)
      = ranked := by
    rw [List.map_map]
    refine (List.map_congr_left fun h there => ?_).trans (List.map_id ranked)
    obtain ⟨account, -, rfl⟩ := List.mem_map.mp (same.mem_iff.mp there)
    rfl
  refine ⟨ranked.map (·.account), ?_, ?_, ?_⟩
  · have names := same.map (·.account)
    rw [List.map_map] at names
    simpa [Function.comp_def] using names
  · rw [← live] at sorted
    have ordered := List.pairwise_map.mp sorted
    exact ordered
  · rw [consensusMembers, group, ← live, ← List.map_take, live]

/-- Leading accounts that stand before whatever is stale are the consensus group. -/
theorem consensusMembers_leads {r : Rows} {order : List String}
    (leads : Leads (seatRank (sharesOf r)) (0 < sharesOf r ·) consensusSize order)
    (apart : r.board.Nodup) (seats : order ⊆ r.board)
    : ∃ ranked : List String, ranked.Perm order
      ∧ ranked.Pairwise (seatRank (sharesOf r) · < seatRank (sharesOf r) ·)
      ∧ consensusMembers r = ranked.map fun account => ⟨account, sharesOf r account⟩ := by
  obtain ⟨names, same, sorted, group⟩ := consensusMembers_ranked r
  have alone : names.Nodup := same.nodup_iff.mpr (apart.filter _)
  have able : ∀ account ∈ names, 0 < sharesOf r account := fun account there => by
    simpa using (List.mem_filter.mp (same.mem_iff.mp there)).2
  have all : order ⊆ names := fun account there =>
    same.mem_iff.mpr (List.mem_filter.mpr ⟨seats there, by simpa using leads.able account there⟩)
  refine ⟨names.take consensusSize, leads.take_perm alone sorted able all, ?_, group⟩
  have cut := List.take_sublist consensusSize names
  refine ((sorted.sublist cut).and (alone.sublist cut)).imp ?_
  rintro a b ⟨before, distinct⟩
  exact before.lt_of_ne fun tie => distinct (seatRank_injective _ tie)

/-- Offering a leading account a seat fronts it and keeps the others that lead fronted. -/
theorem offer_fronts {r : Rows} {order : List String}
    (leads : Leads (seatRank (sharesOf r)) (0 < sharesOf r ·) consensusSize order)
    (apart : r.board.Nodup) {account : String} (named : account ≠ "") (here : account ∈ order)
    : Fronted (seatRank (sharesOf r)) (offer r account).board account
      ∧ ∀ other ∈ order, Fronted (seatRank (sharesOf r)) r.board other
        → Fronted (seatRank (sharesOf r)) (offer r account).board other := by
  have holds := leads.able account here
  have small : consensusSize ≤ boardSize := by decide
  rcases offer_seats named holds with board | ⟨outside, full, before⟩
  · have placed := fronted_inserted (seatRank (sharesOf r))
      (r.board.filter (· ≠ account)) account
    have alone := seated_nodup apart account
    have fronted {other : String} (there : other ∈ order) (front : Fronted (seatRank (sharesOf r))
        (insertOnBoard r account (sharesOf r account) (r.board.filter (· ≠ account))) other)
        : Fronted (seatRank (sharesOf r)) (offer r account).board other := by
      rw [board]
      exact front.take (seatRank_injective _) leads holds_of_before there alone small
    rw [← insertOnBoard_eq] at placed
    refine ⟨fronted here placed, fun other there front => ?_⟩
    by_cases same : other = account
    · exact same ▸ fronted here placed
    · have kept := (front.filter (p := (· ≠ account)) (by simpa using same)).insert account
      rw [← insertOnBoard_eq] at kept
      exact fronted there kept
  · -- a full board of accounts that all rank before one that leads
    have ahead : ∀ b ∈ r.board, seatRank (sharesOf r) b < seatRank (sharesOf r) account :=
      fun b there => (before b there).lt_of_ne fun tie =>
        outside (seatRank_injective _ tie ▸ there)
    have few := leads.before_lt holds_of_before here apart ahead
    exact absurd (few.trans_le (small.trans full)) (lt_irrefl _)

-----------------------------------------------------------------------------------------
-- Every run seats accounts once
-----------------------------------------------------------------------------------------

/-- By induction on the mints, each of which is offered once. -/
theorem stampMints_nodup (acc : Int) (mints : List Mint) {r : Rows} (apart : r.board.Nodup)
    : (stampMints acc mints r).1.board.Nodup := by
  induction mints generalizing r with
  | nil => exact apart
  | cons m rest ih =>
      refine ih (offer_nodup ?_ m.owner)
      exact apart

theorem enterMints_nodup {r : Rows} (apart : r.board.Nodup) (mints : List Mint)
    : (enterMints r mints).1.board.Nodup := by
  obtain ⟨total, touched⟩ := enterMints_stamps r mints
  rw [(touched.board rfl)]
  exact stampMints_nodup (accPerShare r) mints apart

/-- Only offers write the board. -/
theorem Step.board_nodup {o : Origin} {whole : Prop} {r r' : Rows} (h : Step o whole r r')
    (apart : r.board.Nodup)
    : r'.board.Nodup := by
  cases h with
  | ledger step =>
      cases step with
      | note account =>
          have noted : Touches [.roll] r _ := (Touches.refl r).noteAccount account rfl
          exact (noted.board rfl) ▸ apart
      | push delta next positive sum => exact apart
      | accrue accrues strides => exact (accrues.touches.board rfl) ▸ apart
      | fund done target amt asked first positive =>
          exact ((fundTarget_touches r target amt.toInt).board rfl) ▸ apart
      | recycle amt => exact ((recycle_touches r amt).board rfl) ▸ apart
      | seat account => exact offer_nodup apart account
      | prefer key value => exact apart
      | span days => exact apart
  | mint step =>
      cases step with
      | enter mints entries => exact enterMints_nodup apart mints
      | convert account days params m made current =>
          exact enterMints_nodup (r := r.putPending account _) apart [m]
      | close owner id m accEnd found going reading own =>
          obtain ⟨r₁, touched, offered⟩ := closeMint_offers r id m (accruedYield r m accEnd)
          rw [offered]
          exact offer_nodup ((touched.board rfl) ▸ apart) m.owner
      | arm id m found able => exact apart
  | content step => exact (step.touches.board rfl) ▸ apart
  | liquidity step => exact (step.touches.board rfl) ▸ apart
  | migration step => exact (step.touches.board rfl) ▸ apart

-----------------------------------------------------------------------------------------
-- Every run leaves finitely many holders of shares
-----------------------------------------------------------------------------------------

/-- (FewHolders r) says that finitely many accounts hold shares. -/
def FewHolders (r : Rows) : Prop := {account | sharesOf r account ≠ 0}.Finite

section Holders

variable {r r' : Rows}

theorem FewHolders.of_same (few : FewHolders r)
    (same : ∀ account, sharesOf r' account = sharesOf r account)
    : FewHolders r' := by
  unfold FewHolders at few ⊢
  simpa only [same] using few

theorem FewHolders.touches {sides : List Side} (few : FewHolders r) (touched : Touches sides r r')
    (away : sides.contains .shares = false)
    : FewHolders r' :=
  few.of_same fun account => touched.amount (.shares account) away

theorem FewHolders.setAmount (few : FewHolders r) (k : AmountKey) (v : Int)
    : FewHolders (r.setAmount k v) := by
  unfold FewHolders at few ⊢
  by_cases held : ∃ owner, k = .shares owner
  · obtain ⟨owner, rfl⟩ := held
    refine (few.insert owner).subset fun account holds => ?_
    by_cases same : account = owner
    · exact .inl same
    · refine .inr ?_
      simpa [sharesOf, same] using holds
  · refine few.subset fun account holds => ?_
    have other : AmountKey.shares account ≠ k := fun same => held ⟨account, same.symm⟩
    simpa [sharesOf, other] using holds

/-- A drain writes shares one account at a time. -/
theorem fewHolders_drainKeeps (day : Nat) : DrainKeeps day FewHolders where
  shares _ account v few := few.setAmount (.shares account) v
  chunk _ _ few := few
  cursor _ _ few := few
  closed _ few := few

theorem FewHolders.expire {w : Walk} (few : FewHolders w.rows) : FewHolders w.expire.rows := by
  unfold Walk.expire
  dsimp only
  split
  · exact few.of_same fun account => by simp [sharesOf]
  · exact few

theorem FewHolders.closeDay {w : Walk} (few : FewHolders w.rows) (sc : EmissionSchedule)
    : FewHolders (w.closeDay sc).rows := by
  unfold Walk.closeDay
  refine FewHolders.expire ?_
  rw [(Walk.distribute_frame _ _).1, (Walk.emit_frame _ _).1]
  exact few

theorem FewHolders.days (sc : EmissionSchedule) (togo : Nat) {w : Walk} (few : FewHolders w.rows)
    : FewHolders (Walk.days sc togo w).rows := by
  refine Walk.days_keep (P := fun w => FewHolders w.rows) ?_ ?_ few togo
  · rintro w rows budget rfl few
    exact (fewHolders_drainKeeps w.day).drainExpiryList few w.budget
  · exact fun w few => few.closeDay sc

theorem FewHolders.accrues {height : Nat} (few : FewHolders r) (h : Accrues height r r')
    : FewHolders r' := by
  have walked (maxDays : Int) (budget : Nat)
      : FewHolders (callWalk r height maxDays budget).rows :=
    FewHolders.days _ _ few
  have committed (w : Walk) {r : Rows} (few : FewHolders r) : FewHolders (w.commit r) :=
    few.of_same fun account => by simp [Walk.commit, sharesOf]
  cases h with
  | idle => exact few
  | stalled maxDays budget behind due => exact walked maxDays budget
  | booked maxDays budget behind due next sum =>
      have emitted := (walked maxDays budget).setAmount .emitted next
      exact committed _ (emitted.touches (creditPools_touches _ _) (by rfl))
  | flat maxDays budget behind none_due => exact committed _ (walked maxDays budget)

/-- Stamping writes the shares of one account after the other. -/
theorem FewHolders.stampMints (few : FewHolders r) (acc : Int) (mints : List Mint)
    : FewHolders (stampMints acc mints r).1 := by
  induction mints generalizing r with
  | nil => exact few
  | cons m rest ih =>
      have counted : FewHolders
          (r.setU64 (.mintSeq m.owner) (r.getU64 (.mintSeq m.owner) + 1)) := few
      refine ih ?_
      exact (counted.setAmount (.shares m.owner) _).touches
        ((Touches.refl _).offer m.owner (by rfl) : Touches [.board] _ _) (by rfl)

theorem FewHolders.enterMints (few : FewHolders r) (mints : List Mint)
    : FewHolders (enterMints r mints).1 := by
  obtain ⟨total, touched⟩ := enterMints_stamps r mints
  exact ((few.stampMints (accPerShare r) mints).setAmount .sharesTotal total).touches touched rfl

theorem removeExpiryEntry_shares (r : Rows) (day chunk : Nat) (owner account : String) (shares : Int)
    : sharesOf (removeExpiryEntry r day chunk owner shares) account = sharesOf r account := by
  unfold removeExpiryEntry
  split
  · rfl
  split
  · split <;> rfl
  · rfl

theorem unscheduleExpiry_shares (r : Rows) (day : Nat) (shares : Int) (account : String)
    : sharesOf (unscheduleExpiry r day shares) account = sharesOf r account := by
  unfold unscheduleExpiry
  dsimp only
  split
  · rfl
  split <;> simp [sharesOf]

/-- Closing a mint writes the shares of its owner at most. -/
theorem closeMint_shares (r : Rows) (id : Nat) (m : Mint) (accrued : Int) {account : String}
    (away : m.owner ≠ account)
    : sharesOf (closeMint r id m accrued) account = sharesOf r account := by
  unfold closeMint
  dsimp only
  rw [offer_sharesOf]
  generalize paid : (if accrued > 0 then _ else r : Rows) = r₁
  have pool : sharesOf r₁ account = sharesOf r account := by
    rw [← paid]
    split
    · simp [sharesOf]
    · rfl
  have marked : sharesOf (r₁.putMint id { m with ended := true }) account = sharesOf r account := pool
  generalize r₁.putMint id { m with ended := true } = r₂ at marked
  generalize released : (if ¬accruedDays r > maturityDay r m
    ∧ ¬r₂.getU64 (.explCursor (maturityDay r m)) > m.expChunk then _ else r₂ : Rows) = r₃
  have freed : sharesOf r₃ account = sharesOf r account := by
    rw [← released]
    split
    · rw [removeExpiryEntry_shares, ← marked]
      simp [sharesOf, away.symm]
    · exact marked
  split
  · rw [unscheduleExpiry_shares, ← freed]
    simp [sharesOf]
  · exact freed

theorem FewHolders.closeMint (few : FewHolders r) (id : Nat) (m : Mint) (accrued : Int)
    : FewHolders (closeMint r id m accrued) := by
  refine (few.insert m.owner).subset fun account holds => ?_
  by_cases own : account = m.owner
  · exact .inl own
  · exact .inr fun none_before => holds ((closeMint_shares r id m accrued (Ne.symm own)).trans none_before)

theorem Step.fewHolders {o : Origin} {whole : Prop} (h : Step o whole r r') (few : FewHolders r)
    : FewHolders r' := by
  cases h with
  | ledger step =>
      cases step with
      | note account =>
          exact few.touches ((Touches.refl r).noteAccount account rfl : Touches [.roll] r _) (by rfl)
      | push delta next positive sum => exact few.setAmount _ _
      | accrue accrues strides => exact few.accrues accrues
      | fund done target amt asked first positive =>
          exact few.touches (fundTarget_touches r target amt.toInt) rfl
      | recycle amt => exact few.touches (recycle_touches r amt) rfl
      | seat account => exact few.touches ((Touches.refl r).offer account rfl : Touches [.board] r _) (by rfl)
      | prefer key value => exact few
      | span days => exact few
  | mint step =>
      cases step with
      | enter mints entries => exact few.enterMints mints
      | convert account days params m made current =>
          have paid : FewHolders (r.putPending account ⟨0, o.ctx.epoch⟩) := few
          exact paid.enterMints [m]
      | close owner id m accEnd found going reading own => exact few.closeMint id m _
      | arm id m found able => exact few
  | content step => exact few.touches step.touches rfl
  | liquidity step =>
      cases step with
      | deposit done lcIn maxHbd hbdIn shares r' asked first positive priced earned some_earned
          accrues strides =>
          have deposited := few.touches (depositRows_touches r lcIn.toInt hbdIn shares) rfl
          exact (deposited.accrues accrues).touches (deposited_touches accrues o.ctx).1 rfl
      | settle owner id t asked accrued found going own =>
          exact few.touches (settleRows_touches r _ id t) (by rfl)
      | touch id t found going => exact few
      | withdraw asked owner id t lcOut hbdOut paid r' found going own amounts dust noted =>
          exact (few.touches (takenFromPool_touches noted) rfl : FewHolders r')
      | strand torn asked owner id t lcOut hbdOut paid found going own amounts dust =>
          exact few.touches (takeFromPool_touches r t lcOut paid) rfl
      | sellLC lcIn minOut out asked swap => exact (few.setAmount _ _).setAmount _ _
      | buyLC hbdIn minOut out asked swap => exact (few.setAmount _ _).setAmount _ _
  | migration step => exact few.touches step.touches rfl

end Holders

-----------------------------------------------------------------------------------------
-- Pushes and early claims
-----------------------------------------------------------------------------------------

/-- Stamping changes the shares of owners only, by induction on the mints. -/
theorem stampMints_shares (acc : Int) {mints : List Mint} {r : Rows} {other : String}
    (away : ∀ m ∈ mints, m.owner ≠ other)
    : sharesOf (stampMints acc mints r).1 other = sharesOf r other := by
  induction mints generalizing r with
  | nil => rfl
  | cons m rest ih =>
      obtain ⟨apart, away⟩ := List.forall_mem_cons.mp away
      refine (ih away).trans ?_
      rw [offer_sharesOf]
      simp [sharesOf, apart.symm]

theorem enterMints_shares {mints : List Mint} {r : Rows} {other : String}
    (away : ∀ m ∈ mints, m.owner ≠ other)
    : sharesOf (enterMints r mints).1 other = sharesOf r other := by
  obtain ⟨total, touched⟩ := enterMints_stamps r mints
  have kept := touched.amount (.shares other) rfl
  rw [sharesOf, kept, ← stampMints_shares (accPerShare r) away]
  simp [sharesOf]

theorem newMigrationMint_owner {owner : String} {staked : Int} {height : Nat} {m : Mint}
    (made : newMigrationMint owner staked height = some m)
    : m.owner = owner := by
  unfold newMigrationMint at made
  split at made
  · cases made
  · obtain rfl := Option.some.inj made
    rfl

/-- A push changes nobody else's shares. -/
theorem creditMigration_shares (o : Origin) (account : String) (liquid staked : Int) (r : Rows)
    {other : String} (away : account ≠ other)
    : Asks o (creditMigration account liquid staked)
      (fun _ r' => sharesOf r' other = sharesOf r other) r := by
  have supply (delta : Int) (word : delta < 2 ^ 63) : Asks o (mintSupply .migrated delta)
      (fun _ r' => sharesOf r' other = sharesOf r other) r := by
    simp only [asks_mintSupply]
    exact ⟨⟨.inl trivial, word⟩, fun _ => trivial, fun _ => trivial, fun _ next _ => by simp [sharesOf]⟩
  have credit (r : Rows) : Asks o (creditIfAny account liquid)
      (fun _ r' => sharesOf r' other = sharesOf r other) r := by
    have noted : Touches [.roll] r (noteAccount r account) := (Touches.refl r).noteAccount account rfl
    simp only [creditIfAny, Asks, wp_ite, wp_pure, asks_credit]
    exact ⟨fun _ => ⟨fun _ => trivial, noted.amount (.shares other) rfl⟩, fun _ => trivial⟩
  have stake (r : Rows) : Asks o (stakeIfAny account staked)
      (fun _ r' => sharesOf r' other = sharesOf r other) r := by
    have current : dayOf r (genesisHeight r) ≤ accruedDays r := by simp [dayOf]
    simp only [stakeIfAny, creditMigrationMint, Asks, wp_ite, wp_pure, wp_bind, asks_rows]
    refine ⟨fun _ => ?_, fun _ => trivial⟩
    cases made : newMigrationMint account staked (genesisHeight r) with
    | none => rfl
    | some m =>
        simp only [wp_bind, wp_pure]
        refine (registerMints_asks o [m] current).mono fun _ r' h => ?_
        rw [h.2]
        exact enterMints_shares fun m' member => by
          obtain rfl := List.mem_singleton.mp member
          rw [newMigrationMint_owner made]
          exact away
  simp only [creditMigration, Asks, wp_bind, asks_rows, wp_ite, wp_pure]
  refine ⟨fun _ => trivial, fun _ => ⟨fun _ => trivial, fun _ => ⟨fun _ => trivial,
    fun _ => ⟨fun _ => trivial, fun _ => ⟨fun _ => trivial, fun _ => ?_⟩⟩⟩⟩⟩
  cases addAmount (r.getAmount .migrated) (i64 (liquid + staked)) with
  | none => trivial
  | some next =>
      simp only [wp_ite, wp_bind, wp_pure]
      refine ⟨fun _ => trivial, fun _ => ?_⟩
      refine (supply _ (i64_mem _).upper).mono fun _ r₁ minted => ⟨fun _ => minted, fun _ => ?_⟩
      refine (credit r₁).mono fun _ r₂ credited => ?_
      have paid := credited.trans minted
      refine ⟨fun _ => paid, fun _ => (stake r₂).mono fun _ r₃ staked => ?_⟩
      have entered := staked.trans paid
      simp only [asks_modify]
      exact ⟨fun _ => entered, fun _ => ⟨setMigDone_supply _ _ _, entered⟩⟩

/-- Where the walk is current, a claim changes nobody else's shares. -/
theorem claimMint_shares (o : Origin) (id : Nat) {r : Rows} {other : String}
    (away : o.ctx.sender ≠ other) (current : dayOf r o.ctx.height ≤ accruedDays r)
    : Asks o (claimMint o.ctx id) (fun _ r' => sharesOf r' other = sharesOf r other) r := by
  simp only [claimMint, endMint, Asks, wp_bind, asks_rows, wp_ite, wp_pure]
  refine ⟨fun _ => trivial, fun _ => ?_⟩
  cases found : r.getMint o.ctx.sender id with
  | none => rfl
  | some m =>
      simp only [wp_bind, asks_rows, wp_ite, wp_pure]
      refine ⟨fun _ => trivial, fun _ => (accrue_current o current).mono fun _ r₁ h => ?_⟩
      obtain ⟨-, rfl⟩ := h
      cases accEndOf r₁ m o.ctx.height with
      | none => rfl
      | some accEnd =>
          simp only [wp_bind, wp_ite, wp_pure, asks_setRows, asks_modify]
          refine ⟨fun _ => trivial, fun _ => ?_⟩
          have owner : m.owner = o.ctx.sender := getMint_owner found
          have kept := (closeMint_touches r₁ id m (accruedYield r₁ m accEnd)).sameSupply rfl rfl
          have closed := closeMint_shares r₁ id m (accruedYield r₁ m accEnd) (owner.trans_ne away)
          have recycled (r₂ : Rows) (amt : Int) := (recycle_touches r₂ amt).sameSupply rfl rfl
          have unshared (r₂ : Rows) (amt : Int) : sharesOf (recycle r₂ amt) other = sharesOf r₂ other :=
            (recycle_touches r₂ amt).amount (.shares other) rfl
          have noted (r₂ : Rows) : sharesOf (noteAccount r₂ o.ctx.sender) other = sharesOf r₂ other :=
            ((Touches.refl r₂).noteAccount o.ctx.sender rfl : Touches [.roll] r₂ _).amount
              (.shares other) rfl
          refine ⟨kept, ?_⟩
          simp [endMint.payOwner, recycled, closed, noted, unshared]

theorem Step.genesis {o : Origin} {whole : Prop} {r r' : Rows} (h : Step o whole r r')
    : genesisHeight r' = genesisHeight r := by
  cases h with
  | ledger step => exact step.touches.count .genesis rfl
  | mint step => exact step.touches.count .genesis rfl
  | content step => exact step.touches.count .genesis rfl
  | liquidity step => exact step.touches.count .genesis rfl
  | migration step => exact step.touches.count .genesis rfl

/-- (Spares other q) says that a request is a push of another account, or a claim by another account
that comes before anything is to accrue.
-/
def Spares (genesis : Nat) (other : String) (q : Request) : Prop :=
  (∃ account liquid staked, q.action = .creditMigration account liquid staked ∧ account ≠ other)
    ∨ ∃ id, q.action = .claimMint id ∧ q.ctx.sender ≠ other ∧ q.ctx.height ≤ genesis

section Spared

variable {A : Type} [Assets A] {other : String}

theorem exec_spares {q : Request} {w : World A} (spares : Spares (genesisHeight w.rows) other q)
    : sharesOf (q.exec w).1.rows other = sharesOf w.rows other := by
  have done : sharesOf (q.action.exec q.ctx w).1.rows other = sharesOf w.rows other := by
    rcases spares with ⟨account, liquid, staked, asked, away⟩ | ⟨id, asked, away, early⟩
    · rw [asked, Action.exec_of_program (p := creditMigration account liquid.toInt staked.toInt) rfl]
      exact asks_serve False.elim
        (creditMigration_shares ⟨q.ctx, .settle, .empty, False⟩ account _ _ _ away)
    · have current : dayOf w.rows q.ctx.height ≤ accruedDays w.rows := by
        rw [dayOf, if_pos early]
        exact Nat.zero_le _
      rw [asked, Action.exec_of_program (p := claimMint q.ctx id.toNat) rfl]
      exact asks_serve False.elim
        (claimMint_shares ⟨q.ctx, .settle, .empty, False⟩ id.toNat away current)
  rw [Request.exec]
  dsimp only
  split
  · rfl
  · exact done

/-- By induction on the requests. -/
theorem after_spares {requests : List Request} {w : World A}
    (spares : ∀ q ∈ requests, Spares (genesisHeight w.rows) other q)
    : sharesOf (after w requests).rows other = sharesOf w.rows other := by
  induction requests generalizing w with
  | nil => rfl
  | cons q rest ih =>
      obtain ⟨first, later⟩ := List.forall_mem_cons.mp spares
      have genesis : genesisHeight (q.exec w).1.rows = genesisHeight w.rows :=
        (q.exec_steps w).keep (I := fun r => genesisHeight r = genesisHeight w.rows)
          (fun _ _ same step => step.genesis.trans same) rfl
      exact (ih (w := (q.exec w).1) (genesis ▸ later)).trans (exec_spares first)

end Spared

-----------------------------------------------------------------------------------------
-- Promoting whoever leads
-----------------------------------------------------------------------------------------

/-- (TopTen r order) says that `order` lists, in some order, the at most ten accounts that rank
highest by shares among all accounts with a positive share count.
-/
abbrev TopTen (r : Rows) (order : List String) : Prop :=
  Leads (seatRank (sharesOf r)) (0 < sharesOf r ·) consensusSize order

theorem FewHolders.topTen {r : Rows} (few : FewHolders r) : ∃ order, TopTen r order :=
  exists_leads (seatRank_injective _) (few.subset fun _ holds => holds.ne') consensusSize

section Worlds

variable {A : Type} [Assets A]

/-- Promoting a named holder of shares offers it a seat. -/
theorem promote_exec {q : Request} {account : String} (asked : q.action = .promote account)
    {w : World A} (named : account ≠ "") (holds : 0 < sharesOf w.rows account)
    : (q.exec w).1.rows = offer w.rows account := by
  have promoted : q.action.exec q.ctx w
      = ({ w with store := { w.store with rows := offer w.rows account } }, ok "promoted") := by
    rw [Action.exec_of_program (p := promote account) (by rw [asked]; rfl)]
    have earning : ¬sharesOf w.store.rows account ≤ 0 := not_le.mpr holds
    simp [promote, rows, setRows, serve, named, earning, World.rows]
  rw [Request.exec, promoted]
  simp [ok, World.rows]

/-- Promotions of accounts that lead seat each of them, whatever the board was, by induction on the
requests.
-/
theorem promote_all {order accounts : List String} {calls : List Request} {w : World A}
    (leads : TopTen w.rows order) (named : "" ∉ order) (apart : w.rows.board.Nodup)
    (inside : accounts ⊆ order) (asked : calls.map (·.action) = accounts.map .promote)
    : sharesOf (after w calls).rows = sharesOf w.rows ∧ (after w calls).rows.board.Nodup
      ∧ ∀ account ∈ order, account ∈ accounts
          ∨ Fronted (seatRank (sharesOf w.rows)) w.rows.board account
        → Fronted (seatRank (sharesOf w.rows)) (after w calls).rows.board account := by
  induction accounts generalizing w calls with
  | nil =>
      obtain rfl := List.map_eq_nil_iff.mp asked
      exact ⟨rfl, apart, fun account _ front => front.resolve_left List.not_mem_nil⟩
  | cons account rest ih =>
      obtain ⟨q, calls, rfl, first, later⟩ := List.map_eq_cons_iff.mp asked
      obtain ⟨here, inside⟩ := List.cons_subset.mp inside
      have nameable : account ≠ "" := fun nobody => named (nobody ▸ here)
      have offered := promote_exec first nameable (leads.able account here)
      have shares : sharesOf (q.exec w).1.rows = sharesOf w.rows := by
        rw [offered, offer_sharesOf]
      have seated : (q.exec w).1.rows.board.Nodup := offered ▸ offer_nodup apart account
      obtain ⟨kept, apart', fronts⟩ := ih (w := (q.exec w).1) (by rw [TopTen, shares]; exact leads)
        seated inside later
      obtain ⟨own, others⟩ := offer_fronts leads apart nameable here
      rw [← offered] at own others
      rw [shares] at fronts kept
      refine ⟨kept, apart', fun other there front => fronts other there ?_⟩
      rcases front with listed | front
      · rcases List.mem_cons.mp listed with rfl | later
        · exact .inr own
        · exact .inl later
      · exact .inr (others other there front)

/-- (Ranked r order members) says that `members` are the accounts of `order` with their shares, in
rank order.
-/
def Ranked (r : Rows) (order : List String) (members : List Holder) : Prop :=
  ∃ ranked : List String, ranked.Perm order
    ∧ ranked.Pairwise (seatRank (sharesOf r) · < seatRank (sharesOf r) ·)
    ∧ members = ranked.map fun account => ⟨account, sharesOf r account⟩

/-- In every world that requests reach after `Init` there is a top ten; once each of them has been
promoted, in any order, the consensus group is the top ten in rank order, if the empty name is not
of them. The group never holds an account twice, nor one without shares.
-/
theorem promote_repairs (store : Store) (assets : A) (genesis : UInt64) (requests : List Request)
    (fresh : store.rows = .empty)
    : let w := after (initialised store assets genesis) requests
      (∃ order, TopTen w.rows order)
      ∧ (∀ order calls, TopTen w.rows order → "" ∉ order
        → calls.map (·.action) = order.map .promote
        → Ranked w.rows order (consensusMembers (after w calls).rows))
      ∧ ((consensusMembers w.rows).map (·.account)).Nodup
      ∧ ∀ m ∈ consensusMembers w.rows, 0 < m.shares ∧ m.shares = sharesOf w.rows m.account := by
  intro w
  obtain ⟨few, apart⟩ : FewHolders w.rows ∧ w.rows.board.Nodup := by
    have touched := initialised_touches store assets genesis fresh
    have start : FewHolders (initialised store assets genesis).rows
        ∧ (initialised store assets genesis).rows.board.Nodup := by
      refine ⟨FewHolders.touches ?_ touched rfl, ?_⟩
      · exact Set.finite_empty.subset fun account holds => holds rfl
      · rw [(touched.board rfl)]
        exact .nil
    have step (w : World A) (q : Request) (h : FewHolders w.rows ∧ w.rows.board.Nodup)
        : FewHolders (q.exec w).1.rows ∧ (q.exec w).1.rows.board.Nodup :=
      (q.exec_steps w).keep (I := fun r => FewHolders r ∧ r.board.Nodup) (fun _ _ kept step =>
        ⟨step.fewHolders kept.1, step.board_nodup kept.2⟩) h
    exact after_keep (I := fun w => FewHolders w.rows ∧ w.rows.board.Nodup) step start requests
  refine ⟨few.topTen, fun order calls leads named asked => ?_, ?_⟩
  · obtain ⟨shares, apart', fronts⟩ :=
      promote_all leads named apart (List.Subset.refl order) asked
    have seats : order ⊆ (after w calls).rows.board := fun account there => by
      obtain ⟨front, back, board, -⟩ := fronted_iff.mp (fronts account there (.inl there))
      simp [board]
    rw [Ranked, ← shares]
    exact consensusMembers_leads (by rw [shares]; exact leads) apart' seats
  · obtain ⟨names, same, -, group⟩ := consensusMembers_ranked w.rows
    have alone : names.Nodup := same.nodup_iff.mpr (apart.filter _)
    rw [group, List.map_map]
    refine ⟨?_, fun m there => ?_⟩
    · simpa [Function.comp_def] using alone.sublist (List.take_sublist consensusSize names)
    · obtain ⟨account, listed, rfl⟩ := List.mem_map.mp there
      have live := same.mem_iff.mp (List.mem_of_mem_take listed)
      exact ⟨by simpa using (List.mem_filter.mp live).2, rfl⟩

end Worlds

/-- Where nobody else holds shares, ten holders at most lead. -/
theorem topTen_alone {r : Rows} {order : List String} (apart : order.Nodup)
    (few : order.length ≤ consensusSize) (holds : ∀ account ∈ order, 0 < sharesOf r account)
    (others : ∀ account ∉ order, sharesOf r account = 0)
    : TopTen r order :=
  ⟨apart, few, holds, fun other outside fits => absurd (others other outside) fits.ne'⟩

/-- Pushes at genesis, of some staked base units each. -/
def pushes (positions : List (String × Int64)) : List Request :=
  positions.map fun p => ⟨.of "hive:owner" 1, .creditMigration p.1 0 p.2, true⟩

/-- Claims of first mints at genesis. -/
def claims (accounts : List String) : List Request :=
  accounts.map fun account => ⟨.of account 1, .claimMint 1, true⟩

/-- Whoever has not been pushed, nor claims, holds no shares. -/
theorem pushed_shares (positions : List (String × Int64)) (accounts : List String) {other : String}
    (unpushed : other ∉ positions.map Prod.fst) (away : other ∉ accounts)
    : sharesOf (after (initialised Store.newMem MemAssets.new 1)
        (pushes positions ++ claims accounts)).rows other = 0 := by
  have touched := initialised_touches Store.newMem MemAssets.new 1 rfl
  have before : sharesOf (initialised Store.newMem MemAssets.new 1).rows other = 0 :=
    touched.amount (.shares other) rfl
  refine (after_spares fun q asked => ?_).trans before
  rcases List.mem_append.mp asked with pushed | claimed
  · obtain ⟨p, there, rfl⟩ := List.mem_map.mp pushed
    exact .inl ⟨p.1, 0, p.2, rfl, fun same => unpushed (List.mem_map.mpr ⟨p, there, same⟩)⟩
  · obtain ⟨account, there, rfl⟩ := List.mem_map.mp claimed
    have genesis : genesisHeight (initialised Store.newMem MemAssets.new 1).rows = 1 := by
      decide +kernel
    exact .inr ⟨1, rfl, fun same => away (same ▸ there), genesis.ge⟩

/-- Eleven that end their positions at once, and nine that keep them. -/
def leaving : List String := ["a", "b", "c", "d", "e", "f", "g", "h", "i", "j", "k"]

def staying : List String := ["l", "m", "n", "o", "p", "q", "r", "s", "t"]

/-- The positions of all of them, and of one that comes late with fewer shares. -/
def positions : List (String × Int64) :=
  (leaving ++ staying).map (fun account => (account, 50)) ++ [("late", 5)]

/-- The world after they are pushed and the eleven have claimed. -/
def deserted : World MemAssets :=
  after (initialised Store.newMem MemAssets.new 1) (pushes positions ++ claims leaving)

/-- The board was full when the last one was pushed, so that it is left out. -/
theorem deserted_board
    : deserted.rows.board = staying
      ∧ leaving.map (sharesOf deserted.rows) = .replicate 11 0
      ∧ ("late" :: staying).map (sharesOf deserted.rows) = 5 :: .replicate 9 50 := by
  decide +kernel

theorem deserted_topTen : TopTen deserted.rows ("late" :: staying) := by
  obtain ⟨-, gone, kept⟩ := deserted_board
  refine topTen_alone (by decide) (by decide) (fun account there => ?_) fun account outside => ?_
  · have positive : ∀ shares ∈ (5 :: .replicate 9 50 : List Int), 0 < shares := by decide
    exact positive _ (kept ▸ List.mem_map_of_mem there)
  · by_cases left : account ∈ leaving
    · exact List.eq_of_mem_replicate (gone ▸ List.mem_map_of_mem left)
    · unfold deserted
      refine pushed_shares positions leaving (fun pushed => ?_) left
      rw [positions, List.map_append, List.map_map] at pushed
      rcases List.mem_append.mp pushed with early | late
      · rcases List.mem_append.mp (by simpa [Function.comp_def] using early) with left' | stays
        · exact left left'
        · exact outside (.tail _ stays)
      · exact outside (List.mem_singleton.mp late ▸ .head _)

/-- The one that is left out is promoted first, and all ten are ranked. -/
theorem promote_repairs_stale
    : "late" ∉ deserted.rows.board
      ∧ Ranked deserted.rows ("late" :: staying) (consensusMembers (after deserted
          (("late" :: staying).map fun account =>
            ⟨{ sender := "hive:b", height := 2 }, .promote account, true⟩)).rows) := by
  refine ⟨by rw [deserted_board.1]; decide, ?_⟩
  exact (promote_repairs Store.newMem MemAssets.new 1 (pushes positions ++ claims leaving) rfl).2.1
    ("late" :: staying) _ deserted_topTen (by decide) rfl

/-- A position pushed to the empty name ranks first, but nobody can promote that name. -/
theorem promote_refuses_nobody
    : ¬∀ (requests : List Request) (order : List String) (calls : List Request),
        let w := after (initialised Store.newMem MemAssets.new 1) requests
        TopTen w.rows order → calls.map (·.action) = order.map .promote
          → Ranked w.rows order (consensusMembers (after w calls).rows) := by
  intro always
  have nobody : sharesOf (after (initialised Store.newMem MemAssets.new 1)
        (pushes [("", 5)] ++ claims [])).rows "" = 5
      ∧ consensusMembers (after (after (initialised Store.newMem MemAssets.new 1)
          (pushes [("", 5)] ++ claims []))
        [⟨{ sender := "hive:b", height := 2 }, .promote "", true⟩]).rows = [] := by
    decide +kernel
  have leads := topTen_alone (List.nodup_singleton "") (by decide)
    (fun account there => by rw [List.mem_singleton.mp there, nobody.1]; decide)
    fun other outside => pushed_shares [("", 5)] [] outside List.not_mem_nil
  obtain ⟨ranked, same, -, group⟩ := always _ [""]
    [⟨{ sender := "hive:b", height := 2 }, .promote "", true⟩] leads rfl
  have listed := same.length_eq
  rw [nobody.2] at group
  obtain rfl := List.map_eq_nil_iff.mp group.symm
  cases listed

end LasseCash.State
