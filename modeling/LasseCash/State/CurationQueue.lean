import LasseCash.Lib.WindowedQueue
import LasseCash.State.RowEffects

/-! The curation queue of an account: a drain is one sweep of it, on every ledger, so that repeated
drains clear exactly the paid entries with no open post a window or more before them.
-/

namespace LasseCash.State

open Engine MachineInt Function Program

-----------------------------------------------------------------------------------------
-- The queue
-----------------------------------------------------------------------------------------

/-- The claims queued for an account. -/
def queueOf (r : Rows) (account : String) : WindowedQueue (String × String) where
  slot n := r.curation (account, n)
  head := r.getU64 (.cqHead account)
  tail := r.getU64 (.cqTail account)

/-- (Ripe r claim) says that the post of a queued claim has paid out, or is gone. -/
def Ripe (r : Rows) (claim : String × String) : Prop :=
  ∀ p, r.getPost claim.1 claim.2 = some p → p.paidOut = true

/-- The slots that one drain looks at. -/
def drainWindow (limit : Nat) : Nat :=
  if limit = 0 ∨ limit > maxCurationDrain then maxCurationDrain else limit

theorem drainWindow_pos (limit : Nat) : 0 < drainWindow limit := by
  unfold drainWindow maxCurationDrain
  split <;> omega

-----------------------------------------------------------------------------------------
-- What a claim leaves alone
-----------------------------------------------------------------------------------------

/-- (QueueKept r r') says that the queues are as before, and the same posts have paid out. -/
structure QueueKept (r r' : Rows) : Prop where
  paid : ∀ key, (r'.post key).map PostRec.paidOut = (r.post key).map PostRec.paidOut
  curation : r'.curation = r.curation
  head : ∀ account, r'.getU64 (.cqHead account) = r.getU64 (.cqHead account)
  tail : ∀ account, r'.getU64 (.cqTail account) = r.getU64 (.cqTail account)

section Kept

variable {r r₁ r₂ : Rows}

theorem QueueKept.refl (r : Rows) : QueueKept r r :=
  ⟨fun _ => rfl, rfl, fun _ => rfl, fun _ => rfl⟩

theorem QueueKept.trans (h : QueueKept r r₁) (h' : QueueKept r₁ r₂) : QueueKept r r₂ where
  paid key := (h'.paid key).trans (h.paid key)
  curation := h'.curation.trans h.curation
  head account := (h'.head account).trans (h.head account)
  tail account := (h'.tail account).trans (h.tail account)

/-- A post may be rewritten while its flag stays. -/
theorem QueueKept.putPost {author permlink : String} {p next : PostRec}
    (found : r.getPost author permlink = some p) (same : next.paidOut = p.paidOut)
    : QueueKept r (r.putPost author permlink next) := by
  refine ⟨fun key => ?_, rfl, fun _ => rfl, fun _ => rfl⟩
  by_cases here : key = postKey author permlink
  · subst here
    have there : r.post (postKey author permlink) = some p := found
    simp [there, same]
  · simp [here]

theorem QueueKept.noteAccount (r : Rows) (account : String) : QueueKept r (noteAccount r account) := by
  unfold State.noteAccount
  split
  · exact .refl r
  split
  · exact .refl r
  · exact ⟨fun _ => rfl, rfl, fun _ => by simp, fun _ => by simp⟩

/-- A reward is paid past the queues, by cases on its mode. -/
theorem payReward_queueKept (ctx : Ctx) (account : String) (amount : Int) (mode : PayoutMode)
    : (payReward ctx account amount mode).Always rowsMay (fun _ r' => QueueKept r r') r := by
  have accrued (r₁ : Rows) (amt : Int) : QueueKept r₁ (accruePending r₁ account amt ctx.epoch) :=
    ⟨fun _ => rfl, rfl, fun _ => rfl, fun _ => rfl⟩
  have noted := QueueKept.noteAccount r account
  have both (amt : Int) := noted.trans (accrued _ amt)
  unfold payReward
  simp only [always_ite, always_pure]
  refine ⟨fun _ => .refl r, fun _ => ?_⟩
  cases mode with
  | burn => simp [burn, QueueKept.refl, QueueKept.noteAccount]
  | powerUp => simp [accrued]
  | default => simp [QueueKept.refl, accrued, both]

/-- A claim leaves the queues and the posts' flags alone, whatever it pays. -/
theorem claimCuration_queueKept (ctx : Ctx) (author permlink curator : String)
    : (claimCuration ctx author permlink curator).Always rowsMay
      (fun _ r' => QueueKept r r') r := by
  unfold claimCuration
  generalize (if curator = "" then ctx.sender else curator) = curator
  simp only [always_bind, always_rows]
  cases found : r.getPost author permlink with
  | none => exact .refl r
  | some p =>
      dsimp only
      split
      · exact .refl r
      simp only [always_ite, always_pure]
      refine ⟨fun _ => .refl r, fun _ => ?_⟩
      cases r.postVote (postVoteKey author permlink curator) with
      | none => exact .refl r
      | some mine =>
          have dropped (r₁ : Rows) (kept : QueueKept r r₁)
              : QueueKept r (r₁.setPostVote (postVoteKey author permlink curator) none) :=
            kept.trans ⟨fun _ => rfl, rfl, fun _ => rfl, fun _ => rfl⟩
          have spent (next : PostRec) (same : next.paidOut = p.paidOut) :=
            dropped _ (.putPost found same)
          simp only [always_bind, always_ite, always_pure, always_setRows]
          refine ⟨fun _ => dropped r (.refl r), fun _ => ⟨fun _ => dropped r (.refl r), fun _ => ?_⟩⟩
          exact always_mono (fun _ _ paid => ⟨fun _ => (spent _ (by rfl)).trans paid,
            fun _ => (spent _ (by rfl)).trans paid⟩) (payReward_queueKept ctx curator _ .default)

end Kept

-----------------------------------------------------------------------------------------
-- A drain is a sweep
-----------------------------------------------------------------------------------------

/-- (Scanned account n togo r r') says that `r'` is what a scan of the `togo` slots from `n`
leaves of `r`.
-/
structure Scanned (account : String) (n togo : Nat) (r r' : Rows) : Prop where
  paid : ∀ key, (r'.post key).map PostRec.paidOut = (r.post key).map PostRec.paidOut
  head : r'.getU64 (.cqHead account) = r.getU64 (.cqHead account)
  tail : r'.getU64 (.cqTail account) = r.getU64 (.cqTail account)
  cleared : ∀ m claim, n ≤ m → m < n + togo → r.curation (account, m) = some claim
    → Ripe r claim → r'.curation (account, m) = none
  kept : ∀ m claim, r.curation (account, m) = some claim → ¬Ripe r claim
    → r'.curation (account, m) = some claim
  outside : ∀ m, m < n ∨ n + togo ≤ m → r'.curation (account, m) = r.curation (account, m)
  empty : ∀ m, r.curation (account, m) = none → r'.curation (account, m) = none

/-- Whether a claim is ripe depends on the posts' flags only. -/
theorem ripe_congr {r r' : Rows}
    (paid : ∀ key, (r'.post key).map PostRec.paidOut = (r.post key).map PostRec.paidOut)
    (claim : String × String)
    : Ripe r' claim ↔ Ripe r claim := by
  have flags := paid (postKey claim.1 claim.2)
  unfold Ripe Rows.getPost
  generalize r'.post (postKey claim.1 claim.2) = later at flags ⊢
  generalize r.post (postKey claim.1 claim.2) = sooner at flags ⊢
  cases later <;> cases sooner <;> simp_all

/-- One slot, and then the slots after it. -/
theorem Scanned.next {account : String} {n togo : Nat} {r r₁ r₂ : Rows}
    (paid : ∀ key, (r₁.post key).map PostRec.paidOut = (r.post key).map PostRec.paidOut)
    (head : r₁.getU64 (.cqHead account) = r.getU64 (.cqHead account))
    (tail : r₁.getU64 (.cqTail account) = r.getU64 (.cqTail account))
    (others : ∀ m, m ≠ n → r₁.curation (account, m) = r.curation (account, m))
    (here : ∀ claim, r.curation (account, n) = some claim → Ripe r claim
      → r₁.curation (account, n) = none)
    (waiting : ∀ claim, r.curation (account, n) = some claim → ¬Ripe r claim
      → r₁.curation (account, n) = some claim)
    (empty : r.curation (account, n) = none → r₁.curation (account, n) = none)
    (rest : Scanned account (n + 1) togo r₁ r₂)
    : Scanned account n (togo + 1) r r₂ where
  paid key := (rest.paid key).trans (paid key)
  head := rest.head.trans head
  tail := rest.tail.trans tail
  cleared m claim after before found ripe := by
    rcases Nat.eq_or_lt_of_le after with rfl | later
    · exact rest.empty n (here claim found ripe)
    · rw [← others m (by omega)] at found
      exact rest.cleared m claim later (by omega) found ((ripe_congr paid claim).mpr ripe)
  kept m claim found unripe := by
    refine rest.kept m claim ?_ (mt (ripe_congr paid claim).mp unripe)
    by_cases same : m = n
    · subst same
      exact waiting claim found unripe
    · rw [others m same, found]
  outside m away := by
    rw [rest.outside m (by omega), others m (by omega)]
  empty m none_there := by
    refine rest.empty m ?_
    by_cases same : m = n
    · subst same
      exact empty none_there
    · rw [others m same, none_there]

/-- The scan clears the ripe slots it passes, by induction on the slots to go. -/
theorem drainScan_scanned (ctx : Ctx) (account : String) (togo n : Nat) (r : Rows)
    : (drainScan ctx account togo n).Always rowsMay
      (fun _ r' => Scanned account n togo r r') r := by
  induction togo generalizing r n with
  | zero =>
      exact ⟨fun _ => rfl, rfl, rfl, fun m _ after before => absurd before (by omega),
        fun _ _ found _ => found, fun _ _ => rfl, fun _ found => found⟩
  | succ togo ih =>
      -- what is left to show of a slot, in rows `r₁` where it has been dealt with
      have onward (r₁ : Rows) (kept : QueueKept r r₁)
          (ripe : ∀ claim, r.curation (account, n) = some claim → Ripe r claim)
          : (drainScan ctx account togo (n + 1)).Always rowsMay
            (fun _ r' => Scanned account n (togo + 1) r r') (r₁.setCuration account n none) := by
        refine always_mono (fun _ _ rest => ?_) (ih (n + 1) (r₁.setCuration account n none))
        refine @Scanned.next account n togo r (r₁.setCuration account n none) _ kept.paid
          (kept.head account) (kept.tail account) (fun m away => ?_) (fun _ _ _ => by simp)
          (fun claim found unripe => absurd (ripe claim found) unripe) (fun _ => by simp) rest
        simp [away, kept.curation]
      have skipped (waits : ∀ claim, r.curation (account, n) = some claim → ¬Ripe r claim)
          : (drainScan ctx account togo (n + 1)).Always rowsMay
            (fun _ r' => Scanned account n (togo + 1) r r') r :=
        always_mono (fun _ _ rest => Scanned.next (fun _ => rfl) rfl rfl (fun _ _ => rfl)
          (fun claim found ripe => absurd ripe (waits claim found)) (fun _ found _ => found)
          (fun found => found) rest) (ih (n + 1) r)
      unfold drainScan
      simp only [always_bind, always_rows]
      cases queued : r.curation (account, n) with
      | none => exact skipped fun claim found => by rw [queued] at found; cases found
      | some claim =>
          obtain ⟨author, permlink⟩ := claim
          dsimp only
          cases post : r.getPost author permlink with
          | none =>
              simp only [always_bind, always_modify]
              refine onward r (.refl r) fun claim found => ?_
              obtain rfl := Option.some.inj (queued.symm.trans found)
              exact fun p there => by rw [post] at there; cases there
          | some p =>
              have ripe_iff : Ripe r (author, permlink) ↔ p.paidOut = true :=
                ⟨fun ripe => ripe p post, fun paid q there => by
                  obtain rfl := Option.some.inj (post.symm.trans there)
                  exact paid⟩
              simp only [always_ite, always_bind, always_modify, always_pure]
              refine ⟨fun unpaid => skipped fun claim found => ?_, fun paid => ?_⟩
              · obtain rfl := Option.some.inj (queued.symm.trans found)
                rw [ripe_iff]
                simpa using unpaid
              · refine always_mono (fun _ r₁ kept => onward r₁ kept fun claim found => ?_)
                  (claimCuration_queueKept ctx author permlink account)
                obtain rfl := Option.some.inj (queued.symm.trans found)
                exact ripe_iff.mpr (by simpa using paid)

/-- The head comes to the first slot that is left, or to the end; by induction on the slots
before the end.
-/
theorem advanceHead_spec (account : String) (togo head : Nat) (r : Rows)
    : let r' := advanceHead account togo head r
      r'.post = r.post ∧ r'.curation = r.curation
        ∧ r'.getU64 (.cqTail account) = r.getU64 (.cqTail account)
        ∧ head ≤ r'.getU64 (.cqHead account)
        ∧ (∀ n, head ≤ n → n < r'.getU64 (.cqHead account) → r.curation (account, n) = none)
        ∧ (r'.getU64 (.cqHead account) < head + togo
          → r.curation (account, r'.getU64 (.cqHead account)) ≠ none) := by
  induction togo generalizing head r with
  | zero =>
      refine ⟨rfl, rfl, by simp [advanceHead], by simp [advanceHead], fun n after before => ?_,
        fun before => ?_⟩
      · simp [advanceHead] at before
        omega
      · simp [advanceHead] at before
  | succ togo ih =>
      unfold advanceHead
      cases there : r.curation (account, head) with
      | some claim =>
          refine ⟨rfl, rfl, by simp, by simp, fun n after before => ?_, fun _ => ?_⟩
          · simp at before
            omega
          · simp [there]
      | none =>
          have same : r.setCuration account head none = r := by
            unfold Rows.setCuration
            rw [← there, update_eq_self]
          simp only [same]
          obtain ⟨post, curation, tail, ahead, passed, stopped⟩ := ih (head + 1) r
          refine ⟨post, curation, tail, by omega, fun n after before => ?_, fun before =>
            stopped (by omega)⟩
          rcases Nat.eq_or_lt_of_le after with rfl | later
          · exact there
          · exact passed n later before

/-- A drain sweeps its account's queue once, and changes no post's flag. -/
theorem drainCuration_sweep (ctx : Ctx) (account : String) (limit : Nat) (r : Rows)
    : (drainCuration ctx account limit).Always rowsMay
      (fun _ r' =>
        (queueOf r account).Sweep (Ripe r) (drainWindow limit) (queueOf r' account)
          ∧ ∀ claim, Ripe r' claim ↔ Ripe r claim) r := by
  simp only [drainCuration, always_bind, always_rows, always_modify, always_pure]
  refine always_mono (fun _ r₁ scanned => ?_) (drainScan_scanned ctx account _ _ r)
  obtain ⟨post, curation, tail, ahead, passed, stopped⟩ :=
    advanceHead_spec account (r.getU64 (.cqTail account) - r.getU64 (.cqHead account))
      (r.getU64 (.cqHead account)) r₁
  change Scanned account _ (min (drainWindow limit) _) r r₁ at scanned
  generalize advanceHead account _ _ r₁ = r' at post curation tail ahead passed stopped
  have slots (n : Nat) : (queueOf r' account).slot n = r₁.curation (account, n) := by
    simp only [queueOf, curation]
  refine ⟨⟨tail.trans scanned.tail, fun n claim after window before found ripe => ?_,
    fun n claim found unripe => ?_, fun n behind => ?_, fun n empty => ?_, ahead,
    fun n after before => ?_, fun before => ?_⟩, ripe_congr fun key => ?_⟩
  · simp only [queueOf] at after window before found
    rw [slots]
    exact scanned.cleared n claim after (by omega) found ripe
  · rw [slots]
    exact scanned.kept n claim found unripe
  · simp only [queueOf] at behind
    rw [slots]
    exact scanned.outside n (.inr (by omega))
  · rw [slots]
    exact scanned.empty n empty
  · rw [slots]
    exact passed n after before
  · rw [slots]
    simp only [queueOf] at before
    exact stopped (by omega)
  · rw [post]
    exact scanned.paid key

-----------------------------------------------------------------------------------------
-- Repeated drains
-----------------------------------------------------------------------------------------

section Worlds

variable {A : Type} [Assets A]

/-- The world after one drain of an account for each context. -/
def drainAll (account : String) (limit : Nat) (w : World A) (calls : List Ctx) : World A :=
  calls.foldl (fun w ctx => ((drainCuration ctx account limit).run serve w).1) w

/-- Repeated drains are repeated sweeps, by induction on the calls. -/
theorem drainAll_sweeps (account : String) (limit : Nat) (w : World A) (calls : List Ctx)
    : WindowedQueue.Sweeps (Ripe w.rows) (drainWindow limit) calls.length
      (queueOf w.rows account) (queueOf (drainAll account limit w calls).rows account) := by
  induction calls generalizing w with
  | nil => rfl
  | cons ctx rest ih =>
      obtain ⟨sweep, ripe⟩ := always_serve (drainCuration_sweep ctx account limit w.rows)
      have later := ih ((drainCuration ctx account limit).run serve w).1
      rw [show Ripe ((drainCuration ctx account limit).run serve w).1.rows = Ripe w.rows from
        funext fun claim => propext (ripe claim)] at later
      exact ⟨_, sweep, later⟩

/-- (Queued r account n claim) says that slot `n` of the account's queue holds the claim. -/
def Queued (r : Rows) (account : String) (n : Nat) (claim : String × String) : Prop :=
  r.getU64 (.cqHead account) ≤ n ∧ n < r.getU64 (.cqTail account)
    ∧ r.curation (account, n) = some claim

/-- From any world, repeated drains clear every queued claim of a post that has paid out, if and
only if none of them stands a whole window or more behind the claim of a post that is still open.
-/
theorem curation_drained_iff (w : World A) (account : String) (limit : Nat)
    : (∀ n author permlink p, Queued w.rows account n (author, permlink)
          → w.rows.getPost author permlink = some p → p.paidOut = true
          → ∃ enough, ∀ calls : List Ctx, enough ≤ calls.length
            → (drainAll account limit w calls).rows.curation (account, n) = none)
      ↔ ∀ n author permlink p, Queued w.rows account n (author, permlink)
          → w.rows.getPost author permlink = some p → p.paidOut = true
          → ∀ m author' permlink' p', Queued w.rows account m (author', permlink')
            → w.rows.getPost author' permlink' = some p' → p'.paidOut = false
            → m < n → n < m + drainWindow limit := by
  refine forall_congr' fun n => forall_congr' fun author => forall_congr' fun permlink =>
    forall_congr' fun p => forall_congr' fun queued => forall_congr' fun post =>
    forall_congr' fun paid => ?_
  obtain ⟨ahead, within, there⟩ := queued
  have ripe : Ripe w.rows (author, permlink) := fun q found => by
    obtain rfl := Option.some.inj (post.symm.trans found)
    exact paid
  have cleared := WindowedQueue.sweeps_clear_iff (q := queueOf w.rows account)
    (drainWindow_pos limit) ahead within there ripe
    (fun rounds => { q | ∃ calls : List Ctx, calls.length = rounds
      ∧ q = queueOf (drainAll account limit w calls).rows account })
    (fun rounds => ⟨_, .replicate rounds { sender := "", height := 0, epoch := 0 }, by simp, rfl⟩)
    (by
      rintro rounds q ⟨calls, rfl, rfl⟩
      exact drainAll_sweeps account limit w calls)
  have waits_iff (m : Nat) : (queueOf w.rows account).Waits (Ripe w.rows) m
      ↔ ∃ author' permlink' p', Queued w.rows account m (author', permlink')
        ∧ w.rows.getPost author' permlink' = some p' ∧ p'.paidOut = false := by
    constructor
    · rintro ⟨after, before, ⟨author', permlink'⟩, found, unripe⟩
      obtain ⟨p', post', unpaid⟩ : ∃ p', w.rows.getPost author' permlink' = some p'
          ∧ p'.paidOut ≠ true := by
        simpa [Ripe] using unripe
      exact ⟨author', permlink', p', ⟨after, before, found⟩, post', eq_false_of_ne_true unpaid⟩
    · rintro ⟨author', permlink', p', ⟨after, before, found⟩, post', unpaid⟩
      refine ⟨after, before, (author', permlink'), found, fun ripe' => ?_⟩
      rw [ripe' p' post'] at unpaid
      cases unpaid
  constructor
  · rintro ⟨enough, clears⟩ m author' permlink' p' queued' post' unpaid before
    refine cleared.mp ⟨enough, ?_⟩ m
      ((waits_iff m).mpr ⟨author', permlink', p', queued', post', unpaid⟩) before
    rintro rounds le q ⟨calls, rfl, rfl⟩
    exact clears calls le
  · intro near
    obtain ⟨enough, clears⟩ := cleared.mpr fun m waits before => by
      obtain ⟨author', permlink', p', queued', post', unpaid⟩ := (waits_iff m).mp waits
      exact near m author' permlink' p' queued' post' unpaid before
    exact ⟨enough, fun calls le => clears calls.length le _ ⟨calls, rfl, rfl⟩⟩

end Worlds

/-- One account votes on twenty deep posts and then on a viral one, and only that one has paid
out when its queue is drained.
-/
def strandingRun : List Request :=
  ⟨.of "hive:owner" 1, .creditMigration "hive:a" 0 1000000000000000, false⟩
    :: (List.range 20).map (fun n =>
      ⟨.of "hive:a" 2, .createPost (toString n) .deep .default, false⟩)
    ++ ⟨.of "hive:a" 2, .createPost "v" .viral .default, false⟩
    :: (List.range 20).map (fun n =>
      ⟨.of "hive:a" 3, .vote "hive:a" (toString n) 1, false⟩)
    ++ [⟨.of "hive:a" 3, .vote "hive:a" "v" 1, false⟩,
      ⟨.of "hive:any" 201602, .payout "hive:a" "v", false⟩]

/-- The claim on the viral post stays queued through any number of drains, at the largest
window, while its post has paid out with a curator's pot.
-/
theorem curation_entry_stranded
    : let w := after (initialised Store.newMem MemAssets.new 1) strandingRun
      (w.rows.getPost "hive:a" "v").map (fun p => (p.paidOut, p.curatorPot))
          = some (true, 199771683300)
        ∧ w.rows.postVote (postVoteKey "hive:a" "v" "hive:a") = some 1000000000000
        ∧ ∀ calls : List Ctx, (drainAll "hive:a" 20 w calls).rows.curation ("hive:a", 20)
          = some ("hive:a", "v") := by
  have front : let r := (after (initialised Store.newMem MemAssets.new 1) strandingRun).rows
      r.getU64 (.cqHead "hive:a") = 0 ∧ r.getU64 (.cqTail "hive:a") = 21
        ∧ r.curation ("hive:a", 0) = some ("hive:a", "0")
        ∧ (r.getPost "hive:a" "0").map PostRec.paidOut = some false
        ∧ r.curation ("hive:a", 20) = some ("hive:a", "v") := by
    decide +kernel
  refine ⟨by decide +kernel, by decide +kernel, fun calls => ?_⟩
  generalize after (initialised Store.newMem MemAssets.new 1) strandingRun = w at front ⊢
  obtain ⟨head, tail, first, opened, last⟩ := front
  have waits : (queueOf w.rows "hive:a").Waits (Ripe w.rows) 0 := by
    refine ⟨head.le, (by decide : 0 < 21).trans_eq tail.symm, _, first, fun ripe => ?_⟩
    obtain ⟨p, post, unpaid⟩ := Option.map_eq_some_iff.mp opened
    rw [ripe p post] at unpaid
    cases unpaid
  exact ((drainAll_sweeps "hive:a" 20 w calls).blocked waits (by decide)).trans last

end LasseCash.State
