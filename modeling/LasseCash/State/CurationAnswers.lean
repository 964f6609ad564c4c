import LasseCash.State.ContentMoves
import LasseCash.State.MintClaims

/-! One claim of a settled post's curation: what it checks, what it pays the curator, and what it
leaves of the pot.
-/

namespace LasseCash.State

open Engine Function MachineInt Program

-----------------------------------------------------------------------------------------
-- What a reward brings
-----------------------------------------------------------------------------------------

/-- A routed reward is split without a remainder. -/
theorem routePayout_add {amount : Int} (positive : 0 < amount) (word : amount < 2 ^ 63)
    : (routePayout amount).1 + (routePayout amount).2 = amount
      ∧ 0 ≤ (routePayout amount).1 ∧ 0 ≤ (routePayout amount).2 := by
  have liquid : mulDiv amount pobLiquidPct 100 = some (amount * 20 / 100) :=
    mulDiv_of_fits positive.le (by decide) (by decide) (by unfold pobLiquidPct maxAmount; omega)
  unfold routePayout
  rw [if_neg (not_le.mpr positive), liquid]
  dsimp only
  rw [i64_of_nonneg (by omega) (by omega)]
  omega

section Worlds

variable {A : Type} [Assets A]

/-- (CuratorPaid curator w w' share) says that `w'` holds what a share brings the curator: the
liquid part is credited, and the rest is pending.
-/
structure CuratorPaid (curator : String) (w w' : World A) (share : Int) : Prop where
  credits : Credits w.store w'.store curator (routePayout share).1
  pending : (w'.rows.getPending curator).balance
    = i64 ((w.rows.getPending curator).balance + (routePayout share).2)

/-- The default reward credits its liquid part and adds the rest to the pending balance. -/
theorem payReward_run (ctx : Ctx) (account : String) {amount : Int} (positive : 0 < amount)
    (w : World A)
    : (((payReward ctx account amount .default).run serve w).2 = true
        ∧ CuratorPaid account w ((payReward ctx account amount .default).run serve w).1 amount)
      ∨ (((payReward ctx account amount .default).run serve w).2 = false
        ∧ (w.store.credit account (routePayout amount).1).2 = false) := by
  have ran : (credit account (routePayout amount).1).run serve w
      = ({ w with store := (w.store.credit account (routePayout amount).1).1 },
        (w.store.credit account (routePayout amount).1).2) :=
    rfl
  unfold payReward
  simp only [if_neg (not_le.mpr positive), run_bind, run_ite, run_pure, ran]
  cases made : (w.store.credit account (routePayout amount).1).2 with
  | false => exact .inr ⟨rfl, rfl⟩
  | true =>
      refine .inl ⟨rfl, ⟨made, rfl, rfl⟩, ?_⟩
      have pend : (w.store.credit account (routePayout amount).1).1.rows.getPending account
          = w.rows.getPending account := by
        rcases w.store.credit_rows account (routePayout amount).1 with same | ⟨-, noted⟩
        · rw [same]
          rfl
        · rw [noted]
          exact ((Touches.refl w.rows).noteAccount account rfl : Touches [.roll] _ _).getPending account (by rfl)
      change ((accruePending _ account _ ctx.epoch).getPending account).balance = _
      simp only [accruePending, Rows.getPending, Rows.putPending_pend, update_self, Option.getD_some]
        at pend ⊢
      rw [← pend]
      rfl

/-- A reward leaves the posts and the votes alone. -/
theorem payReward_content (ctx : Ctx) (account : String) (amount : Int) (mode : PayoutMode)
    (w : World A)
    : Touches [.pending, .roll] w.rows ((payReward ctx account amount mode).run serve w).1.rows := by
  let o : Origin := ⟨ctx, .promote account, w.rows, False⟩
  have asked := (payReward_asks (o := o) (r := w.rows) account amount mode).mono fun _ _ h => h.2
  exact asks_serve False.elim asked

-----------------------------------------------------------------------------------------
-- One claim
-----------------------------------------------------------------------------------------

/-- (ClaimedRows author permlink curator p share mine w w') says that `w'` has the posts and the
votes of `w` once the curator's vote is claimed for a share.
-/
structure ClaimedRows (author permlink curator : String) (p : PostRec) (share mine : Int)
    (w w' : World A) : Prop where
  post : ∃ p', w'.rows.getPost author permlink = some p' ∧ p'.paidOut = true
    ∧ p'.curatorPot = i64 (p.curatorPot - share)
    ∧ p'.curatorRshares = i64 (p.curatorRshares - mine)
  votes : w'.rows.postVote = update w.rows.postVote (postVoteKey author permlink curator) none

/-- What a claim of a settled post's curation leaves and answers. -/
inductive ClaimAnswer (author permlink curator : String) (p : PostRec) (w : World A)
    : World A → Result → Prop
  | spent (nothing : p.curatorRshares ≤ 0 ∨ p.curatorPot ≤ 0)
      : ClaimAnswer author permlink curator p w w (fail "nothing to claim")
  | unvoted (absent : w.rows.postVote (postVoteKey author permlink curator) = none)
      : ClaimAnswer author permlink curator p w w (fail "no vote to claim")
  | void (mine : Int) (vote : w.rows.postVote (postVoteKey author permlink curator) = some mine)
      (nothing : mine ≤ 0) (w' : World A)
      : ClaimAnswer author permlink curator p w w' (fail "nothing to claim")
  | dust (mine : Int) (base : 0 < p.curatorRshares) (pot : 0 < p.curatorPot)
      (vote : w.rows.postVote (postVoteKey author permlink curator) = some mine) (positive : 0 < mine)
      (nothing : (mulDiv p.curatorPot mine p.curatorRshares).getD 0 ≤ 0) (w' : World A)
      (post : w'.rows.post = w.rows.post)
      (votes : w'.rows.postVote = update w.rows.postVote (postVoteKey author permlink curator) none)
      : ClaimAnswer author permlink curator p w w' (fail "share rounds to zero")
  | refused (mine : Int) (base : 0 < p.curatorRshares) (pot : 0 < p.curatorPot)
      (vote : w.rows.postVote (postVoteKey author permlink curator) = some mine) (positive : 0 < mine)
      (share : Int) (eq : share = (mulDiv p.curatorPot mine p.curatorRshares).getD 0)
      (worth : 0 < share) (w' : World A)
      (claimed : ClaimedRows author permlink curator p share mine w w')
      (unpaid : (w.store.credit curator (routePayout share).1).2 = false)
      : ClaimAnswer author permlink curator p w w' (fail "curator payout failed")
  | paid (mine : Int) (base : 0 < p.curatorRshares) (pot : 0 < p.curatorPot)
      (vote : w.rows.postVote (postVoteKey author permlink curator) = some mine) (positive : 0 < mine)
      (share : Int) (eq : share = (mulDiv p.curatorPot mine p.curatorRshares).getD 0)
      (worth : 0 < share) (w' : World A)
      (claimed : ClaimedRows author permlink curator p share mine w w')
      (brings : CuratorPaid curator w w' share)
      : ClaimAnswer author permlink curator p w w' (ok ("claimed " ++ encI64 share))

/-- The world in which the reward of a claim is paid. -/
def claimedWorld (w : World A) (author permlink curator : String) (p : PostRec)
    (paid : p.paidOut = true) (share mine : Int) : World A :=
  { w with store := w.store.modify (claimRows · author permlink curator p paid share mine) }

/-- The end of a claim, once its rows are written: the reward is paid, or refused by the ledger. -/
theorem rewarded_answers (ctx : Ctx) (author permlink curator : String) {p : PostRec} {w : World A}
    (paid : p.paidOut = true) {mine share : Int} (base : 0 < p.curatorRshares)
    (pot : 0 < p.curatorPot)
    (vote : w.rows.postVote (postVoteKey author permlink curator) = some mine) (positive : 0 < mine)
    (eq : share = (mulDiv p.curatorPot mine p.curatorRshares).getD 0) (worth : 0 < share)
    : let out := (payReward ctx curator share .default).run serve
        (claimedWorld w author permlink curator p paid share mine)
      (out.2 = true
          → ClaimAnswer author permlink curator p w out.1 (ok ("claimed " ++ encI64 share)))
        ∧ (out.2 = false
          → ClaimAnswer author permlink curator p w out.1 (fail "curator payout failed")) := by
  intro out
  obtain ⟨made, bal, token⟩ := w.store.credit_modify
    (claimRows · author permlink curator p paid share mine) curator (routePayout share).1
  have content := payReward_content ctx curator share .default
    (claimedWorld w author permlink curator p paid share mine)
  have claimed : ClaimedRows author permlink curator p share mine w out.1 := by
    let left : PostRec :=
      { p with
        curatorPot := i64 (p.curatorPot - share)
        curatorRshares := i64 (p.curatorRshares - mine)
        pot_open := fun unpaid => absurd (paid.symm.trans unpaid) (by decide) }
    have put : (claimedWorld w author permlink curator p paid share mine).rows.getPost author permlink
        = some left :=
      update_self ..
    exact ⟨⟨left, (content.getPost author permlink rfl).trans put, paid, rfl, rfl⟩, (content.postVote rfl)⟩
  rcases payReward_run ctx curator worth
      (claimedWorld w author permlink curator p paid share mine)
    with ⟨done, brings⟩ | ⟨undone, unpaid⟩
  · refine ⟨fun _ => ?_, fun undone => absurd (undone.symm.trans done) (by decide)⟩
    refine .paid mine base pot vote positive share eq worth out.1 claimed ⟨⟨?_, ?_, ?_⟩, ?_⟩
    · exact made.symm.trans brings.credits.made
    · exact brings.credits.bal.trans bal
    · exact brings.credits.token.trans token
    · exact brings.pending
  · refine ⟨fun done => absurd (undone.symm.trans done) (by decide), fun _ => ?_⟩
    exact .refused mine base pot vote positive share eq worth out.1 claimed
      (made.symm.trans unpaid)

/-- A claim on a post that has paid out, by cases on the checks of the source. -/
theorem claimCuration_answers (ctx : Ctx) (author permlink named : String) {p : PostRec}
    {w : World A} (found : w.rows.getPost author permlink = some p) (paid : p.paidOut = true)
    : ClaimAnswer author permlink (if named = "" then ctx.sender else named) p w
      ((claimCuration ctx author permlink named).run serve w).1
      ((claimCuration ctx author permlink named).run serve w).2 := by
  have read (w : World A) : rows.run serve w = (w, w.rows) := rfl
  have wrote (r : Rows) (w : World A)
      : (setRows r).run serve w = ({ w with store := { w.store with rows := r } }, ()) := rfl
  generalize who : (if named = "" then ctx.sender else named) = curator
  have settled : ¬p.paidOut = false := by simp [paid]
  simp only [claimCuration, run_bind, run_ite, run_pure, read, found, who, dif_neg settled]
  split
  · rename_i nothing
    exact .spent nothing
  rename_i left
  obtain ⟨base, pot⟩ := not_or.mp left
  rw [not_le] at base pot
  cases vote : w.rows.postVote (postVoteKey author permlink curator) with
  | none => exact .unvoted vote
  | some mine =>
      simp only [run_bind, run_ite, run_pure, wrote]
      split
      · rename_i nothing
        exact .void mine vote nothing _
      rename_i positive
      rw [not_le] at positive
      split
      · rename_i nothing
        exact .dust mine base pot vote positive nothing _ rfl rfl
      rename_i worth
      rw [not_le] at worth
      have rewarded := rewarded_answers ctx author permlink curator paid base pot vote positive rfl
        worth
      split
      · rename_i unpaid
        rw [Bool.not_eq_true'] at unpaid
        exact rewarded.2 unpaid
      · rename_i paid
        rw [Bool.not_eq_true', Bool.not_eq_false] at paid
        exact rewarded.1 paid

end Worlds

end LasseCash.State
