import LasseCash.State.Drains
import LasseCash.State.RowEffects

/-! Steps that leave the protocol's history alone: the calendar, the migration's rows, the
mints and the content. Most of what an operation writes is of this kind.
-/

namespace LasseCash.State

open Engine MachineInt Function

/-- The amounts of the supply and of the migration. -/
def AmountKey.watched : AmountKey → Bool
  | .migrated | .emitted | .migTotal | .migClaimed | .migBurn => true
  | _ => false

/-- The counts of the calendar, the mint ids, and the checkpoints before `day`. -/
def CountKey.watched (day : Nat) : CountKey → Bool
  | .genesis | .settled | .accDay | .mintSeq _ => true
  | .accAt d => d < day
  | _ => false

/-- No chunk of an expiry list holds more entries than one chunk may. -/
def SmallChunks (r : Rows) : Prop :=
  ∀ key entries, r.expiry key = some entries → entries.length ≤ expiryChunkSize

/-- (Aside r r') says that `r'` differs from `r` in unwatched rows only; checkpoints are
watched once their day has been walked, and chunks only for their size.
-/
structure Aside (r r' : Rows) : Prop where
  amount : ∀ k : AmountKey, k.watched = true → r'.getAmount k = r.getAmount k
  count : ∀ k : CountKey, k.watched (accruedDays r) = true → r'.getU64 k = r.getU64 k
  init : r'.init = r.init
  mint : r'.mint = r.mint
  post : r'.post = r.post
  postVote : r'.postVote = r.postVote
  curation : r'.curation = r.curation
  migDone : r'.migDone = r.migDone
  migRoot : r'.migRoot = r.migRoot
  migSwept : r'.migSwept = r.migSwept
  chunks : SmallChunks r → SmallChunks r'

namespace Aside

variable {r r₁ r₂ : Rows}

theorem refl (r : Rows) : Aside r r :=
  ⟨fun _ _ => rfl, fun _ _ => rfl, rfl, rfl, rfl, rfl, rfl, rfl, rfl, rfl, id⟩

/-- A watched amount reads as before. -/
theorem getAmount (h : Aside r r₁) (k : AmountKey) (hk : k.watched = true)
    : r₁.getAmount k = r.getAmount k :=
  h.amount k hk

/-- A watched count reads as before. -/
theorem getU64 (h : Aside r r₁) (k : CountKey)
    (hk : k.watched (accruedDays r) = true)
    : r₁.getU64 k = r.getU64 k :=
  h.count k hk

theorem accruedDays (h : Aside r r₁) : accruedDays r₁ = accruedDays r := h.getU64 .accDay rfl

theorem trans (h : Aside r r₁) (h' : Aside r₁ r₂) : Aside r r₂ where
  amount k hk := (h'.amount k hk).trans (h.amount k hk)
  count k hk := (h'.count k (h.accruedDays ▸ hk)).trans (h.count k hk)
  init := h'.init.trans h.init
  mint := h'.mint.trans h.mint
  post := h'.post.trans h.post
  postVote := h'.postVote.trans h.postVote
  curation := h'.curation.trans h.curation
  migDone := h'.migDone.trans h.migDone
  migRoot := h'.migRoot.trans h.migRoot
  migSwept := h'.migSwept.trans h.migSwept
  chunks := h'.chunks ∘ h.chunks

-----------------------------------------------------------------------------------------
-- Writes
-----------------------------------------------------------------------------------------

/-- Writing an unwatched amount, from inequality of the keys. -/
theorem setAmount (h : Aside r r₁) (k : AmountKey) (v : Int) (hk : k.watched = false)
    : Aside r (r₁.setAmount k v) := by
  refine h.trans { refl r₁ with amount := fun k' watched => ?_ }
  have : k' ≠ k := by
    rintro rfl
    simp [watched] at hk
  simp [this]

theorem deleteAmount (h : Aside r r₁) (k : AmountKey) (hk : k.watched = false)
    : Aside r (r₁.deleteAmount k) := by
  refine h.trans { refl r₁ with amount := fun k' watched => ?_ }
  have : k' ≠ k := by
    rintro rfl
    simp [watched] at hk
  simp [this]

theorem setU64 (h : Aside r r₁) (k : CountKey) (v : Nat)
    (hk : k.watched (State.accruedDays r) = false)
    : Aside r (r₁.setU64 k v) := by
  rw [← h.accruedDays] at hk
  refine h.trans { refl r₁ with count := fun k' watched => ?_ }
  have : k' ≠ k := by
    rintro rfl
    simp [watched] at hk
  simp [this]

theorem deleteU64 (h : Aside r r₁) (k : CountKey)
    (hk : k.watched (State.accruedDays r) = false)
    : Aside r (r₁.deleteU64 k) := by
  rw [← h.accruedDays] at hk
  refine h.trans { refl r₁ with count := fun k' watched => ?_ }
  have : k' ≠ k := by
    rintro rfl
    simp [watched] at hk
  simp [this]

theorem putPending (h : Aside r r₁) (account : String) (p : PendingAccount)
    : Aside r (r₁.putPending account p) :=
  h.trans { refl r₁ with }

theorem putVotePower (h : Aside r r₁) (account : String) (w : Window) (vp : VotePower)
    : Aside r (r₁.putVotePower account w vp) :=
  h.trans { refl r₁ with }

theorem setDuration (h : Aside r r₁) (account : String) (days : Int)
    : Aside r (r₁.setDuration account days) :=
  h.trans { refl r₁ with }

theorem putTranche (h : Aside r r₁) (id : Nat) (t : Tranche) : Aside r (r₁.putTranche id t) :=
  h.trans { refl r₁ with }

/-- A chunk may be dropped, or written while it is small. -/
theorem setExpiry (h : Aside r r₁) (day n : Nat) (entries : Option (List ExpiryEntry))
    (small : SmallChunks r₁ → ∀ chunk, entries = some chunk → chunk.length ≤ expiryChunkSize)
    : Aside r (r₁.setExpiry day n entries) := by
  refine h.trans { refl r₁ with chunks := fun all key chunk there => ?_ }
  by_cases same : key = (day, n)
  · exact small all chunk (by simpa [same] using there)
  · exact all key chunk (by simpa [same] using there)

theorem putBoard (h : Aside r r₁) (accounts : List String) : Aside r (r₁.putBoard accounts) :=
  h.trans { refl r₁ with }

theorem setPreference (h : Aside r r₁) (k : ParamKey) (account : String) (v : Int)
    : Aside r (r₁.setPreference k account v) :=
  h.trans { refl r₁ with }

-----------------------------------------------------------------------------------------
-- The account roll, the board and the pools
-----------------------------------------------------------------------------------------

theorem noteAccount (h : Aside r r₁) (account : String)
    : Aside r (noteAccount r₁ account) := by
  unfold State.noteAccount
  split
  · exact h
  split
  · exact h
  · have counted := (refl r₁).setU64 .acctCount (r₁.getU64 .acctCount + 1) rfl
    exact h.trans { counted with }

theorem offer (h : Aside r r₁) (account : String) : Aside r (offer r₁ account) := by
  rcases offer_cases r₁ account with same | ⟨accounts, moved⟩
  · rwa [same]
  · rw [moved]
    exact h.putBoard accounts

theorem addPool (h : Aside r r₁) (k : AmountKey) (amt : Int) (hk : k.watched = false)
    : Aside r (addPool r₁ k amt) := by
  unfold State.addPool
  split
  · exact h.setAmount k _ hk
  · exact h

theorem recycle (h : Aside r r₁) (amt : Int) : Aside r (recycle r₁ amt) := by
  unfold State.recycle recycleThroughAccumulator
  split
  · exact h
  · exact ((h.addPool .poolLShare amt rfl).setU64 .accPerShare _ (by rfl)).setAmount .accHeld _ (by rfl)

theorem fundPoB (h : Aside r r₁) (amt : Int) : Aside r (fundPoB r₁ amt) := by
  unfold State.fundPoB
  split
  · exact h
  · exact (h.addPool .poolViral _ (by rfl)).addPool .poolDeep _ (by rfl)

/-- A donation, by cases on the pool it names. -/
theorem fundTarget (h : Aside r r₁) (target : String) (amt : Int)
    : Aside r (fundTarget r₁ target amt) := by
  unfold State.fundTarget
  split
  · exact h.fundPoB amt
  split
  · exact h.addPool .poolViral amt rfl
  split
  · exact h.addPool .poolDeep amt rfl
  split
  · exact h.addPool .poolLiquidity amt rfl
  split
  · exact h.recycle amt
  split
  · exact ((h.fundPoB _).addPool .poolLiquidity _ (by rfl)).recycle _
  · exact h

-----------------------------------------------------------------------------------------
-- The expiry schedule
-----------------------------------------------------------------------------------------

theorem scheduleExpiry (h : Aside r r₁) (day : Nat) (shares : Int)
    : Aside r (scheduleExpiry r₁ day shares) :=
  h.setAmount (.exp day) _ (by rfl)

/-- New chunks, by induction on the rounds. -/
theorem newChunks (h : Aside r r₁) (day fuel count : Nat) (entries : List ExpiryEntry)
    : Aside r (newChunks day fuel count entries r₁).1 := by
  induction fuel generalizing count entries r₁ with
  | zero => cases entries <;> exact h
  | succ fuel ih =>
      cases entries with
      | nil => exact h
      | cons entry rest =>
          refine ih (h.setExpiry day count _ fun _ chunk written => ?_) _ _
          obtain rfl := Option.some.inj written
          exact List.length_take_le _ _

/-- A chunk is topped up to its size at most, by cases on its tests. -/
theorem topUp_fits {day : Nat} {entries : List ExpiryEntry} {topped : Nat × List ExpiryEntry}
    (h : topUp r day entries = some topped)
    : topped.2.length + topped.1 ≤ expiryChunkSize := by
  unfold topUp at h
  dsimp only at h
  split at h
  · cases h
  split at h
  · cases h
  split at h
  · obtain rfl := Option.some.inj h
    dsimp only
    omega
  · cases h

theorem scheduleExpiryEntries (h : Aside r r₁) (day : Nat) (entries : List ExpiryEntry)
    : Aside r (scheduleExpiryEntries r₁ day entries).1 := by
  unfold State.scheduleExpiryEntries
  split
  · exact h
  · cases topping : topUp r₁ day entries with
    | none => exact (h.newChunks day _ _ _).setU64 (.explCount day) _ (by rfl)
    | some topped =>
        refine ((h.setExpiry day _ _ fun _ chunk written => ?_).newChunks day _ _ _).setU64
          (.explCount day) _ (by rfl)
        obtain rfl := Option.some.inj written
        rw [List.length_append, List.length_take]
        have := topUp_fits topping
        omega

theorem drainKeeps (r : Rows) (day : Nat) : DrainKeeps day (Aside r) where
  shares _ account v h := h.setAmount (.shares account) v rfl
  chunk _ cur h := h.setExpiry day cur none nofun
  cursor _ v h := h.setU64 (.explCursor day) v rfl
  closed _ h := (h.deleteU64 (.explCount day) rfl).deleteU64 (.explCursor day) rfl

theorem drainExpiryList (h : Aside r r₁) (day budget : Nat)
    : Aside r (drainExpiryList r₁ day budget).1 :=
  (drainKeeps r day).drainExpiryList h budget

theorem removeExpiryEntry (h : Aside r r₁) (day chunk : Nat) (account : String) (shares : Int)
    : Aside r (removeExpiryEntry r₁ day chunk account shares) := by
  unfold State.removeExpiryEntry
  cases there : r₁.expiry (day, chunk) with
  | none => exact h
  | some entries =>
      dsimp only
      split
      · split
        · exact h.setExpiry day chunk none nofun
        · refine h.setExpiry day chunk _ fun small rest written => ?_
          obtain rfl := Option.some.inj written
          exact (List.length_erase_le).trans (small _ entries there)
      · exact h

theorem unscheduleExpiry (h : Aside r r₁) (day : Nat) (shares : Int)
    : Aside r (unscheduleExpiry r₁ day shares) := by
  unfold State.unscheduleExpiry
  dsimp only
  split
  · exact h
  · split
    · exact h.deleteAmount (.exp day) rfl
    · exact h.setAmount (.exp day) _ (by rfl)

-----------------------------------------------------------------------------------------
-- Pending balances and the pools
-----------------------------------------------------------------------------------------

theorem accruePending (h : Aside r r₁) (account : String) (amount : Int) (epoch : Nat)
    : Aside r (accruePending r₁ account amount epoch) :=
  h.putPending account _

theorem claimPool (h : Aside r r₁) (w : Window) (rshares : Int)
    : Aside r (claimPool r₁ w rshares).2 := by
  cases w
  · exact (h.setAmount .poolViral _ (by rfl)).setAmount .rsharesViral _ (by rfl)
  · exact (h.setAmount .poolDeep _ (by rfl)).setAmount .rsharesDeep _ (by rfl)

theorem syncPoolAccumulator (h : Aside r r₁) : Aside r (syncPoolAccumulator r₁).1 := by
  unfold State.syncPoolAccumulator
  dsimp only
  split
  · exact ((h.setU64 .poolAcc _ (by rfl)).setAmount .poolAccHeld _ (by rfl)).setAmount .poolAccSeen _ (by rfl)
  · exact h.setAmount .poolAccSeen _ (by rfl)

theorem reweigh (h : Aside r r₁) (id : Nat) (t next : Tranche)
    : Aside r (reweigh r₁ id t next) :=
  (h.setAmount .poolWeight _ (by rfl)).putTranche id next

theorem takeReward (h : Aside r r₁) (owed : Int) : Aside r (takeReward r₁ owed) :=
  (h.setAmount .poolLiquidity _ (by rfl)).setAmount .poolAccSeen _ (by rfl)

theorem openTranche (h : Aside r r₁) (ctx : Ctx) (shares acc : Int)
    : Aside r (openTranche r₁ ctx shares acc) :=
  ((h.setAmount .poolWeight _ (by rfl)).setU64 (.lpSeq ctx.sender) _ (by rfl)).putTranche _ _

theorem takeFromPool (h : Aside r r₁) (t : Tranche) (lcOut hbdOut : Int)
    : Aside r (takeFromPool r₁ t lcOut hbdOut) :=
  (((h.setAmount .poolLC _ (by rfl)).setAmount .poolHBD _ (by rfl)).setAmount .poolShares _
    (by rfl)).setAmount .poolWeight _ (by rfl)

end Aside

end LasseCash.State
