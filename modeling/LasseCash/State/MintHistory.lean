import LasseCash.State.History

/-! Registering and closing mints keeps the past: a new mint takes an id that was never used,
and closing one only marks it ended.
-/

namespace LasseCash.State

open Engine MachineInt Function Program

-----------------------------------------------------------------------------------------
-- Stamping
-----------------------------------------------------------------------------------------

/-- (Stamped r r' stamped) says that `stamped` took ids above the last ones of `r`, and that
`r'` counts them.
-/
structure Stamped (r r' : Rows) (stamped : List (Nat × Mint)) : Prop where
  above : ∀ e ∈ stamped, r.getU64 (.mintSeq e.2.owner) < e.1
  counted : ∀ e ∈ stamped, e.1 ≤ r'.getU64 (.mintSeq e.2.owner)

/-- Writing an account's next mint id. -/
theorem steady_mintSeq (r : Rows) (account : String)
    : Steady r (r.setU64 (.mintSeq account) (r.getU64 (.mintSeq account) + 1)) := by
  have count (k : CountKey) (ne : k ≠ .mintSeq account)
      : (r.setU64 (.mintSeq account) (r.getU64 (.mintSeq account) + 1)).getU64 k
        = r.getU64 k := by
    simp [ne]
  have genesis := count .genesis (by simp)
  have day := count .accDay (by simp)
  have settled := count .settled (by simp)
  refine ⟨⟨genesis, rfl, fun c => ⟨?_, ?_, ?_⟩, id, day.ge, fun d _ => count (.accAt d) (by simp),
    fun other => ?_, fun _ _ m _ found => ⟨m, found, .refl m⟩⟩,
    ⟨rfl, rfl, rfl, rfl, rfl, rfl, rfl⟩, ⟨rfl, rfl, rfl⟩⟩
  · rw [settled, accruedDays, day, genesisHeight, genesis]
    exact c.settled
  · rw [settled]
    exact c.word
  · rw [accruedDays, day]
    exact c.emitted
  · by_cases same : other = account
    · subst same
      simp
    · rw [count _ (by simpa using same)]

/-- One mint's stamp, in front of the others. -/
theorem stampMints_steady (acc : Int) (mints : List Mint) (r : Rows)
    : Steady r (stampMints acc mints r).1
      ∧ Stamped r (stampMints acc mints r).1 (stampMints acc mints r).2 := by
  induction mints generalizing r with
  | nil => exact ⟨.refl r, by simp [stampMints], by simp [stampMints]⟩
  | cons m rest ih =>
      unfold stampMints
      dsimp only
      have next := steady_mintSeq r m.owner
      have granted := ((Aside.refl (r.setU64 (.mintSeq m.owner)
        (r.getU64 (.mintSeq m.owner) + 1))).setAmount (.shares m.owner)
        (i64 (sharesOf (r.setU64 (.mintSeq m.owner) (r.getU64 (.mintSeq m.owner) + 1)) m.owner
          + m.shares)) rfl).offer m.owner
      have first := next.trans granted.steady
      obtain ⟨tail, fresh⟩ := ih (offer _ m.owner)
      refine ⟨first.trans tail, ?_, ?_⟩
      · simp only [List.mem_cons, forall_eq_or_imp]
        refine ⟨Nat.lt_succ_self _, fun e he => ?_⟩
        exact (first.evolves.mintSeq _).trans_lt (fresh.above e he)
      · simp only [List.mem_cons, forall_eq_or_imp]
        refine ⟨?_, fresh.counted⟩
        refine le_trans ?_ (tail.evolves.mintSeq m.owner)
        rw [granted.getU64 (.mintSeq m.owner) rfl]
        simp

-----------------------------------------------------------------------------------------
-- Scheduling and storing
-----------------------------------------------------------------------------------------

/-- (SameIds l l') says that two lists of stamped mints agree but for the chunks. -/
def SameIds (l l' : List (Nat × Mint)) : Prop :=
  l'.map (fun e => (e.1, { e.2 with expChunk := 0 }))
    = l.map (fun e => (e.1, { e.2 with expChunk := 0 }))

/-- Chunks change neither ids nor owners, by induction on the stamped mints. -/
theorem assignChunks_sameIds (due : Mint → Bool) (stamped : List (Nat × Mint))
    (chunks : List Nat)
    : SameIds stamped (assignChunks due stamped chunks) := by
  unfold SameIds
  fun_induction assignChunks due stamped chunks <;> simp_all

/-- Scheduling steps aside and keeps the ids, by induction on the days. -/
theorem scheduleDays_aside (days : List Nat) (r : Rows) (stamped : List (Nat × Mint))
    : Aside r (scheduleDays days r stamped).1
      ∧ SameIds stamped (scheduleDays days r stamped).2 := by
  induction days generalizing r stamped with
  | nil => exact ⟨.refl r, rfl⟩
  | cons day days ih =>
      have scheduled : Aside r (scheduleDay r stamped day).1 :=
        ((Aside.refl r).scheduleExpiry day _).scheduleExpiryEntries day _
      have same : SameIds stamped (scheduleDay r stamped day).2 :=
        assignChunks_sameIds _ _ _
      obtain ⟨aside, ids⟩ := ih (scheduleDay r stamped day).1 (scheduleDay r stamped day).2
      exact ⟨scheduled.trans aside, ids.trans same⟩

/-- Lists that agree but for the chunks have the same ids and owners. -/
theorem SameIds.forall {l l' : List (Nat × Mint)} (h : SameIds l l') {P : Nat → String → Prop}
    (all : ∀ e ∈ l, P e.1 e.2.owner)
    : ∀ e ∈ l', P e.1 e.2.owner := by
  intro e he
  have member : (e.1, { e.2 with expChunk := 0 })
      ∈ l.map (fun e => (e.1, { e.2 with expChunk := 0 })) := by
    rw [← h]
    exact List.mem_map_of_mem he
  obtain ⟨e', he', same⟩ := List.mem_map.mp member
  simp only [Prod.mk.injEq, Mint.mk.injEq] at same
  rw [← same.1, ← same.2.1]
  exact all e' he'

/-- Storing mints under unused ids keeps the past, by induction on the mints. -/
theorem storeMints_steady {r r₁ : Rows} (h : Steady r r₁) (stamped : List (Nat × Mint))
    (above : ∀ e ∈ stamped, r.getU64 (.mintSeq e.2.owner) < e.1)
    : Steady r (storeMints r₁ stamped) := by
  induction stamped generalizing r₁ with
  | nil => exact h
  | cons e rest ih =>
      refine ih ?_ fun e' he' => above e' (List.mem_cons_of_mem _ he')
      have put : Steady r (r₁.putMint e.1 e.2) := by
        refine ⟨{ h.evolves with
            calendar := fun c =>
              let c₁ := h.evolves.calendar c
              ⟨c₁.settled, c₁.word, c₁.emitted⟩
            mint := fun account id m known found => ?_ },
          { h.migration with }, { h.content with }⟩
        have new := above e List.mem_cons_self
        have ne : (account, id) ≠ (e.2.owner, e.1) := by
          rintro ⟨⟩
          omega
        simpa only [Rows.putMint_mint, update_of_ne ne] using h.evolves.mint account id m known found
      exact put.trans ((Aside.refl _).noteAccount e.2.owner).steady

/-- Entering mints keeps the past. -/
theorem enterMints_steady (r : Rows) (mints : List Mint) : Steady r (enterMints r mints).1 := by
  unfold enterMints
  dsimp only
  obtain ⟨steady, fresh⟩ := stampMints_steady (accPerShare r) mints r
  have total := (Aside.refl (stampMints (accPerShare r) mints r).1).setAmount .sharesTotal
    (i64 (totalShares (stampMints (accPerShare r) mints r).1 + sumI64 (mints.map (·.shares)))) rfl
  obtain ⟨scheduled, ids⟩ := scheduleDays_aside (mints.map (maturityDay
    (((stampMints (accPerShare r) mints r).1).setAmount .sharesTotal
      (i64 (totalShares (stampMints (accPerShare r) mints r).1
        + sumI64 (mints.map (·.shares))))))).eraseDups
    (((stampMints (accPerShare r) mints r).1).setAmount .sharesTotal
      (i64 (totalShares (stampMints (accPerShare r) mints r).1 + sumI64 (mints.map (·.shares)))))
    (stampMints (accPerShare r) mints r).2
  exact storeMints_steady (steady.trans (total.trans scheduled).steady) _
    (ids.forall (P := fun id owner => r.getU64 (.mintSeq owner) < id) fresh.above)

-----------------------------------------------------------------------------------------
-- Closing and arming
-----------------------------------------------------------------------------------------

/-- Writing a later form of a stored mint keeps the past. -/
theorem putMint_steady {r : Rows} {account : String} {id : Nat} {m m' : Mint}
    (found : r.getMint account id = some m) (owner : m'.owner = account)
    (later : Continues m m')
    : Steady r (r.putMint id m') := by
  obtain ⟨m₀, stored, rfl⟩ := Option.map_eq_some_iff.mp found
  refine ⟨{ Evolves.refl r with
      calendar := fun c => ⟨c.settled, c.word, c.emitted⟩
      mint := fun account' id' m₁ _ found₁ => ?_ },
    ⟨rfl, rfl, rfl, rfl, rfl, rfl, rfl⟩, ⟨rfl, rfl, rfl⟩⟩
  by_cases same : (account', id') = (account, id)
  · have : m₁ = m₀ := Option.some.inj (found₁.symm.trans (same ▸ stored))
    subst this
    refine ⟨m', by simp [owner, same], ?_⟩
    exact ⟨later.principal, later.shares, later.startHeight, later.days, later.accStart,
      later.expChunk, later.ended⟩
  · exact ⟨m₁, by simpa [owner, same] using found₁, .refl m₁⟩

/-- Closing a mint marks its record, with everything else before and after it put aside. -/
theorem closeMint_marks (r : Rows) (id : Nat) (m : Mint) (accrued : Int)
    : ∃ r₁, Aside r r₁
      ∧ Aside (r₁.putMint id { m with ended := true }) (closeMint r id m accrued) := by
  unfold closeMint
  dsimp only
  generalize paid : (if accrued > 0 then _ else r : Rows) = r₁
  refine ⟨r₁, ?_, Aside.offer ?_ _⟩
  · rw [← paid]
    split
    · exact (Aside.refl r).setAmount .poolLShare _ (by rfl)
    · exact .refl r
  generalize r₁.putMint id { m with ended := true } = r₂
  have released : Aside r₂ (if ¬accruedDays r > maturityDay r m
        ∧ ¬r₂.getU64 (.explCursor (maturityDay r m)) > m.expChunk then
      removeExpiryEntry (r₂.setAmount (.shares m.owner)
        (if i64 (sharesOf r₂ m.owner - m.shares) < 0 then 0
          else i64 (sharesOf r₂ m.owner - m.shares)))
        (maturityDay r m) m.expChunk m.owner m.shares
      else r₂) := by
    split
    · exact ((Aside.refl r₂).setAmount (.shares m.owner) _ (by rfl)).removeExpiryEntry _ _ _ _
    · exact .refl r₂
  split
  · exact (released.setAmount .sharesTotal _ (by rfl)).unscheduleExpiry _ _
  · exact released

/-- Closing a mint keeps the past: the record is marked and the rest steps aside. -/
theorem closeMint_steady {r : Rows} {account : String} {id : Nat} {m : Mint} (accrued : Int)
    (found : r.getMint account id = some m)
    : Steady r (closeMint r id m accrued) := by
  have owner : m.owner = account := by
    obtain ⟨m₀, _, rfl⟩ := Option.map_eq_some_iff.mp found
    rfl
  obtain ⟨r₁, pool, released⟩ := closeMint_marks r id m accrued
  have found₁ : r₁.getMint account id = some m := by
    rw [Rows.getMint, pool.mint]
    exact found
  have marked : Steady r (r₁.putMint id { m with ended := true }) :=
    pool.steady.trans (putMint_steady found₁ owner ⟨rfl, rfl, rfl, rfl, rfl, rfl, fun _ => rfl⟩)
  exact marked.trans released.steady

end LasseCash.State
