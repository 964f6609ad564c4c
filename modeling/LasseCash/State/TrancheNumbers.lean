import LasseCash.State.LiquidityRoundTrip

/-! How the tranches of a provider are numbered: a deposit takes the next number of its sender, and no
other operation takes one. No tranche is therefore ever written over by another.
-/

namespace LasseCash.State

open Engine MachineInt

variable {o : Origin} {r r' : Rows}

/-- The tranches that an account has opened. -/
def tranchesOf (r : Rows) (account : String) : Nat := r.getU64 (.lpSeq account)

theorem Touches.tranchesOf {sides : List Side} (h : Touches sides r r') (account : String)
    (away : sides.contains .tranches = false)
    : tranchesOf r' account = State.tranchesOf r account :=
  h.count (.lpSeq account) away

/-- A tranche takes the next number of its owner, and nobody else's. -/
theorem openTranche_tranchesOf (r : Rows) (ctx : Ctx) (shares acc : Int) (account : String)
    : tranchesOf (openTranche r ctx shares acc) account
      = tranchesOf r account + if account = ctx.sender then 1 else 0 := by
  unfold tranchesOf
  by_cases own : account = ctx.sender
  · subst own
    simp [openTranche]
  · simp [openTranche, own]

/-- No other operation takes a number, by cases on its steps. -/
theorem Step.tranchesOf {whole : Prop} (h : Step o whole r r')
    (other : ∀ lcIn maxHbd, o.action ≠ .addLiquidity lcIn maxHbd) (account : String)
    : tranchesOf r' account = tranchesOf r account := by
  cases h with
  | ledger step => exact step.touches.tranchesOf account rfl
  | mint step => exact step.touches.tranchesOf account rfl
  | content step => exact step.touches.tranchesOf account rfl
  | migration step => exact step.touches.tranchesOf account rfl
  | liquidity step =>
      cases step with
      | settle owner id t asked accrued found going own => exact settleRows_lpSeq r _ id t account
      | touch id t found going => simp [State.tranchesOf]
      | deposit done lcIn maxHbd hbdIn shares r₁ asked first positive priced earned some_earned
          accrues strides => exact absurd asked (other lcIn maxHbd)
      | withdraw asked owner id t lcOut hbdOut paid r₁ found going own amounts dust noted =>
          have kept : State.tranchesOf (takeFromPool r t lcOut paid) account
              = State.tranchesOf r account := by simp [State.tranchesOf, takeFromPool]
          rcases noted with rfl | rfl
          · rw [← kept]
            simp [State.tranchesOf]
          · have noted := ((Touches.refl (takeFromPool r t lcOut paid)).noteAccount owner rfl
              : Touches [.roll] _ _).tranchesOf account (by rfl)
            rw [← kept, ← noted]
            simp [State.tranchesOf]
      | strand torn asked owner id t lcOut hbdOut paid found going own amounts dust =>
          simp [State.tranchesOf, takeFromPool]
      | sellLC lcIn minOut out asked swap => simp [State.tranchesOf]
      | buyLC hbdIn minOut out asked swap => simp [State.tranchesOf]

/-- A deposit takes the next number of its sender. -/
theorem Opened.tranchesOf {lcIn maxHbd hbdIn shares : Int}
    (opened : Opened o lcIn maxHbd hbdIn shares r') (account : String)
    : tranchesOf r' account = tranchesOf o.start account + if account = o.ctx.sender then 1 else 0 := by
  obtain ⟨r₁, accrues, rfl⟩ := opened.opens
  have before : Touches (.reserves :: .lpAccumulator :: accrualSides) o.start
      (syncPoolAccumulator r₁).1 :=
    (((depositRows_touches o.start lcIn hbdIn shares).widen (by decide)).trans
      (accrues.touches.widen (by decide))).trans ((syncPoolAccumulator_touches r₁).widen (by decide))
  rw [openTranche_tranchesOf, before.tranchesOf account rfl]

-----------------------------------------------------------------------------------------
-- Deposits over time
-----------------------------------------------------------------------------------------

/-- (TrancheIds r) says that every tranche is stored under a number that its owner has been given. -/
def TrancheIds (r : Rows) : Prop :=
  ∀ owner id t, r.tranche (owner, id) = some t → id ≤ tranchesOf r owner

/-- (Remains t t') says that `t'` is the same deposit as `t`, later. -/
structure Remains (t t' : Tranche) : Prop where
  shares : t'.shares = t.shares
  startHeight : t'.startHeight = t.startHeight
  closed : t.closed = true → t'.closed = true

theorem Remains.trans {t t' t'' : Tranche} (h : Remains t t') (h' : Remains t' t'')
    : Remains t t'' where
  shares := h'.shares.trans h.shares
  startHeight := h'.startHeight.trans h.startHeight
  closed ended := h'.closed (h.closed ended)

/-- (TranchesKept r r') says that `r'` has every tranche of `r`, under numbers that were given. -/
structure TranchesKept (r r' : Rows) : Prop where
  ids : TrancheIds r'
  remains : ∀ key t, r.tranche key = some t → ∃ t', r'.tranche key = some t' ∧ Remains t t'

theorem TranchesKept.refl (ids : TrancheIds r) : TranchesKept r r :=
  ⟨ids, fun _ t there => ⟨t, there, rfl, rfl, fun ended => ended⟩⟩

theorem TranchesKept.trans {r'' : Rows} (h : TranchesKept r r') (h' : TranchesKept r' r'')
    : TranchesKept r r'' := by
  refine ⟨h'.ids, fun key t there => ?_⟩
  obtain ⟨t', there', same⟩ := h.remains key t there
  obtain ⟨t'', there'', same'⟩ := h'.remains key t' there'
  exact ⟨t'', there'', same.trans same'⟩

/-- Rows that agree on the tranches and their numbers. -/
theorem TranchesKept.same (ids : TrancheIds r) (rows : r'.tranche = r.tranche)
    (numbers : ∀ account, tranchesOf r' account = tranchesOf r account)
    : TranchesKept r r' := by
  refine ⟨fun owner id t there => ?_, fun _ t there => ⟨t, rows ▸ there, rfl, rfl, fun ended => ended⟩⟩
  rw [numbers]
  exact ids owner id t (rows ▸ there)

theorem TranchesKept.touches {sides : List Side} (ids : TrancheIds r) (moved : Touches sides r r')
    (away : sides.contains .tranches = false)
    : TranchesKept r r' :=
  .same ids (moved.tranche away) fun account => moved.tranchesOf account away

/-- Writing over a stored tranche. -/
theorem TranchesKept.written {owner : String} {id : Nat} {t t' : Tranche} (ids : TrancheIds r)
    (there : r.tranche (owner, id) = some t)
    (rows : r'.tranche = Function.update r.tranche (owner, id) (some t')) (same : Remains t t')
    (numbers : ∀ account, tranchesOf r' account = tranchesOf r account)
    : TranchesKept r r' := by
  refine ⟨fun owner' id' t₁ there' => ?_, fun key t₁ there' => ?_⟩
  · rw [numbers]
    by_cases here : (owner', id') = (owner, id)
    · exact ids owner' id' t (here ▸ there)
    · rw [rows, Function.update_of_ne here] at there'
      exact ids owner' id' t₁ there'
  · by_cases here : key = (owner, id)
    · subst here
      obtain rfl := Option.some.inj (there.symm.trans there')
      exact ⟨t', by rw [rows, Function.update_self], same⟩
    · exact ⟨t₁, by rw [rows, Function.update_of_ne here, there'], rfl, rfl, fun ended => ended⟩

/-- A new tranche writes over none, for its number has not been given. -/
theorem TranchesKept.opened (ids : TrancheIds r) (ctx : Ctx) (shares acc : Int)
    : TranchesKept r (openTranche r ctx shares acc) := by
  have rows : (openTranche r ctx shares acc).tranche
      = Function.update r.tranche (ctx.sender, tranchesOf r ctx.sender + 1)
        (some (newTranche ctx shares acc)) :=
    (openTranche_rows r ctx shares acc).1
  have numbers := openTranche_tranchesOf r ctx shares acc
  refine ⟨fun owner id t there => ?_, fun key t there =>
    ⟨t, ?_, rfl, rfl, fun ended => ended⟩⟩
  · rw [numbers]
    by_cases here : (owner, id) = (ctx.sender, tranchesOf r ctx.sender + 1)
    · obtain ⟨rfl, rfl⟩ := Prod.mk.inj here
      rw [if_pos rfl]
    · rw [rows, Function.update_of_ne here] at there
      exact (ids owner id t there).trans (Nat.le_add_right _ _)
  · have other : key ≠ (ctx.sender, tranchesOf r ctx.sender + 1) := by
      rintro rfl
      exact absurd (ids _ _ t there) (Nat.not_succ_le_self _)
    rw [rows, Function.update_of_ne other, there]

/-- What a step does to the tranches that are there, by cases on the steps that write them. -/
theorem Step.tranchesKept {whole : Prop} (h : Step o whole r r') (ids : TrancheIds r)
    : TranchesKept r r' := by
  cases h with
  | ledger step => exact .touches ids step.touches rfl
  | mint step => exact .touches ids step.touches rfl
  | content step => exact .touches ids step.touches rfl
  | migration step => exact .touches ids step.touches rfl
  | liquidity step =>
      cases step with
      | settle owner id t asked accrued found going own =>
          have rows := settleRows_tranche r o.ctx.height id t
          obtain ⟨stored, there, rfl⟩ := Option.map_eq_some_iff.mp found
          exact .written ids there rows ⟨rfl, rfl, fun ended => ended⟩
            (settleRows_lpSeq r o.ctx.height id _)
      | touch id t found going =>
          obtain ⟨stored, there, rfl⟩ := Option.map_eq_some_iff.mp found
          exact .written ids there rfl ⟨rfl, rfl, fun ended => ended⟩ fun _ => rfl
      | deposit done lcIn maxHbd hbdIn shares r₁ asked first positive priced earned some_earned
          accrues strides =>
          have before : Touches (.reserves :: .lpAccumulator :: accrualSides) r
              (syncPoolAccumulator r₁).1 :=
            (((depositRows_touches r lcIn.toInt hbdIn shares).widen (by decide)).trans
              (accrues.touches.widen (by decide))).trans
              ((syncPoolAccumulator_touches r₁).widen (by decide))
          have kept : TranchesKept r (syncPoolAccumulator r₁).1 := .touches ids before rfl
          exact kept.trans (.opened kept.ids o.ctx shares _)
      | withdraw asked owner id t lcOut hbdOut paid r₁ found going own amounts dust noted =>
          have before : TranchesKept r r₁ ∧ r₁.tranche = r.tranche := by
            have taken : TranchesKept r (takeFromPool r t lcOut paid) :=
              .same ids rfl fun account => by simp [State.tranchesOf, takeFromPool]
            rcases noted with rfl | rfl
            · exact ⟨taken, rfl⟩
            · have noted : Touches [.roll] (takeFromPool r t lcOut paid)
                  (noteAccount (takeFromPool r t lcOut paid) owner) :=
                (Touches.refl _).noteAccount owner (by rfl)
              exact ⟨taken.trans (.touches taken.ids noted (by rfl)), noted.tranche (by rfl)⟩
          obtain ⟨stored, there, rfl⟩ := Option.map_eq_some_iff.mp found
          have there₁ : r₁.tranche (owner, id) = some stored := (congrFun before.2 _).trans there
          exact before.1.trans (.written before.1.ids there₁ rfl ⟨rfl, rfl, fun _ => rfl⟩
            fun _ => rfl)
      | strand torn asked owner id t lcOut hbdOut paid found going own amounts dust =>
          exact .same ids rfl fun account => by simp [State.tranchesOf, takeFromPool]
      | sellLC lcIn minOut out asked swap =>
          exact .same ids rfl fun account => by simp [State.tranchesOf]
      | buyLC hbdIn minOut out asked swap =>
          exact .same ids rfl fun account => by simp [State.tranchesOf]

section Requests

variable {A : Type} [Assets A] {q : Request}

theorem Request.exec_tranchesOf (other : ∀ lcIn maxHbd, q.action ≠ .addLiquidity lcIn maxHbd)
    (w : World A) (account : String)
    : tranchesOf (q.exec w).1.rows account = tranchesOf w.rows account :=
  (q.exec_steps w).keep (I := fun r => tranchesOf r account = tranchesOf w.rows account)
    (fun _ _ kept step => (step.tranchesOf other account).trans kept) rfl

theorem Request.exec_deposit_tranchesOf {lcIn maxHbd : Int64}
    (asked : q.action = .addLiquidity lcIn maxHbd) (w : World A)
    (success : (q.exec w).2.ok = true) (account : String)
    : tranchesOf (q.exec w).1.rows account
      = tranchesOf w.rows account + if account = q.ctx.sender then 1 else 0 :=
  let ⟨_, _, opened, _⟩ := q.exec_opens w asked success
  opened.tranchesOf account

theorem Request.exec_tranchesKept {w : World A} (q : Request) (h : TranchesKept r w.rows)
    : TranchesKept r (q.exec w).1.rows :=
  (q.exec_steps w).keep (I := TranchesKept r)
    (fun _ _ kept step => kept.trans (step.tranchesKept kept.ids)) h

theorem after_tranchesKept {w : World A} (ids : TrancheIds w.rows) (requests : List Request)
    : TranchesKept w.rows (after w requests).rows :=
  after_keep (I := fun v => TranchesKept w.rows v.rows) (fun _ q h => q.exec_tranchesKept h)
    (.refl ids) requests

/-- From the deployment on, whatever is asked, a deposit of liquidity is never lost or written over:
it keeps its shares and its age, and once it has been withdrawn it stays closed.
-/
theorem deposit_permanent (store : Store) (assets : A) (genesis : UInt64)
    (fresh : store.rows = .empty) (requests later : List Request) {owner : String} {id : Nat}
    {t : Tranche}
    (found : (after (initialised store assets genesis) requests).rows.getTranche owner id = some t)
    : ∃ t', (after (after (initialised store assets genesis) requests) later).rows.getTranche owner id
          = some t'
        ∧ Remains t t' := by
  have ids : TrancheIds (initialised store assets genesis).rows := by
    intro owner id t there
    rw [(initialised_touches store assets genesis fresh).tranche rfl] at there
    cases there
  have kept := after_tranchesKept (after_tranchesKept ids requests).ids later
  obtain ⟨t₀, there, rfl⟩ := Option.map_eq_some_iff.mp found
  obtain ⟨t', there', same⟩ := kept.remains _ t₀ there
  exact ⟨{ t' with owner }, Option.map_eq_some_iff.mpr ⟨t', there', rfl⟩,
    same.shares, same.startHeight, same.closed⟩

/-- A deposit that is withdrawn, with another made in between. -/
theorem deposit_permanent_withdrawn
    : let w := after (initialised Store.newMem MemAssets.new 1)
        [⟨.of "hive:owner" 1, .creditMigration "hive:a" 300000000000 0, true⟩,
          ⟨.of "hive:a" 2, .addLiquidity 10000000000 50000000000, true⟩]
      let w' := after w
        [⟨.of "hive:a" 3, .addLiquidity 10000000000 50000000000, true⟩,
          ⟨.of "hive:a" 4, .removeLiquidity 1, true⟩]
      ∃ t t', w.rows.getTranche "hive:a" 1 = some t ∧ w'.rows.getTranche "hive:a" 1 = some t'
        ∧ t.closed = false ∧ t'.closed = true ∧ Remains t t' := by
  intro w w'
  have stored : (w.rows.getTranche "hive:a" 1).isSome = true := by decide +kernel
  obtain ⟨t, found⟩ := Option.isSome_iff_exists.mp stored
  obtain ⟨t', found', same⟩ := deposit_permanent Store.newMem MemAssets.new 1 rfl _
    [⟨.of "hive:a" 3, .addLiquidity 10000000000 50000000000, true⟩,
      ⟨.of "hive:a" 4, .removeLiquidity 1, true⟩] found
  have going : (w.rows.getTranche "hive:a" 1).map (·.closed) = some false := by decide +kernel
  have closed : (w'.rows.getTranche "hive:a" 1).map (·.closed) = some true := by decide +kernel
  rw [found] at going
  rw [show w'.rows.getTranche "hive:a" 1 = some t' from found'] at closed
  exact ⟨t, t', found, found', Option.some.inj going, Option.some.inj closed, same⟩

end Requests

end LasseCash.State
