import LasseCash.State.Action

/-! What a call can do to the rows, whatever the ledger and the assets answer. A fact that an
operation keeps under every such behaviour holds on the legacy rows, on a token and on a
token that refuses everything.
-/

namespace LasseCash.State

open Engine MachineInt Program

-----------------------------------------------------------------------------------------
-- The rows under a call
-----------------------------------------------------------------------------------------

/-- The replies a call may give and the rows it may leave. -/
def rowsMay : May Call Reply Rows
  | .rows, r, reply, r' => reply = r ∧ r' = r
  | .setRows x, _, _, r' => r' = x
  | .credit account _, r, paid, r' => r' = r ∨ (paid = true ∧ r' = noteAccount r account)
  | .mintSupply key delta, r, minted, r' =>
      (minted = false ∨ delta = 0) ∧ r' = r
        ∨ minted = true ∧ 0 < delta
          ∧ ∃ next, addAmount (r.getAmount key) delta = some next ∧ r' = r.setAmount key next
  | _, r, _, r' => r' = r

/-- Moving a legacy row into the token leaves the rows alone, by cases on its two calls. -/
@[simp]
theorem Store.ensureMigrated_rows (s : Store) (t : MemToken) (account : String)
    : (s.ensureMigrated t account).1.rows = s.rows := by
  unfold Store.ensureMigrated
  dsimp only
  split
  · rfl
  split
  · rfl
  split <;> rfl

/-- A credit at most notes its account in the roll. -/
theorem Store.credit_rows (s : Store) (account : String) (amt : Int)
    : (s.credit account amt).1.rows = s.rows
      ∨ ((s.credit account amt).2 = true
        ∧ (s.credit account amt).1.rows = noteAccount s.rows account) := by
  unfold Store.credit
  split
  · exact .inl rfl
  split
  · exact .inl rfl
  split
  · rename_i t _
    have moved := s.ensureMigrated_rows t account
    split
    · rename_i refused
      rw [refused] at moved
      exact .inl moved
    · rename_i ready
      rw [ready] at moved
      split
      · exact .inl moved
      · exact .inr ⟨rfl, by rw [← moved]⟩
  · split
    · exact .inl rfl
    · exact .inr ⟨rfl, rfl⟩

/-- A debit leaves the rows alone. -/
@[simp]
theorem Store.debit_rows (s : Store) (account : String) (amt : Int)
    : (s.debit account amt).1.rows = s.rows := by
  unfold Store.debit
  split
  · rfl
  split
  · rename_i t _
    have moved := s.ensureMigrated_rows t account
    split
    · rename_i refused
      rw [refused] at moved
      exact moved
    · rename_i ready
      rw [ready] at moved
      split
      · exact moved
      · split <;> exact moved
  · dsimp only
    split <;> rfl

/-- A mint raises its counter by the checked sum, or leaves the rows alone. -/
theorem Store.mintSupply_rows (s : Store) (key : AmountKey) (delta : Int)
    : ((s.mintSupply key delta).2 = false ∨ delta = 0)
        ∧ (s.mintSupply key delta).1.rows = s.rows
      ∨ (s.mintSupply key delta).2 = true ∧ 0 < delta
        ∧ ∃ next, addAmount (s.rows.getAmount key) delta = some next
          ∧ (s.mintSupply key delta).1.rows = s.rows.setAmount key next := by
  unfold Store.mintSupply
  split
  · exact .inl ⟨.inl rfl, rfl⟩
  split
  · exact .inl ⟨.inr ‹_›, rfl⟩
  split
  · exact .inl ⟨.inl rfl, rfl⟩
  · rename_i next sum
    split
    · split
      · exact .inl ⟨.inl rfl, rfl⟩
      · exact .inr ⟨rfl, by omega, next, sum, rfl⟩
    · exact .inr ⟨rfl, by omega, next, sum, rfl⟩

/-- Every call keeps to these bounds on the rows. -/
theorem serve_rowsMay {A : Type} [Assets A] (c : Call) (w : World A)
    : rowsMay c w.rows (serve c w).2 (serve c w).1.rows := by
  cases c with
  | rows => exact ⟨rfl, rfl⟩
  | setRows r => rfl
  | balance account => rfl
  | credit account amt => exact w.store.credit_rows account amt
  | debit account amt => exact w.store.debit_rows account amt
  | mintSupply key delta => exact w.store.mintSupply_rows key delta
  | draw amount => rfl
  | transferHbd recipient amount => rfl

-----------------------------------------------------------------------------------------
-- Tokens that do not fail
-----------------------------------------------------------------------------------------

/-- A store whose token, if there is one, does not fail. -/
def Store.Reliable (s : Store) : Prop := ∀ t, s.token = some t → t.fail = false

/-- A world whose token, if there is one, does not fail. -/
def World.Reliable {A : Type} (w : World A) : Prop := w.store.Reliable

/-- Whatever a token does, it fails no more than before. -/
theorem MemToken.mint_fail {t t' : MemToken} {amount : Int} (h : t.mint amount = some t')
    : t'.fail = t.fail := by
  unfold MemToken.mint at h
  split at h
  · cases h
  · obtain rfl := Option.some.inj h
    rfl

theorem MemToken.transfer_fail {t t' : MemToken} {recipient : String} {amount : Int}
    (h : t.transfer recipient amount = some t')
    : t'.fail = t.fail := by
  unfold MemToken.transfer at h
  split at h
  · cases h
  · obtain rfl := Option.some.inj h
    rfl

theorem MemToken.transferFrom_fail {t t' : MemToken} {payer : String} {amount : Int}
    (h : t.transferFrom payer amount = some t')
    : t'.fail = t.fail := by
  unfold MemToken.transferFrom at h
  split at h
  · cases h
  · obtain rfl := Option.some.inj h
    rfl

namespace Store.Reliable

variable {s : Store}

theorem withToken {t t' : MemToken} {rows : Rows} {bal : String → Option Int}
    (sound : t.fail = false) (same : t'.fail = t.fail)
    : Store.Reliable ⟨rows, bal, some t'⟩ := by
  rintro _ ⟨⟩
  rw [same, sound]

/-- Moving a legacy row, by cases on its two calls. -/
theorem ensureMigrated (h : s.Reliable) {t : MemToken} (there : s.token = some t)
    (account : String)
    : (s.ensureMigrated t account).1.Reliable ∧ (s.ensureMigrated t account).2.1.fail = false := by
  have sound := h t there
  unfold Store.ensureMigrated
  dsimp only
  split
  · exact ⟨h, sound⟩
  split
  · exact ⟨h, sound⟩
  rename_i minted made
  have made := MemToken.mint_fail made
  split
  · exact ⟨withToken sound made, made.trans sound⟩
  · rename_i sent moved
    have moved := (MemToken.transfer_fail moved).trans made
    exact ⟨withToken sound moved, moved.trans sound⟩

theorem credit (h : s.Reliable) (account : String) (amt : Int)
    : (s.credit account amt).1.Reliable := by
  unfold Store.credit
  split
  · exact h
  split
  · exact h
  split
  · rename_i t there
    obtain ⟨moved, sound⟩ := h.ensureMigrated there account
    split
    · rename_i settled
      rwa [settled] at moved
    · rename_i settled
      rw [settled] at moved sound
      split
      · exact moved
      · rename_i paid
        exact withToken sound (MemToken.transfer_fail paid)
  · rename_i there
    split
    · exact h
    · exact h

theorem debit (h : s.Reliable) (account : String) (amt : Int)
    : (s.debit account amt).1.Reliable := by
  unfold Store.debit
  split
  · exact h
  split
  · rename_i t there
    obtain ⟨moved, sound⟩ := h.ensureMigrated there account
    split
    · rename_i settled
      rwa [settled] at moved
    · rename_i settled
      rw [settled] at moved sound
      split
      · exact moved
      split
      · exact moved
      · rename_i paid
        exact withToken sound (MemToken.transferFrom_fail paid)
  · dsimp only
    split
    · exact h
    · exact h

/-- A reliable store raises a supply that is positive and fits. -/
theorem mintSupply (h : s.Reliable) (key : AmountKey) (delta : Int)
    : (s.mintSupply key delta).1.Reliable
      ∧ (0 < delta → (addAmount (s.rows.getAmount key) delta).isSome
        → (s.mintSupply key delta).2 = true) := by
  unfold Store.mintSupply
  split
  · exact ⟨h, fun _ => by omega⟩
  split
  · exact ⟨h, fun _ => by omega⟩
  split
  · rename_i unfit
    exact ⟨h, fun _ fits => by simp [unfit] at fits⟩
  · split
    · rename_i t there
      split
      · rename_i refused
        refine ⟨h, fun positive _ => ?_⟩
        simp [MemToken.mint, h t there, not_le.mpr positive] at refused
      · rename_i made
        exact ⟨withToken (h t there) (MemToken.mint_fail made), fun _ _ => rfl⟩
    · exact ⟨h, fun _ _ => rfl⟩

end Store.Reliable

/-- No call breaks the token, by cases on the call. -/
theorem serve_reliable {A : Type} [Assets A] (c : Call) {w : World A} (h : w.Reliable)
    : (serve c w).1.Reliable := by
  cases c with
  | credit account amt => exact Store.Reliable.credit h account amt
  | debit account amt => exact Store.Reliable.debit h account amt
  | mintSupply key delta => exact (Store.Reliable.mintSupply h key delta).1
  | rows => exact h
  | setRows r => exact h
  | balance account => exact h
  | draw amount => exact h
  | transferHbd recipient amount => exact h

/-- No operation breaks the token, by induction on it. -/
theorem run_reliable {A : Type} [Assets A] {α : Type} (p : Op α) {w : World A} (h : w.Reliable)
    : (p.run serve w).1.Reliable := by
  induction p generalizing w with
  | done value => exact h
  | call c next ih => exact ih _ (serve_reliable c h)

/-- A fact that an operation keeps under every behaviour holds of its run. -/
theorem always_serve {A : Type} [Assets A] {α : Type} {p : Op α} {Q : α → Rows → Prop}
    {w : World A} (holds : p.Always rowsMay Q w.rows)
    : Q (p.run serve w).2 (p.run serve w).1.rows :=
  always_run (σ := Rows) serve_rowsMay holds

-----------------------------------------------------------------------------------------
-- Rules for the calls
-----------------------------------------------------------------------------------------

section Rules

variable {r : Rows}

@[simp]
theorem always_rows {Q : Rows → Rows → Prop} : rows.Always rowsMay Q r ↔ Q r r := by
  refine always_issue.trans ⟨fun h => h r r ⟨rfl, rfl⟩, ?_⟩
  rintro h reply r' ⟨rfl, rfl⟩
  exact h

@[simp]
theorem always_setRows {x : Rows} {Q : Unit → Rows → Prop}
    : (setRows x).Always rowsMay Q r ↔ Q () x := by
  refine always_issue.trans ⟨fun h => h () x rfl, ?_⟩
  rintro h ⟨⟩ r' rfl
  exact h

@[simp]
theorem always_modify {f : Rows → Rows} {Q : Unit → Rows → Prop}
    : (modify f).Always rowsMay Q r ↔ Q () (f r) := by
  simp only [modify, always_bind, always_rows, always_setRows]

@[simp]
theorem always_balance {account : String} {Q : Int → Rows → Prop}
    : (balance account).Always rowsMay Q r ↔ ∀ n, Q n r := by
  refine always_issue.trans ⟨fun h n => h n r rfl, ?_⟩
  rintro h n r' rfl
  exact h n

@[simp]
theorem always_debit {account : String} {amt : Int} {Q : Bool → Rows → Prop}
    : (debit account amt).Always rowsMay Q r ↔ ∀ b, Q b r := by
  refine always_issue.trans ⟨fun h b => h b r rfl, ?_⟩
  rintro h b r' rfl
  exact h b

@[simp]
theorem always_draw {amount : Int} {Q : Bool → Rows → Prop}
    : (draw amount).Always rowsMay Q r ↔ ∀ b, Q b r := by
  refine always_issue.trans ⟨fun h b => h b r rfl, ?_⟩
  rintro h b r' rfl
  exact h b

@[simp]
theorem always_transferHbd {recipient : String} {amount : Int} {Q : Bool → Rows → Prop}
    : (transferHbd recipient amount).Always rowsMay Q r ↔ ∀ b, Q b r := by
  refine always_issue.trans ⟨fun h b => h b r rfl, ?_⟩
  rintro h b r' rfl
  exact h b

@[simp]
theorem always_credit {account : String} {amt : Int} {Q : Bool → Rows → Prop}
    : (credit account amt).Always rowsMay Q r
      ↔ (∀ b, Q b r) ∧ Q true (noteAccount r account) := by
  refine always_issue.trans ⟨fun h => ⟨fun b => h b r (.inl rfl), h true _ (.inr ⟨rfl, rfl⟩)⟩, ?_⟩
  rintro ⟨same, noted⟩ b r' (rfl | ⟨rfl, rfl⟩)
  · exact same b
  · exact noted

@[simp]
theorem always_mintSupply {key : AmountKey} {delta : Int} {Q : Bool → Rows → Prop}
    : (mintSupply key delta).Always rowsMay Q r
      ↔ Q false r ∧ (delta = 0 → Q true r)
        ∧ (0 < delta → ∀ next, addAmount (r.getAmount key) delta = some next
          → Q true (r.setAmount key next)) := by
  refine always_issue.trans ⟨fun h => ⟨h false r (.inl ⟨.inl rfl, rfl⟩),
    fun zero => h true r (.inl ⟨.inr zero, rfl⟩),
    fun pos next sum => h true _ (.inr ⟨rfl, pos, next, sum, rfl⟩)⟩, ?_⟩
  rintro ⟨refused, zero, raised⟩ b r' (⟨none | none, rfl⟩ | ⟨rfl, pos, next, sum, rfl⟩)
  · exact none ▸ refused
  · cases b with
    | false => exact refused
    | true => exact zero none
  · exact raised pos next sum

/-- Either branch of a test. -/
@[simp]
theorem always_ite {α : Type} {c : Prop} [Decidable c] {p q : Op α} {Q : α → Rows → Prop}
    : (if c then p else q).Always rowsMay Q r
      ↔ (c → p.Always rowsMay Q r) ∧ (¬c → q.Always rowsMay Q r) := by
  split <;> simp_all

end Rules

end LasseCash.State
