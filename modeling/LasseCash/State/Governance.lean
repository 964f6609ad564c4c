import LasseCash.State.Accrual

/-! The leaderboard behind the consensus group, and the governed parameters in force:
`contract/state/governance.go`.
-/

namespace LasseCash.State

open Engine MachineInt

-----------------------------------------------------------------------------------------
-- The leaderboard
-----------------------------------------------------------------------------------------

/-- How many accounts the leaderboard tracks. -/
def boardSize : Nat := 20

/-- Whether `account`, holding `shares`, outranks `other`; names break ties. -/
def betterSeat (r : Rows) (account : String) (shares : Int) (other : String) : Bool :=
  let o := sharesOf r other
  if shares ≠ o then shares > o else account < other

/-- The board's worst live seat, found by scanning every entry. -/
def weakestOnBoard (r : Rows) : String → List String → String
  | weakest, [] => weakest
  | weakest, a :: rest =>
      weakestOnBoard r (if betterSeat r weakest (sharesOf r weakest) a then a else weakest) rest

/-- The insertion loop of `offer`. -/
def insertOnBoard (r : Rows) (account : String) (shares : Int) : List String → List String
  | [] => [account]
  | a :: rest =>
      if betterSeat r account shares a then account :: a :: rest
      else a :: insertOnBoard r account shares rest

/-- Inserts or repositions an account on the leaderboard. -/
def offer (r : Rows) (account : String) : Rows :=
  let cur := r.board
  let shares := sharesOf r account
  let onBoard := account ∈ cur
  let without := cur.filter (· ≠ account)
  if shares ≤ 0 then
    if onBoard then r.putBoard without else r
  else
    let beaten :=
      match cur with
      | [] => false
      | first :: rest => betterSeat r account shares (weakestOnBoard r first rest)
    if ¬onBoard ∧ cur.length ≥ boardSize ∧ beaten = false then r
    else
      let out := (insertOnBoard r account shares without).take boardSize
      if cur = out then r else r.putBoard out

/-- An offer rewrites the board or nothing at all, by cases on its tests. -/
theorem offer_cases (r : Rows) (account : String)
    : offer r account = r ∨ ∃ accounts, offer r account = r.putBoard accounts := by
  unfold offer
  dsimp only
  split_ifs
  all_goals first | exact .inl rfl | exact .inr ⟨_, rfl⟩

/-- Offers any account for a seat; the board can only ever wrongly exclude. -/
def promote (account : String) : Op Result := do
  let r ← rows
  if account = "" then return fail "no account"
  if sharesOf r account ≤ 0 then return fail "account holds no L-Shares"
  setRows (offer r account)
  return ok "promoted"

-----------------------------------------------------------------------------------------
-- Parameters
-----------------------------------------------------------------------------------------

/-- The top ten of the board, ranked by the shares they hold now. -/
def consensusMembers (r : Rows) : List Holder :=
  consensusGroup (r.board.map fun a => ⟨a, sharesOf r a⟩)

/-- The value in force: the median of the members' standing preferences. -/
def effectiveParam (r : Rows) (key : ParamKey) : Int :=
  effectiveValue key.param (consensusMembers r) fun account => r.preference (key, account)

/-- Records a consensus member's standing preference. -/
def setPreference (ctx : Ctx) (key : String) (value : Int) : Op Result := do
  let r ← rows
  match registryParam key with
  | none => return fail "unknown parameter"
  | some k =>
      if !k.param.inBounds value then
        return fail
          ("value outside bounds [" ++ encI64 k.param.min ++ "," ++ encI64 k.param.max ++ "]")
      if !isMember (consensusMembers r) ctx.sender then return fail "not a consensus member"
      setRows (r.setPreference k ctx.sender value)
      return ok "preference recorded"

/-- The governed ramp and the share rate in force, frozen into a mint at its creation. -/
def mintParamsNow (r : Rows) (height : Nat) : MintParams where
  volumeStart := effectiveParam r .volumeStart
  volumeEnd := effectiveParam r .volumeEnd
  shareRate := shareRate (genesisHeight r) height
  start_nonneg := le_trans (by decide) (effectiveValue_bounds .volumeStart _ _).1
  end_lt := lt_of_le_of_lt (effectiveValue_bounds .volumeEnd _ _).2 (by decide)
  rate_ge := shareRate_ge _ _

end LasseCash.State
