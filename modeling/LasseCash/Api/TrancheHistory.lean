import LasseCash.Api.Market
import LasseCash.Api.OpResults
import LasseCash.Api.PositionHistory
import LasseCash.Lib.StableSort
import LasseCash.State.TrancheNumbers

/-! The life of one pool position, `trancheStory` of `api/src/position-history.ts`, out of the calls that
`accountCalls` of `api/src/magi-backend.ts` collects: tranches are told apart by counting deposits.
-/

namespace LasseCash.Api.TrancheHistory

open App DoubleRounding MachineInt OpResults State StableSort

-----------------------------------------------------------------------------------------
-- Calls of an account
-----------------------------------------------------------------------------------------

/-- An operation of a listed transaction. -/
structure RowOp where
  type : String
  action : Option String
  payload : Option String

/-- A transaction as the node lists it. -/
structure Row where
  id : String
  height : ℤ
  time : String
  status : String
  output : List String
  ops : List RowOp

/-- An output of some contract. -/
structure ContractOutput where
  contractId : String
  output : Output

/-- What the node answers: the transactions of an account from an offset on, and the outputs of an
identifier, or nothing where it fails; and in which order a batch of transactions is through.
-/
structure Node where
  page : ℕ → List Row
  findContractOutput : String → Option (List ContractOutput)
  through : List Row → List Row

variable (node : Node) (contractId : String) (actions : List String)

/-- Pages of a hundred, up to the first one that is not full. -/
def Node.pages : ℕ → ℕ → List Row
  | 0, _ => []
  | left + 1, p =>
      let page := node.page (p * 100)
      if page.length < 100 then page else page ++ Node.pages left (p + 1)

/-- Confirmed transactions with a wanted call, out of twenty pages at most. -/
def Node.relevant : List Row :=
  (node.pages 20 0).filter fun r => r.status == "CONFIRMED"
    && r.ops.any fun o => o.type == "call" && actions.contains (o.action.getD "")

/-- The outputs of some identifiers up to the first that fails. -/
def Node.outputs : List String → List ContractOutput
  | [] => []
  | id :: rest =>
      match node.findContractOutput id with
      | some found => found ++ Node.outputs rest
      | none => []

/-- This contract's results in a transaction. -/
def Node.results (r : Row) : Results :=
  resultsByOp (((node.outputs r.output).filter (·.contractId == contractId)).map (·.output))
    fun _ => none

/-- The wanted calls among some operations, with their results. -/
def Row.callsFrom (r : Row) (results : Results) : ℕ → ℕ → List RowOp → List AccountCall
  | _, _, [] => []
  | op, call, o :: rest =>
      if o.type ≠ "call" then Row.callsFrom r results (op + 1) call rest
      else
        let action := o.action.getD ""
        let later := Row.callsFrom r results (op + 1) (call + 1) rest
        if actions.contains action then
          let result := resultFor results r.id op call
          { txId := r.id, height := r.height, time := r.time, action
            payload := o.payload.getD ""
            ok := result.elim false (·.ok), ret := result.elim "" (·.ret) } :: later
        else later

/-- Four at a time. -/
def batches : List Row → List (List Row)
  | a :: b :: c :: d :: rest => [a, b, c, d] :: batches rest
  | [] => []
  | rest => [rest]

/-- The relevant transactions in the order in which their outputs are through. -/
def Node.collected : List Row := (batches (node.relevant actions)).flatMap node.through

/-- The calls that the account made, by height. -/
def Node.accountCalls : List AccountCall :=
  byKey AccountCall.height ((node.collected actions).flatMap fun r =>
    r.callsFrom actions (node.results contractId r) 0 0 r.ops)

-----------------------------------------------------------------------------------------
-- Stories
-----------------------------------------------------------------------------------------

/-- Both amounts of an answer to a deposit or a withdrawal. -/
def parseLiquidity (ret : String) : Option (ℕ × ℕ) := do
  let rest ← (following "added " ret.toList).or (following "withdrew " ret.toList)
  let (lc, rest) ← leadingNumber rest
  let rest ← (following " LASSECASH and " rest).or (following " LC and " rest)
  let (hbd, rest) ← leadingNumber rest
  (following " HBD" rest).map fun _ => (lc, hbd)

/-- A claim of a position's rewards. -/
structure RewardClaim where
  txId : String
  height : ℤ
  time : String
  amount : String

structure TrancheStory where
  id : ℕ
  depositTxId : Option String
  depositHeight : Option ℤ
  depositTime : Option String
  depositLc : Option String
  depositHbd : Option String
  claims : List RewardClaim
  claimedTotal : String
  withdrawTxId : Option String
  withdrawHeight : Option ℤ
  withdrawTime : Option String
  withdrawLc : Option String
  withdrawHbd : Option String

def isDeposit (c : AccountCall) : Bool := c.ok && c.action == "add_liquidity"

/-- The n-th deposit that succeeded; there is no zeroth. -/
def depositOf (id : ℕ) (calls : List AccountCall) : Option AccountCall :=
  match id with
  | 0 => none
  | n + 1 => ((byKey AccountCall.height calls).filter isDeposit)[n]?

/-- One pool position's story. -/
def trancheStory (id : ℕ) (calls : List AccountCall) : TrancheStory :=
  let byAge := byKey AccountCall.height calls
  let dep := depositOf id calls
  let depAmt := dep.bind (parseLiquidity ·.ret)
  let mine (c : AccountCall) := field c.payload 0 == some (toString id)
  let claims := (byAge.filter fun c => c.ok && c.action == "claim_pool" && mine c).filterMap fun c =>
    (parseClaimed c.ret).map fun v => (c, v)
  let w := byAge.find? fun c => c.ok && c.action == "remove_liquidity" && mine c
  let wAmt := w.bind (parseLiquidity ·.ret)
  { id
    depositTxId := dep.map (·.txId)
    depositHeight := dep.map (·.height)
    depositTime := dep.map (·.time)
    depositLc := depAmt.map fun a => fromUnits a.1
    depositHbd := depAmt.map fun a => fromUnits a.2
    claims := claims.map fun e => ⟨e.1.txId, e.1.height, e.1.time, fromUnits e.2⟩
    claimedTotal := fromUnits ((claims.map (·.2)).sum : ℕ)
    withdrawTxId := w.map (·.txId)
    withdrawHeight := w.map (·.height)
    withdrawTime := w.map (·.time)
    withdrawLc := wAmt.map fun a => fromUnits a.1
    withdrawHbd := wAmt.map fun a => fromUnits a.2 }

-----------------------------------------------------------------------------------------
-- The chain
-----------------------------------------------------------------------------------------

/-- An operation of a transaction: a call of this contract, of another one, or something else. -/
inductive ChainOp
  | call (invocation : Invocation)
  | foreign (action payload : String)
  | other (type : String) (uncalled : type ≠ "call")

/-- A transaction that the chain has confirmed. -/
structure ChainTx where
  id : String
  time : String
  ctx : Ctx
  ops : List ChainOp

def ChainOp.kind : ChainOp → OpResults.TxOp
  | call _ => .call true
  | foreign .. => .call false
  | other .. => .other

def ChainOp.row : ChainOp → RowOp
  | call invocation => ⟨"call", invocation.action, invocation.payload⟩
  | foreign action payload => ⟨"call", action, payload⟩
  | other type _ => ⟨type, none, none⟩

/-- A transaction as its results are looked up. -/
def ChainTx.tx (t : ChainTx) : Tx := ⟨t.id, t.ops.map ChainOp.kind⟩

/-- A transaction as the node lists it; its height is read as a Number. -/
def ChainTx.row (outputIds : String → List String) (t : ChainTx) : Row :=
  ⟨t.id, number t.ctx.height, t.time, "CONFIRMED", outputIds t.id, t.ops.map ChainOp.row⟩

/-- The calls of this contract among some operations. -/
def ChainTx.callsAmong (t : ChainTx) (ops : List ChainOp) : List ChainCall :=
  ops.filterMap fun
    | .call invocation => some ⟨t.id, t.time, t.ctx, invocation⟩
    | _ => none

def ChainTx.calls (t : ChainTx) : List ChainCall := t.callsAmong t.ops

variable {A : Type} [Assets A]

/-- Calls, each with the world that it found. -/
def found : World A → List ChainCall → List (ChainCall × World A)
  | _, [] => []
  | w, t :: rest => (t, w) :: found (t.exec w).1 rest

/-- Transactions, each with the world that it found. -/
def recorded : World A → List ChainTx → List (ChainTx × World A)
  | _, [] => []
  | w, t :: rest => (t, w) :: recorded (afterCalls w t.calls) rest

/-- What an account's calls answered in a world is a deposit that succeeded. -/
def Deposited (e : ChainCall × World A) : Bool :=
  isDeposit (.of e.1 (e.1.exec e.2).2)

/-- The deposits of a transaction that succeeded. -/
def deposits (e : ChainTx × World A) : List (ChainCall × World A) :=
  (found e.2 e.1.calls).filter Deposited

-----------------------------------------------------------------------------------------
-- What is read of a transaction
-----------------------------------------------------------------------------------------

/-- (Reported t s) says that the shape is one in which the results of a transaction are put out:
operations by name, or its calls where all are this contract's, or the calls of several.
-/
def Reported (t : Tx) : Shape → Prop
  | .named cs => cs = t.own
  | .bare t' => t' = t ∧ ∀ c ∈ t.calls, c.ours = true
  | .sliced ts => 2 ≤ ts.length ∧ (ts.map Tx.id).Nodup ∧ ∀ t' ∈ ts, OpResults.Plain t'.id

/-- (Told s) says that a shape names one transaction, and where it names no operation a single call
is the first one.
-/
def Told : Shape → Prop
  | .named _ => True
  | .bare t => t.own.length = 1 → ∀ c ∈ t.own, c.op = 0
  | .sliced _ => False

section Reading

variable {t : Tx} {c : CallOp} {res : CallOp → RawResult}

/-- What is known of a call from one output, without the numbers of calls. -/
def readOf (res : CallOp → RawResult) (s : Shape) (c : CallOp) : Option OpResult :=
  resultFor (resultsByOp [s.output res] fun _ => none) c.tx c.op c.call

theorem readOf_writes {s : Shape} {ws : List Write}
    (writes : (s.output res).writes (fun _ => none) = ws)
    : readOf res s c
      = (ws.filterMap (Write.opOf c.tx c.op)).getLast?.or
        ((ws.filterMap (Write.callsOf c.tx)).getLast?.getD [])[c.call]? := by
  have outputs : resultFor (resultsByOp ([s].map (Shape.output res)) fun _ => none) c.tx c.op c.call
      = _ := resultFor_outputs (fun _ => none) c
  rw [List.flatMap_singleton, List.flatMap_singleton, writes] at outputs
  exact outputs

/-- Named operations have their own results, and those of other contracts none. -/
theorem readOf_named (plain : OpResults.Plain t.id) (there : c ∈ t.calls)
    : readOf res (.named t.own) c = if c.ours = true then some (res c).clean else none := by
  have once : t.own.Nodup := t.calls_nodup.filter _
  have byName : (Shape.named t.own).ByName := by
    by_contra cut
    obtain ⟨long, first⟩ := not_or.mp cut
    have zero (d : CallOp) (own : d ∈ t.own) : d.op = 0 := not_not.mp fun later => first ⟨d, own, later⟩
    cases own : t.own with
    | nil => exact long (by simp [own])
    | cons a rest =>
        cases rest with
        | nil => exact long (by simp [own])
        | cons b rest =>
            have here : a ∈ t.own := own ▸ List.mem_cons_self
            have there : b ∈ t.own := own ▸ List.mem_cons_of_mem _ List.mem_cons_self
            have same := Tx.calls_op (Tx.own_calls here).1 (Tx.own_calls there).1
              ((zero a here).trans (zero b there).symm)
            rw [own, same] at once
            exact (List.nodup_cons.mp once).1 List.mem_cons_self
  have writes : ((Shape.named t.own).output res).writes (fun _ => none)
      = t.own.map fun d => .op d.tx d.op (res d).clean :=
    Shape.writes_byName (fun d own => (Tx.calls_at (Tx.own_calls own).1).1 ▸ plain) byName
  have uncalled : ((t.own.map fun d => Write.op d.tx d.op (res d).clean).filterMap
      (Write.callsOf c.tx)) = [] := by
    rw [List.filterMap_map]
    exact List.filterMap_eq_nil_iff.mpr fun _ _ => rfl
  rw [readOf_writes writes, uncalled]
  split
  · rename_i ours
    rw [filterMap_only (n := CallOp.op) (f := fun d => (res d).clean) once
      (List.mem_filter.mpr ⟨there, ours⟩)
      fun d own _ op => Tx.calls_op (Tx.own_calls own).1 there op]
    rfl
  · rename_i foreign
    have unnamed : (t.own.map fun d => Write.op d.tx d.op (res d).clean).filterMap
        (Write.opOf c.tx c.op) = [] := by
      rw [List.filterMap_map]
      refine List.filterMap_eq_nil_iff.mpr fun d own => if_neg fun same => foreign ?_
      obtain ⟨call, ours⟩ := Tx.own_calls own
      exact Tx.calls_op call there same.2 ▸ ours
    rw [unnamed]
    rfl

/-- The results of a transaction that calls no other contract are by call, if there are several; a
single one is taken for that of the first operation.
-/
theorem readOf_bare (plain : OpResults.Plain t.id) (all : ∀ c ∈ t.calls, c.ours = true) (there : c ∈ t.calls)
    : readOf res (.bare t) c
      = if t.own.length = 1 ∧ c.op ≠ 0 then none else some (res c).clean := by
  have whole : t.own = t.calls := List.filter_eq_self.mpr all
  have tx := (Tx.calls_at there).1
  by_cases single : t.own.length = 1
  · have writes : ((Shape.bare t).output res).writes (fun _ => none)
        = (Shape.bare t).covers.map fun d => .op d.tx ((Shape.bare t).opAt d) (res d).clean :=
      Shape.writes_byName (fun d own => (Tx.calls_at (Tx.own_calls own).1).1 ▸ plain) single
    obtain ⟨d, only⟩ := List.length_eq_one_iff.mp single
    obtain rfl : c = d := List.mem_singleton.mp (only ▸ whole ▸ there)
    have one : (Shape.bare t).covers = [c] := only
    rw [readOf_writes writes, one]
    by_cases first : c.op = 0
    · rw [if_neg fun late => late.2 first]
      simp [Write.opOf, Shape.opAt, first]
    · rw [if_pos ⟨single, first⟩]
      simp [Write.opOf, Write.callsOf, Shape.opAt, Ne.symm first]
  · have writes : ((Shape.bare t).output res).writes (fun _ => none)
        = [.calls t.id (t.own.map fun c => (res c).clean)] := by
      rw [Shape.output_writes, Shape.inputs, Shape.covers,
        if_neg fun shape => single shape.2.1.symm]
    rw [readOf_writes writes, if_neg fun late => single late.1]
    simp [Write.opOf, Write.callsOf, tx, whole, (Tx.calls_at there).2]

/-- The results of several transactions are not told apart without the numbers of calls. -/
theorem readOf_sliced {ts : List Tx} (several : 2 ≤ ts.length) (nodup : (ts.map Tx.id).Nodup)
    (plain : ∀ t ∈ ts, OpResults.Plain t.id)
    : readOf res (.sliced ts) c = none := by
  have writes : ((Shape.sliced ts).output res).writes (fun _ => none) = [] := by
    have bare : (ts.map Tx.id).map bareId = ts.map Tx.id := by
      rw [List.map_map]
      refine List.map_congr_left fun t there => ?_
      rw [Function.comp_apply, bareId, (plain t there).suffix]
      rfl
    have unsuffixed : ((ts.map Tx.id).any fun input => (OpResults.suffix input).isSome) = false := by
      refine List.any_eq_false.mpr fun input there => ?_
      obtain ⟨t, among, rfl⟩ := List.mem_map.mp there
      rw [(plain t among).suffix]
      exact Bool.false_ne_true
    have length : (ts.map Tx.id).length = ts.length := List.length_map _
    rw [Shape.output_writes, Shape.inputs, bare, nodup.dedup, unsuffixed, if_neg (by
      rintro ⟨-, -, never | single | single⟩
      · exact Bool.false_ne_true never
      all_goals omega)]
    obtain _ | ⟨_, _ | ⟨_, _⟩⟩ := ts
    · simp at several
    · simp at several
    · rfl
  rw [readOf_writes writes]
  rfl

/-- A call has its own result if its shape is told, and none otherwise. -/
theorem readOf_reported (plain : OpResults.Plain t.id) {s : Shape} (reported : Reported t s)
    (there : c ∈ t.calls)
    : (Told s → readOf res s c = if c.ours = true then some (res c).clean else none)
      ∧ (¬Told s → readOf res s c = none) := by
  cases s with
  | named cs =>
      obtain rfl := reported
      exact ⟨fun _ => readOf_named plain there, fun untold => absurd trivial untold⟩
  | bare t' =>
      obtain ⟨rfl, all⟩ := reported
      have own : c ∈ t'.own := List.mem_filter.mpr ⟨there, all c there⟩
      rw [readOf_bare plain all there, if_pos (all c there)]
      refine ⟨fun told => if_neg fun late => late.2 (told late.1 c own), fun untold => if_pos ?_⟩
      obtain ⟨single, late⟩ := Classical.not_imp.mp untold
      refine ⟨single, fun first => late fun d own' => ?_⟩
      obtain ⟨e, only⟩ := List.length_eq_one_iff.mp single
      rw [only] at own own'
      rw [List.mem_singleton.mp own', ← List.mem_singleton.mp own]
      exact first
  | sliced ts =>
      obtain ⟨several, nodup, plain⟩ := reported
      exact ⟨False.elim, fun _ => readOf_sliced several nodup plain⟩

end Reading

-----------------------------------------------------------------------------------------
-- What is listed of a transaction
-----------------------------------------------------------------------------------------

section Listing

variable {actions} {t : ChainTx} {outputIds : String → List String} {results : Results}
  {op call : ℕ} {ops : List ChainOp} {w : World A}

/-- A call and its answer, as they are listed. -/
def listed (e : ChainCall × World A) : AccountCall := .of e.1 (e.1.exec e.2).2

theorem listed_height (e : ChainCall × World A) : (listed e).height = number e.1.ctx.height := rfl

/-- Where its calls have their own results, the deposits that are listed of a transaction are those
that succeeded; by induction on the operations.
-/
theorem callsFrom_told {g : CallOp → OpResult} (wanted : "add_liquidity" ∈ actions)
    (read : ∀ c ∈ callsFrom t.id op call (ops.map ChainOp.kind),
      resultFor results t.id c.op c.call = if c.ours = true then some (g c) else none)
    (answers : ((callsFrom t.id op call (ops.map ChainOp.kind)).filter CallOp.ours).map g
      = (found w (t.callsAmong ops)).map fun e => ⟨(e.1.exec e.2).2.ok, (e.1.exec e.2).2.msg⟩)
    : ((t.row outputIds).callsFrom actions results op call (ops.map ChainOp.row)).filter isDeposit
      = ((found w (t.callsAmong ops)).filter Deposited).map listed := by
  induction ops generalizing op call w with
  | nil => rfl
  | cons o rest ih =>
      cases o with
      | call invocation =>
          have here := read ⟨t.id, op, call, true⟩ List.mem_cons_self
          rw [if_pos rfl] at here
          obtain ⟨first, answers⟩ := List.cons.inj answers
          have later := ih (fun c there => read c (List.mem_cons_of_mem _ there)) answers
          have same : (⟨t.id, number t.ctx.height, t.time, invocation.action, invocation.payload,
              (g ⟨t.id, op, call, true⟩).ok, (g ⟨t.id, op, call, true⟩).ret⟩ : AccountCall)
              = listed (⟨t.id, t.time, t.ctx, invocation⟩, w) := by
            rw [first]
            rfl
          rw [List.map_cons, ChainOp.row, Row.callsFrom, if_neg (by simp)]
          change List.filter isDeposit (if actions.contains invocation.action = true then _ else _)
            = List.map listed (List.filter (Deposited (A := A))
              ((⟨t.id, t.time, t.ctx, invocation⟩, w) :: found _ (t.callsAmong rest)))
          have shown : resultFor results (t.row outputIds).id op call
              = some (g ⟨t.id, op, call, true⟩) := here
          rw [shown, List.filter_cons (p := Deposited (A := A))]
          by_cases asked : actions.contains invocation.action = true
          · rw [if_pos asked]
            change List.filter isDeposit (AccountCall.mk t.id (number t.ctx.height) t.time
              invocation.action invocation.payload _ _ :: _) = _
            rw [Option.elim_some, Option.elim_some, same, List.filter_cons, later]
            cases made : Deposited (⟨t.id, t.time, t.ctx, invocation⟩, w) with
            | true => exact if_pos made
            | false => exact if_neg (by rw [Deposited] at made; simp [listed, made])
          · have other : invocation.action ≠ "add_liquidity" := by
              intro named
              rw [named] at asked
              exact asked (List.contains_iff_mem.mpr wanted)
            have failed : Deposited (⟨t.id, t.time, t.ctx, invocation⟩, w) = false :=
              Bool.and_eq_false_imp.mpr fun _ => beq_false_of_ne other
            rw [if_neg asked, failed, later]
            rfl
      | foreign action payload =>
          have here := read ⟨t.id, op, call, false⟩ List.mem_cons_self
          rw [if_neg (by simp)] at here
          have later := ih (fun c there => read c (List.mem_cons_of_mem _ there)) answers
          have shown : resultFor results (t.row outputIds).id op call = none := here
          rw [List.map_cons, ChainOp.row, Row.callsFrom, if_neg (by simp)]
          dsimp only
          rw [shown]
          split
          · exact later
          · exact later
      | other type uncalled =>
          rw [List.map_cons, ChainOp.row, Row.callsFrom, if_pos uncalled]
          exact ih read answers

/-- Where nothing is known of its calls, no deposit is listed of a transaction. -/
theorem callsFrom_untold
    (read : ∀ c ∈ callsFrom t.id op call (ops.map ChainOp.kind),
      resultFor results t.id c.op c.call = none)
    : ((t.row outputIds).callsFrom actions results op call (ops.map ChainOp.row)).filter isDeposit
      = [] := by
  induction ops generalizing op call with
  | nil => rfl
  | cons o rest ih =>
      have called (action : Option String) (payload : Option String) (ours : Bool)
          (here : resultFor results t.id op call = none)
          (later : ∀ c ∈ callsFrom t.id (op + 1) (call + 1) (rest.map ChainOp.kind),
            resultFor results t.id c.op c.call = none)
          : ((t.row outputIds).callsFrom actions results op call
              (⟨"call", action, payload⟩ :: rest.map ChainOp.row)).filter isDeposit = [] := by
        have shown : resultFor results (t.row outputIds).id op call = none := here
        rw [Row.callsFrom, if_neg (by simp)]
        dsimp only
        rw [shown]
        split
        · exact ih later
        · exact ih later
      cases o with
      | call invocation =>
          exact called _ _ true (read ⟨t.id, op, call, true⟩ List.mem_cons_self)
            fun c there => read c (List.mem_cons_of_mem _ there)
      | foreign action payload =>
          exact called _ _ false (read ⟨t.id, op, call, false⟩ List.mem_cons_self)
            fun c there => read c (List.mem_cons_of_mem _ there)
      | other type uncalled =>
          rw [List.map_cons, ChainOp.row, Row.callsFrom, if_pos uncalled]
          exact ih read

end Listing

-----------------------------------------------------------------------------------------
-- Deposits of a run
-----------------------------------------------------------------------------------------

section Runs

variable {w : World A} {c : ChainCall} {account : String}

theorem mem_found {calls : List ChainCall} {e : ChainCall × World A} (there : e ∈ found w calls)
    : ∃ before after, calls = before ++ e.1 :: after ∧ e.2 = afterCalls w before := by
  induction calls generalizing w with
  | nil => cases there
  | cons t rest ih =>
      rcases List.mem_cons.mp there with rfl | later
      · exact ⟨[], rest, rfl, rfl⟩
      · obtain ⟨before, after, rfl, same⟩ := ih later
        exact ⟨t :: before, after, rfl, same⟩

theorem found_append (w : World A) (calls rest : List ChainCall)
    : found w (calls ++ rest) = found w calls ++ found (afterCalls w calls) rest := by
  induction calls generalizing w with
  | nil => rfl
  | cons t calls ih => exact congrArg _ (ih _)

theorem mem_recorded {chain : List ChainTx} {e : ChainTx × World A} (there : e ∈ recorded w chain)
    : ∃ before after, chain = before ++ e.1 :: after
      ∧ e.2 = afterCalls w (before.flatMap ChainTx.calls) := by
  induction chain generalizing w with
  | nil => cases there
  | cons t rest ih =>
      rcases List.mem_cons.mp there with rfl | later
      · exact ⟨[], rest, rfl, rfl⟩
      · obtain ⟨before, after, rfl, same⟩ := ih later
        refine ⟨t :: before, after, rfl, ?_⟩
        rw [same, List.flatMap_cons, afterCalls_append]

theorem recorded_append (w : World A) (chain rest : List ChainTx)
    : recorded w (chain ++ rest)
      = recorded w chain ++ recorded (afterCalls w (chain.flatMap ChainTx.calls)) rest := by
  induction chain generalizing w with
  | nil => rfl
  | cons t chain ih =>
      rw [List.cons_append, recorded, ih, List.flatMap_cons, afterCalls_append]
      rfl

theorem recorded_txs (w : World A) (chain : List ChainTx)
    : (recorded w chain).map Prod.fst = chain := by
  induction chain generalizing w with
  | nil => rfl
  | cons t rest ih => exact congrArg _ (ih _)

/-- Only a call of the entrypoint is a deposit. -/
theorem deposit_invoked (made : Deposited (c, w) = true)
    : (c.exec w).2.ok = true ∧ ∃ payload, c.invocation = .entry .addLiquidity payload := by
  obtain ⟨succeeds, named⟩ := Bool.and_eq_true_iff.mp made
  refine ⟨succeeds, Invocation.of_name (e := .addLiquidity) (fun e' same => ?_) (beq_iff_eq.mp named)⟩
  cases e' <;> first | rfl | exact absurd same (by decide)

/-- A call takes a number for its sender if it is a deposit that succeeds, and none otherwise. -/
theorem exec_tranchesOf (c : ChainCall) (w : World A) (account : String)
    : tranchesOf (c.exec w).1.rows account
      = tranchesOf w.rows account
        + if Deposited (c, w) = true ∧ c.ctx.sender = account then 1 else 0 := by
  rcases Bool.eq_false_or_eq_true (c.exec w).2.ok with succeeds | fails
  · obtain ⟨action, asked, ran⟩ := ChainCall.exec_ok succeeds
    have left : (c.exec w).1 = (Request.exec ⟨c.ctx, action, true⟩ w).1 := by
      rw [c.exec_world, asked]
      rfl
    have success : (Request.exec ⟨c.ctx, action, true⟩ w).2.ok = true := by
      change (action.exec c.ctx w).2.ok = true
      rw [ran]
      exact succeeds
    rw [left]
    by_cases made : Deposited (c, w) = true
    · obtain ⟨-, payload, invoked⟩ := deposit_invoked made
      rw [ChainCall.requests_entry invoked] at asked
      cases reads : Entrypoint.addLiquidity.action c.ctx (parseArgs payload) with
      | error usage =>
          rw [reads] at asked
          cases asked
      | ok action' =>
          rw [reads] at asked
          obtain rfl : action' = action := congrArg Request.action (List.cons.inj asked).1
          rw [Entrypoint.action] at reads
          obtain ⟨lcIn, maxHbd, -, -, rfl⟩ := amounts_asked reads
          rw [Request.exec_deposit_tranchesOf rfl w success]
          simp only [made, true_and, eq_comm]
    · rw [if_neg fun both => made both.1, Nat.add_zero]
      refine Request.exec_tranchesOf (fun lcIn maxHbd same => made ?_) w account
      obtain rfl : action = .addLiquidity lcIn maxHbd := same
      refine Bool.and_eq_true_iff.mpr ⟨succeeds, beq_iff_eq.mpr ?_⟩
      cases invoked : c.invocation with
      | entry e payload =>
          rw [ChainCall.requests_entry invoked] at asked
          cases reads : e.action c.ctx (parseArgs payload) with
          | error usage =>
              rw [reads] at asked
              cases asked
          | ok action' =>
              rw [reads] at asked
              obtain rfl : action' = .addLiquidity lcIn maxHbd :=
                congrArg Request.action (List.cons.inj asked).1
              obtain rfl := deposit_of_entry reads
              rw [AccountCall.of, invoked]
              rfl
      | owners name payload action' owned =>
          rw [ChainCall.requests, invoked] at asked
          obtain rfl : action' = .addLiquidity lcIn maxHbd :=
            congrArg Request.action (List.cons.inj asked).1
          cases owned
  · have unmade : ¬(Deposited (c, w) = true ∧ c.ctx.sender = account) := fun both => by
      rw [(deposit_invoked both.1).1] at fails
      cases fails
    rw [ChainCall.exec_failed fails, if_neg unmade, Nat.add_zero]

/-- The deposits of an account are numbered as they are made, by induction on the calls. -/
theorem found_numbered {calls : List ChainCall} {k : ℕ} {e : ChainCall × World A}
    (at_k : ((found w calls).filter fun e => Deposited e && e.1.ctx.sender == account)[k]? = some e)
    : tranchesOf e.2.rows account = tranchesOf w.rows account + k := by
  induction calls generalizing w k with
  | nil => cases at_k
  | cons c rest ih =>
      have next := exec_tranchesOf c w account
      by_cases made : Deposited (c, w) = true ∧ c.ctx.sender = account
      · rw [found, List.filter_cons_of_pos (by simp [made.1, made.2])] at at_k
        rw [if_pos made] at next
        cases k with
        | zero =>
            obtain rfl := Option.some.inj at_k
            rfl
        | succ k =>
            have later := ih at_k
            omega
      · rw [found, List.filter_cons_of_neg (by simpa using made)] at at_k
        rw [if_neg made] at next
        have later := ih at_k
        omega

theorem ChainTx.calls_of {t : ChainTx} (there : c ∈ t.calls)
    : c.txId = t.id ∧ c.time = t.time ∧ c.ctx = t.ctx := by
  obtain ⟨o, -, made⟩ := List.mem_filterMap.mp there
  cases o with
  | call invocation =>
      obtain rfl := Option.some.inj made
      exact ⟨rfl, rfl, rfl⟩
  | foreign action payload => cases made
  | other type uncalled => cases made

/-- The deposits of an account's transactions are those among all calls, by induction on these. -/
theorem deposits_of_account (w : World A) (chain : List ChainTx) (account : String)
    : ((recorded w chain).filter (·.1.ctx.sender == account)).flatMap deposits
      = (found w (chain.flatMap ChainTx.calls)).filter
        fun e => Deposited e && e.1.ctx.sender == account := by
  induction chain generalizing w with
  | nil => rfl
  | cons t rest ih =>
      have sender (e : ChainCall × World A) (there : e ∈ found w t.calls)
          : e.1.ctx.sender = t.ctx.sender := by
        obtain ⟨before, after, split, -⟩ := mem_found there
        rw [(ChainTx.calls_of (split ▸ List.mem_append_right _ List.mem_cons_self)).2.2]
      rw [recorded, List.flatMap_cons, found_append, List.filter_append, ← ih]
      by_cases own : t.ctx.sender = account
      · rw [List.filter_cons_of_pos (by simpa using own), List.flatMap_cons, deposits]
        congr 1
        refine List.filter_congr fun e there => ?_
        rw [sender e there, own, beq_self_eq_true, Bool.and_true]
      · have none_own : (found w t.calls).filter
            (fun e => Deposited e && e.1.ctx.sender == account) = [] := by
          refine List.filter_eq_nil_iff.mpr fun e there => ?_
          rw [sender e there, beq_false_of_ne own, Bool.and_false]
          exact Bool.false_ne_true
        rw [List.filter_cons_of_neg (by simpa using own), none_own, List.nil_append]

end Runs

-----------------------------------------------------------------------------------------
-- Records
-----------------------------------------------------------------------------------------

/-- The transactions of an account, each with the world that it found. -/
def ownTxs (start : World A) (chain : List ChainTx) (account : String) : List (ChainTx × World A) :=
  (recorded start chain).filter (·.1.ctx.sender == account)

/-- (Records … ) says that a node answers what the chain has recorded of an account: it lists
the account's confirmed transactions in some order, a hundred at a time; it is through with a batch in
some order; and what it reads of this contract's outputs in one of them is nothing, or the results of
its calls in one of the shapes.
-/
structure Records (node : Node) (contractId account : String) (start : World A)
    (chain : List ChainTx) (served : List Row) (outputIds : String → List String)
    (shapeOf : String → Option Shape) (res : CallOp → RawResult) : Prop where
  ids : (chain.map ChainTx.id).Nodup
  plain : ∀ t ∈ chain, OpResults.Plain t.id
  heights : chain.Pairwise fun t t' => t.ctx.height ≤ t'.ctx.height
  pages : ∀ offset, node.page offset = (served.drop offset).take 100
  lists : (served.filter (·.status == "CONFIRMED")).Perm
    ((chain.filter (·.ctx.sender == account)).map (ChainTx.row outputIds))
  through : ∀ batch, (node.through batch).Perm batch
  outputs : ∀ t ∈ chain, t.ctx.sender = account
    → ((node.outputs (outputIds t.id)).filter (·.contractId == contractId)).map (·.output)
      = (shapeOf t.id).toList.map (Shape.output res)
  shapes : ∀ t ∈ chain, ∀ s, shapeOf t.id = some s → Reported t.tx s
  results : ∀ e ∈ recorded start chain, e.1.tx.own.map (fun c => (res c).clean)
    = (found e.2 e.1.calls).map fun c => ⟨(c.1.exec c.2).2.ok, (c.1.exec c.2).2.msg⟩

/-- (Readable shapeOf t) says that what is read of a transaction tells the results of its calls. -/
def Readable (shapeOf : String → Option Shape) (t : ChainTx) : Prop :=
  ∃ s, shapeOf t.id = some s ∧ Told s

/-- (Shown … t) says that a transaction is among the first two thousand that are listed, and is
readable.
-/
def Shown (served : List Row) (outputIds : String → List String) (shapeOf : String → Option Shape)
    (t : ChainTx) : Prop :=
  t.row outputIds ∈ served.take 2000 ∧ Readable shapeOf t

section Collecting

variable {node} {served : List Row}

/-- The pages are those of the first rows, by induction on the pages left. -/
theorem pages_eq (pages : ∀ offset, node.page offset = (served.drop offset).take 100) (left p : ℕ)
    : node.pages left p = (served.drop (p * 100)).take (left * 100) := by
  induction left generalizing p with
  | zero => rw [Node.pages, Nat.zero_mul, List.take_zero]
  | succ left ih =>
      have next : (left + 1) * 100 = 100 + left * 100 := by omega
      rw [Node.pages, ih, pages, next, List.take_add, List.drop_drop,
        show p * 100 + 100 = (p + 1) * 100 by omega]
      split
      · rename_i last
        have short : (served.drop ((p + 1) * 100)) = [] := by
          rw [List.length_take, List.length_drop] at last
          exact List.drop_eq_nil_of_le (by omega)
        rw [short, List.take_nil, List.append_nil]
      · rfl

theorem batches_flatten (rows : List Row) : (batches rows).flatten = rows := by
  fun_induction batches rows with
  | case1 a b c d rest ih => rw [List.flatten_cons, ih]; rfl
  | case2 => rfl
  | case3 rest => exact List.append_nil _

/-- Every relevant transaction is collected, once. -/
theorem collected_perm (through : ∀ batch, (node.through batch).Perm batch) (actions : List String)
    : (node.collected actions).Perm (node.relevant actions) := by
  have all (bs : List (List Row)) : (bs.flatMap node.through).Perm bs.flatten := by
    induction bs with
    | nil => exact .refl _
    | cons b rest ih => exact (through b).append ih
  exact (all _).trans (.of_eq (batches_flatten _))

/-- A list of images is the image of a list. -/
theorem exists_map {α β : Type} {f : α → β} {whole : List α} {images : List β}
    (among : ∀ b ∈ images, b ∈ whole.map f)
    : ∃ l : List α, l.map f = images ∧ ∀ a ∈ l, a ∈ whole := by
  induction images with
  | nil => exact ⟨[], rfl, fun _ => nofun⟩
  | cons b rest ih =>
      obtain ⟨l, rfl, inside⟩ := ih fun c there => among c (List.mem_cons_of_mem _ there)
      obtain ⟨a, there, rfl⟩ := List.mem_map.mp (among b List.mem_cons_self)
      refine ⟨a :: l, rfl, fun c among => ?_⟩
      rcases List.mem_cons.mp among with rfl | later
      · exact there
      · exact inside c later

end Collecting

section Listed

variable {node} {contractId} {actions} {account : String} {start : World A} {chain : List ChainTx}
  {served : List Row} {outputIds : String → List String} {shapeOf : String → Option Shape}
  {res : CallOp → RawResult}

/-- An account's transactions are the chain's. -/
theorem ownTxs_chain {e : ChainTx × World A} (own : e ∈ ownTxs start chain account)
    : e.1 ∈ chain ∧ e.1.ctx.sender = account ∧ e ∈ recorded start chain := by
  obtain ⟨there, sender⟩ := List.mem_filter.mp own
  exact ⟨recorded_txs start chain ▸ List.mem_map_of_mem there, beq_iff_eq.mp sender, there⟩

variable (h : Records node contractId account start chain served outputIds shapeOf res)

include h

theorem Records.nodup : ((ownTxs start chain account).map fun e => e.1.id).Nodup := by
  have ids := h.ids
  rw [← recorded_txs start chain, List.map_map] at ids
  exact ids.sublist (List.filter_sublist.map _)

theorem Records.unique {e e' : ChainTx × World A} (own : e ∈ ownTxs start chain account)
    (own' : e' ∈ ownTxs start chain account) (same : e.1.id = e'.1.id)
    : e = e' :=
  List.inj_on_of_nodup_map h.nodup own own' same

theorem Records.sorted
    : (ownTxs start chain account).Pairwise fun e e' =>
      number e.1.ctx.height ≤ number e'.1.ctx.height := by
  have heights := h.heights
  rw [← recorded_txs start chain, List.pairwise_map] at heights
  exact (heights.sublist List.filter_sublist).imp fun le => number_mono (Int.ofNat_le.mpr le)

/-- The node lists the account's transactions. -/
theorem Records.rows
    : (served.filter (·.status == "CONFIRMED")).Perm
      ((ownTxs start chain account).map fun e => e.1.row outputIds) := by
  refine h.lists.trans (.of_eq ?_)
  have txs : (ownTxs start chain account).map Prod.fst
      = chain.filter (·.ctx.sender == account) := by
    conv_rhs => rw [← recorded_txs start chain, List.filter_map]
    rfl
  rw [← txs, List.map_map]
  rfl

/-- What is listed of a transaction's deposits. -/
theorem Records.deposits_listed (wanted : "add_liquidity" ∈ actions) {e : ChainTx × World A}
    (own : e ∈ ownTxs start chain account)
    : (Readable shapeOf e.1
        → ((e.1.row outputIds).callsFrom actions (node.results contractId (e.1.row outputIds)) 0 0
            (e.1.row outputIds).ops).filter isDeposit
          = (deposits e).map listed)
      ∧ (¬Readable shapeOf e.1
        → ((e.1.row outputIds).callsFrom actions (node.results contractId (e.1.row outputIds)) 0 0
            (e.1.row outputIds).ops).filter isDeposit = []) := by
  obtain ⟨there, sender, ran⟩ := ownTxs_chain own
  have tx (c : CallOp) (call : c ∈ e.1.tx.calls) : c.tx = e.1.id := (Tx.calls_at call).1
  have known : node.results contractId (e.1.row outputIds)
      = resultsByOp ((shapeOf e.1.id).toList.map (Shape.output res)) fun _ => none := by
    rw [← h.outputs e.1 there sender]
    rfl
  rw [known]
  constructor
  · rintro ⟨s, shape, told⟩
    have reported := h.shapes e.1 there s shape
    rw [shape]
    refine callsFrom_told (g := fun c => (res c).clean) wanted (fun c call => ?_) (h.results e ran)
    have reading : readOf res s c = _ := (readOf_reported (h.plain e.1 there) reported call).1 told
    rw [← reading, readOf, tx c call]
    rfl
  · intro untold
    refine callsFrom_untold fun c call => ?_
    cases shape : shapeOf e.1.id with
    | none => rfl
    | some s =>
        have reported := h.shapes e.1 there s shape
        have reading : readOf res s c = none :=
          (readOf_reported (h.plain e.1 there) reported call).2 fun told => untold ⟨s, shape, told⟩
        rw [← reading, readOf, tx c call]
        rfl

/-- What is collected are transactions of the account, each once; those with deposits are there if
they are among the first that are listed.
-/
theorem Records.collects (wanted : "add_liquidity" ∈ actions)
    : ∃ txs : List (ChainTx × World A),
      txs.map (fun e => e.1.row outputIds) = node.collected actions ∧ txs.Nodup
      ∧ (∀ e ∈ txs, e ∈ ownTxs start chain account)
      ∧ ∀ e ∈ ownTxs start chain account, deposits e ≠ []
        → (e ∈ txs ↔ e.1.row outputIds ∈ served.take 2000) := by
  have pages : node.pages 20 0 = served.take 2000 := by
    rw [pages_eq h.pages, Nat.zero_mul, List.drop_zero]
  have all := collected_perm h.through actions
  have part : (node.relevant actions).Sublist (served.filter (·.status == "CONFIRMED")) := by
    rw [Node.relevant, pages, ← List.filter_filter]
    exact (List.filter_sublist.trans (List.take_sublist _ _)).filter _
  have once : (node.collected actions).Nodup := by
    refine all.nodup_iff.mpr (part.nodup (h.rows.nodup_iff.mpr ?_))
    refine List.Nodup.of_map Row.id ?_
    rw [List.map_map]
    exact h.nodup
  obtain ⟨txs, rows, own⟩ := exists_map (f := fun e : ChainTx × World A => e.1.row outputIds)
    fun r there => h.rows.mem_iff.mp (part.subset (all.mem_iff.mp there))
  refine ⟨txs, rows, .of_map _ (rows ▸ once), own, fun e there some_made => ?_⟩
  have listed : e ∈ txs ↔ e.1.row outputIds ∈ node.collected actions := by
    refine ⟨fun among => rows ▸ List.mem_map_of_mem among, fun among => ?_⟩
    obtain ⟨e', among', same⟩ := List.mem_map.mp (rows.symm ▸ among)
    exact h.unique (own e' among') there (congrArg Row.id same) ▸ among'
  rw [listed, all.mem_iff, Node.relevant, pages, List.mem_filter]
  refine and_iff_left ?_
  obtain ⟨⟨c, w⟩, made⟩ := List.exists_mem_of_ne_nil _ some_made
  obtain ⟨called, deposited⟩ := List.mem_filter.mp made
  obtain ⟨before, after, split, -⟩ := mem_found called
  obtain ⟨o, asked, call⟩ := List.mem_filterMap.mp
    (split ▸ List.mem_append_right _ List.mem_cons_self : c ∈ e.1.calls)
  cases o with
  | call invocation =>
      obtain rfl := Option.some.inj call
      have named : invocation.action = "add_liquidity" :=
        beq_iff_eq.mp (Bool.and_eq_true_iff.mp deposited).2
      refine Bool.and_eq_true_iff.mpr ⟨rfl, List.any_eq_true.mpr ⟨_, List.mem_map_of_mem asked, ?_⟩⟩
      have member : invocation.action ∈ actions := by
        rw [named]
        exact wanted
      exact List.contains_iff_mem.mpr member
  | foreign action payload => cases call
  | other type uncalled => cases call

end Listed

-----------------------------------------------------------------------------------------
-- The deposit of a tranche
-----------------------------------------------------------------------------------------

/-- (Runs start chain t c w) says that the chain runs a call, of this transaction, in this world. -/
def Runs (start : World A) (chain : List ChainTx) (t : ChainTx) (c : ChainCall) (w : World A) : Prop :=
  ∃ before after first last, chain = before ++ t :: after ∧ t.calls = first ++ c :: last
    ∧ w = afterCalls start (before.flatMap ChainTx.calls ++ first)

/-- (Opens account id c w lc hbd) says that a call is a deposit of these amounts that succeeds, and
that it is given this number.
-/
structure Opens (account : String) (id : ℕ) (c : ChainCall) (w : World A) (lc hbd : Int) : Prop where
  sender : c.ctx.sender = account
  asked : ∃ payload maxHbd, c.invocation = .entry .addLiquidity payload
    ∧ (parseArgs payload).amount 0 = some lc ∧ (parseArgs payload).amount 1 = some maxHbd
    ∧ hbdForDeposit w.rows lc maxHbd = .ok hbd
  succeeds : (c.exec w).2.ok = true
  number : id = tranchesOf w.rows account + 1

/-- (NamesOwn start chain account id story) says that a story names no deposit, or the one that
opened the tranche, with its amounts.
-/
def NamesOwn (start : World A) (chain : List ChainTx) (account : String) (id : ℕ)
    (story : TrancheStory) : Prop :=
  (story.depositTxId = none ∧ story.depositHeight = none ∧ story.depositTime = none
      ∧ story.depositLc = none ∧ story.depositHbd = none)
    ∨ ∃ t c w lc hbd, Runs start chain t c w ∧ Opens account id c w lc hbd
      ∧ story.depositTxId = some t.id ∧ story.depositHeight = some (number t.ctx.height)
      ∧ story.depositTime = some t.time ∧ story.depositLc = some (fromUnits lc)
      ∧ story.depositHbd = some (fromUnits hbd)

/-- Both amounts of a deposit are read back. -/
theorem parseLiquidity_added {lc hbd : Int} (lc_nonneg : 0 ≤ lc) (hbd_nonneg : 0 ≤ hbd)
    : parseLiquidity ("added " ++ encI64 lc ++ " LASSECASH and " ++ encI64 hbd ++ " HBD")
      = some (lc.toNat, hbd.toNat) := by
  have first := leadingNumber_written lc.toNat
    (" LASSECASH and ".toList ++ (hbd.toNat.repr.toList ++ " HBD".toList)) (by
      rintro c ⟨⟩
      rfl)
  have second := leadingNumber_written hbd.toNat " HBD".toList (by
    rintro c ⟨⟩
    rfl)
  have ends : following " HBD" " HBD".toList = some [] := following_written " HBD" []
  have whole : ("added " ++ encI64 lc ++ " LASSECASH and " ++ encI64 hbd ++ " HBD").toList
      = "added ".toList ++ (lc.toNat.repr.toList ++ (" LASSECASH and ".toList
        ++ (hbd.toNat.repr.toList ++ " HBD".toList))) := by
    rw [encI64_of_nonneg lc_nonneg, encI64_of_nonneg hbd_nonneg]
    simp only [String.toList_append, List.append_assoc]
  rw [parseLiquidity, whole, following_written]
  simp only [Option.some_or, Option.bind_eq_bind, Option.bind_some, first, following_written, second,
    ends, Option.map_some]

section Naming

variable {start : World A} {chain : List ChainTx} {account : String}

/-- A deposit opens the next tranche of its sender, and its amounts are read. -/
theorem deposit_opens (draws : DrawsPositive A) {e : ChainTx × World A}
    (own : e ∈ ownTxs start chain account) {d : ChainCall × World A} (made : d ∈ deposits e)
    : ∃ lc hbd, Runs start chain e.1 d.1 d.2
      ∧ Opens account (tranchesOf d.2.rows account + 1) d.1 d.2 lc hbd
      ∧ parseLiquidity (listed d).ret = some (lc.toNat, hbd.toNat) ∧ 0 ≤ lc ∧ 0 ≤ hbd := by
  obtain ⟨c, w⟩ := d
  obtain ⟨there, sender⟩ := List.mem_filter.mp own
  obtain ⟨called, deposited⟩ := List.mem_filter.mp made
  obtain ⟨before, after, split, world⟩ := mem_recorded there
  obtain ⟨first, last, calls, world'⟩ := mem_found called
  obtain ⟨succeeds, payload, invoked⟩ := deposit_invoked deposited
  obtain ⟨lc, maxHbd, hbd, read, read', positive, -, priced, -, msg⟩ := deposit_moves invoked succeeds
  have ctx := (ChainTx.calls_of (calls ▸ List.mem_append_right _ List.mem_cons_self
    : c ∈ e.1.calls)).2.2
  have drawn : 0 < hbd := by
    obtain ⟨action, asked, ran⟩ := ChainCall.exec_ok succeeds
    rw [ChainCall.requests_entry invoked] at asked
    cases reads : Entrypoint.addLiquidity.action c.ctx (parseArgs payload) with
    | error usage =>
        rw [reads] at asked
        cases asked
    | ok action' =>
        rw [reads] at asked
        obtain rfl : action' = action := congrArg Request.action (List.cons.inj asked).1
        rw [Entrypoint.action] at reads
        obtain ⟨lc', maxHbd', same, same', rfl⟩ := amounts_asked reads
        obtain rfl := Option.some.inj (read.symm.trans same)
        obtain rfl := Option.some.inj (read'.symm.trans same')
        refine Request.exec_drawn (q := ⟨c.ctx, .addLiquidity (.ofInt lc) (.ofInt maxHbd), true⟩)
          draws rfl ?_ (by rw [amount_toInt read, amount_toInt read']; exact priced)
        change ((Action.addLiquidity (.ofInt lc) (.ofInt maxHbd)).exec c.ctx w).2.ok = true
        rw [ran]
        exact succeeds
  refine ⟨lc, hbd, ⟨before, after, first, last, split, calls, ?_⟩, ⟨?_, ?_, succeeds, rfl⟩, ?_,
    positive.le, drawn.le⟩
  · rw [afterCalls_append, ← world]
    exact world'
  · rw [ctx]
    exact beq_iff_eq.mp sender
  · exact ⟨payload, maxHbd, invoked, read, read', priced⟩
  · change parseLiquidity (c.exec w).2.msg = _
    rw [msg]
    exact parseLiquidity_added positive.le drawn.le

/-- The deposits of some transactions, each with its own. -/
def paired (txs : List (ChainTx × World A)) : List ((ChainTx × World A) × (ChainCall × World A)) :=
  txs.flatMap fun e => (deposits e).map (Prod.mk e)

theorem mem_paired {txs : List (ChainTx × World A)} {p} (there : p ∈ paired txs)
    : p.1 ∈ txs ∧ p.2 ∈ deposits p.1 := by
  obtain ⟨e, among, image⟩ := List.mem_flatMap.mp there
  obtain ⟨d, made, rfl⟩ := List.mem_map.mp image
  exact ⟨among, made⟩

theorem paired_cons (e : ChainTx × World A) (txs : List (ChainTx × World A))
    : paired (e :: txs) = (deposits e).map (Prod.mk e) ++ paired txs :=
  rfl

theorem paired_append (txs txs' : List (ChainTx × World A))
    : paired (txs ++ txs') = paired txs ++ paired txs' :=
  List.flatMap_append

theorem paired_deposits (txs : List (ChainTx × World A))
    : (paired txs).map Prod.snd = txs.flatMap deposits := by
  rw [paired, List.map_flatMap]
  exact congrArg txs.flatMap (funext fun e => by simp)

/-- A deposit's place among all that the account has made is its number. -/
theorem paired_numbered (fresh : tranchesOf start.rows account = 0) {k : ℕ} {p}
    (at_k : (paired (ownTxs start chain account))[k]? = some p)
    : tranchesOf p.2.2.rows account = k := by
  have second : ((ownTxs start chain account).flatMap deposits)[k]? = some p.2 := by
    rw [← paired_deposits, List.getElem?_map, at_k]
    rfl
  rw [ownTxs, deposits_of_account] at second
  rw [found_numbered second, fresh, Nat.zero_add]

/-- The call that opened a tranche stands in its place. -/
theorem opens_place (fresh : tranchesOf start.rows account = 0) {t : ChainTx} {c : ChainCall}
    {w : World A} {lc hbd : Int} {n : ℕ} (runs : Runs start chain t c w)
    (opens : Opens account (n + 1) c w lc hbd)
    : ∃ p, (paired (ownTxs start chain account))[n]? = some p ∧ p.1.1.id = t.id := by
  obtain ⟨before, after, first, last, rfl, calls, world⟩ := runs
  obtain ⟨payload, maxHbd, invoked, -⟩ := opens.asked
  have ctx := (ChainTx.calls_of (calls ▸ List.mem_append_right _ List.mem_cons_self
    : c ∈ t.calls)).2.2
  have deposited : Deposited (c, w) = true := by
    refine Bool.and_eq_true_iff.mpr ⟨opens.succeeds, beq_iff_eq.mpr ?_⟩
    rw [AccountCall.of, invoked]
    rfl
  have own : (t, afterCalls start (before.flatMap ChainTx.calls))
      ∈ ownTxs start (before ++ t :: after) account := by
    refine List.mem_filter.mpr ⟨?_, beq_iff_eq.mpr (ctx ▸ opens.sender)⟩
    rw [recorded_append]
    exact List.mem_append_right _ List.mem_cons_self
  have made : (c, w) ∈ deposits (t, afterCalls start (before.flatMap ChainTx.calls)) := by
    refine List.mem_filter.mpr ⟨?_, deposited⟩
    rw [calls, found_append, world, afterCalls_append]
    exact List.mem_append_right _ List.mem_cons_self
  obtain ⟨k, at_k⟩ := List.mem_iff_getElem?.mp
    (List.mem_flatMap.mpr ⟨_, own, List.mem_map_of_mem made⟩
      : ((t, afterCalls start (before.flatMap ChainTx.calls)), (c, w))
        ∈ paired (ownTxs start (before ++ t :: after) account))
  have number := paired_numbered fresh at_k
  have same : k = n := by
    have := opens.number
    dsimp only at number
    omega
  exact ⟨_, same ▸ at_k, rfl⟩

end Naming

-----------------------------------------------------------------------------------------
-- Which histories name the right deposits
-----------------------------------------------------------------------------------------

section Histories

variable {node} {contractId} {actions} {account : String} {start : World A} {chain : List ChainTx}
  {served : List Row} {outputIds : String → List String} {shapeOf : String → Option Shape}
  {res : CallOp → RawResult}

/-- The height of a transaction in a run, as it is read. -/
def heightOf (e : ChainTx × World A) : ℤ := number e.1.ctx.height

/-- (Counts shapeOf e) says that a transaction has deposits and tells them. -/
def Counts (shapeOf : String → Option Shape) (e : ChainTx × World A) : Prop :=
  Readable shapeOf e.1 ∧ deposits e ≠ []

open Classical in
/-- The deposits that are counted: those of readable transactions among the collected, by height. -/
theorem Records.counted
    (h : Records node contractId account start chain served outputIds shapeOf res)
    (wanted : "add_liquidity" ∈ actions) {txs : List (ChainTx × World A)}
    (collected : txs.map (fun e => e.1.row outputIds) = node.collected actions)
    (own : ∀ e ∈ txs, e ∈ ownTxs start chain account)
    : (byKey AccountCall.height (node.accountCalls contractId actions)).filter isDeposit
      = (paired (byKey heightOf
          (txs.filter fun e => decide (Counts shapeOf e)))).map
        fun p => listed p.2 := by
  let parts (e : ChainTx × World A) : List AccountCall :=
    if Counts shapeOf e then (deposits e).map listed else []
  have rows : ((node.collected actions).flatMap fun r =>
      r.callsFrom actions (node.results contractId r) 0 0 r.ops).filter isDeposit
      = txs.flatMap parts := by
    rw [List.filter_flatMap, ← collected, List.flatMap_map]
    refine List.flatMap_congr fun e among => ?_
    obtain ⟨told, untold⟩ := h.deposits_listed wanted (own e among)
    by_cases readable : Readable shapeOf e.1
    · rw [told readable]
      by_cases nothing : deposits e = []
      · rw [nothing, List.map_nil]
        exact (if_neg fun both => both.2 nothing).symm
      · exact (if_pos ⟨readable, nothing⟩).symm
    · rw [untold readable]
      exact (if_neg fun both => readable both.1).symm
  have alike (e : ChainTx × World A) (c : AccountCall) (part : c ∈ parts e)
      : c.height = heightOf e := by
    by_cases counts : Counts shapeOf e
    · rw [show parts e = _ from if_pos counts] at part
      obtain ⟨d, made, rfl⟩ := List.mem_map.mp part
      obtain ⟨before, after, split, -⟩ := mem_found (List.mem_filter.mp made).1
      have ctx := (ChainTx.calls_of (split ▸ List.mem_append_right _ List.mem_cons_self
        : d.1 ∈ e.1.calls)).2.2
      rw [listed_height, ctx, heightOf]
    · rw [show parts e = [] from if_neg counts] at part
      cases part
  have kept (l : List (ChainTx × World A))
      : l.flatMap parts
        = (paired (l.filter fun e => decide (Counts shapeOf e))).map fun p => listed p.2 := by
    induction l with
    | nil => rfl
    | cons e rest ih =>
        rw [List.flatMap_cons, ih]
        by_cases counts : Counts shapeOf e
        · rw [List.filter_cons, if_pos (decide_eq_true counts), paired_cons, List.map_append,
            List.map_map, show parts e = _ from if_pos counts]
          rfl
        · rw [List.filter_cons, if_neg (by simpa using counts), show parts e = [] from if_neg counts,
            List.nil_append]
  rw [Node.accountCalls, byKey_of_sorted (byKey_sorted _ _), byKey_filter, rows,
    byKey_flatMap alike, kept, byKey_filter]

/-- What a story names, out of the deposit that it counts. -/
theorem trancheStory_names (id : ℕ) (calls : List AccountCall)
    : (depositOf id calls = none
        → (trancheStory id calls).depositTxId = none ∧ (trancheStory id calls).depositHeight = none
          ∧ (trancheStory id calls).depositTime = none ∧ (trancheStory id calls).depositLc = none
          ∧ (trancheStory id calls).depositHbd = none)
      ∧ ∀ c amounts, depositOf id calls = some c → parseLiquidity c.ret = some amounts
        → (trancheStory id calls).depositTxId = some c.txId
          ∧ (trancheStory id calls).depositHeight = some c.height
          ∧ (trancheStory id calls).depositTime = some c.time
          ∧ (trancheStory id calls).depositLc = some (fromUnits amounts.1)
          ∧ (trancheStory id calls).depositHbd = some (fromUnits amounts.2) := by
  constructor
  · intro uncounted
    simp [trancheStory, uncounted]
  · intro c amounts counted read
    simp [trancheStory, counted, read]

/-- Counting in the order of the run names the right deposits, and only that does. -/
theorem namesOwn_iff (draws : DrawsPositive A) (fresh : tranchesOf start.rows account = 0)
    (nodup : ((ownTxs start chain account).map fun e => e.1.id).Nodup) {calls : List AccountCall}
    {counted : List (ChainTx × World A)}
    (own : ∀ e ∈ counted, e ∈ ownTxs start chain account) (made : ∀ e ∈ counted, deposits e ≠ [])
    (listing : (byKey AccountCall.height calls).filter isDeposit
      = (paired counted).map fun p => listed p.2)
    : (∀ id, NamesOwn start chain account id (trancheStory id calls))
      ↔ counted <+: (ownTxs start chain account).filter fun e => !(deposits e).isEmpty := by
  have dropped : paired ((ownTxs start chain account).filter fun e => !(deposits e).isEmpty)
      = paired (ownTxs start chain account) := by
    induction ownTxs start chain account with
    | nil => rfl
    | cons e rest ih =>
        by_cases nothing : deposits e = []
        · rw [List.filter_cons_of_neg (by simp [nothing]), ih, paired_cons, nothing]
          rfl
        · rw [List.filter_cons_of_pos (by simpa using nothing), paired_cons, paired_cons, ih]
  have chosen (n : ℕ) : depositOf (n + 1) calls = (paired counted)[n]?.map fun p => listed p.2 := by
    rw [depositOf, listing, List.getElem?_map]
  constructor
  · intro names
    refine prefix_of_replicate (n := fun e => (deposits e).length) ?_ ?_ ?_
    · exact fun e among => List.length_pos_iff.mpr (made e among)
    · intro e among
      simpa [List.length_pos_iff] using (List.mem_filter.mp among).2
    have first (l : List (ChainTx × World A))
        : (l.flatMap fun e => List.replicate (deposits e).length e) = (paired l).map Prod.fst := by
      rw [paired, List.map_flatMap]
      refine List.flatMap_congr fun e _ => ?_
      rw [List.map_map]
      exact List.map_const'.symm
    rw [first, first, dropped]
    refine List.prefix_iff_getElem?.mpr fun n short => ?_
    rw [List.length_map] at short
    have at_n := List.getElem?_eq_getElem short
    have picked := (chosen n).trans (congrArg _ at_n)
    obtain ⟨among, deposited⟩ := mem_paired (List.getElem_mem short)
    obtain ⟨lc, hbd, -, -, read, -, -⟩ := deposit_opens draws (own _ among) deposited
    obtain ⟨tx, -⟩ := (trancheStory_names (n + 1) calls).2 _ _ picked read
    rcases names (n + 1) with none_named | ⟨t, c, w, lc', hbd', runs, opens, tx', -⟩
    · rw [tx] at none_named
      cases none_named.1
    · obtain ⟨p, at_p, same⟩ := opens_place fresh runs opens
      have there : p.1 ∈ ownTxs start chain account :=
        (mem_paired (List.mem_of_getElem? at_p)).1
      obtain ⟨-, call⟩ := mem_paired (List.getElem_mem short)
      obtain ⟨before, after, split, -⟩ := mem_found (List.mem_filter.mp call).1
      have id := (ChainTx.calls_of (split ▸ List.mem_append_right _ List.mem_cons_self)).1
      have alike : p.1.1.id = (paired counted)[n].1.1.id := by
        rw [same, ← id]
        exact Option.some.inj (tx'.symm.trans tx)
      rw [List.getElem?_map, at_p, Option.map_some, List.getElem_map]
      exact congrArg some (List.inj_on_of_nodup_map nodup there (own _ among) alike)
  · rintro ⟨rest, whole⟩ id
    cases id with
    | zero => exact .inl ((trancheStory_names 0 calls).1 rfl)
    | succ n =>
        cases at_n : (paired counted)[n]? with
        | none =>
            refine .inl ((trancheStory_names (n + 1) calls).1 ?_)
            rw [chosen, at_n]
            rfl
        | some p =>
            obtain ⟨among, deposited⟩ := mem_paired (List.mem_of_getElem? at_n)
            have picked := (chosen n).trans (congrArg _ at_n)
            obtain ⟨lc, hbd, runs, opens, read, lc_nonneg, hbd_nonneg⟩ :=
              deposit_opens draws (own _ among) deposited
            obtain ⟨tx, height, time, lcText, hbdText⟩ :=
              (trancheStory_names (n + 1) calls).2 _ _ picked read
            have place : (paired (ownTxs start chain account))[n]? = some p := by
              rw [← dropped, ← whole, paired_append,
                List.getElem?_append_left (List.getElem?_eq_some_iff.mp at_n).1]
              exact at_n
            rw [paired_numbered fresh place] at opens
            obtain ⟨before, after, split, -⟩ := mem_found (List.mem_filter.mp deposited).1
            obtain ⟨id, clock, ctx⟩ := ChainTx.calls_of
              (split ▸ List.mem_append_right _ List.mem_cons_self : p.2.1 ∈ p.1.1.calls)
            refine .inr ⟨p.1.1, p.2.1, p.2.2, lc, hbd, runs, opens, ?_, ?_, ?_, ?_, ?_⟩
            · rw [tx, ← id]
              rfl
            · rw [height, ← ctx]
              rfl
            · rw [time, ← clock]
              rfl
            · rw [lcText]
              dsimp only
              rw [Int.toNat_of_nonneg lc_nonneg]
            · rw [hbdText]
              dsimp only
              rw [Int.toNat_of_nonneg hbd_nonneg]

/-- The calls that make up a position's history. -/
def positionActions : List String :=
  ["mint", "claim_mint", "claim_migration", "add_liquidity", "remove_liquidity", "claim_pool"]

/-- Every story names its own deposit or none, exactly if each transaction with a deposit that ran
before one that is shown is shown itself, and is through first where both heights are one Number.
-/
theorem deposits_named_iff {store : Store} {assets : A} {genesis : UInt64}
    (draws : DrawsPositive A) (fresh : store.rows = .empty)
    {node : Node} {contractId account : String} {chain : List ChainTx} {served : List Row}
    {outputIds : String → List String} {shapeOf : String → Option Shape} {res : CallOp → RawResult}
    (records : Records node contractId account (initialised store assets genesis) chain served
      outputIds shapeOf res)
    : (∀ id, NamesOwn (initialised store assets genesis) chain account id
        (trancheStory id (node.accountCalls contractId positionActions)))
      ↔ ∀ e e', [e, e'].Sublist (ownTxs (initialised store assets genesis) chain account)
          → deposits e ≠ [] → deposits e' ≠ [] → Shown served outputIds shapeOf e'.1
          → Shown served outputIds shapeOf e.1
            ∧ (number e.1.ctx.height = number e'.1.ctx.height
              → [e.1.row outputIds, e'.1.row outputIds].Sublist (node.collected positionActions)) := by
  classical
  have none_yet : tranchesOf (initialised store assets genesis).rows account = 0 :=
    (initialised_touches store assets genesis fresh).tranchesOf account rfl
  generalize initialised store assets genesis = start at records none_yet ⊢
  have wanted : "add_liquidity" ∈ positionActions := by decide
  obtain ⟨txs, collected, once, own, listed⟩ := records.collects wanted
  have listing := records.counted wanted collected own
  let whole := (ownTxs start chain account).filter fun e => !(deposits e).isEmpty
  let part := txs.filter fun e => decide (Counts shapeOf e)
  have among (e : ChainTx × World A) (there : e ∈ part) : e ∈ txs ∧ Counts shapeOf e := by
    obtain ⟨inside, counts⟩ := List.mem_filter.mp there
    exact ⟨inside, of_decide_eq_true counts⟩
  have shown {e : ChainTx × World A} (there : e ∈ ownTxs start chain account)
      (made : deposits e ≠ []) : e ∈ part ↔ Shown served outputIds shapeOf e.1 := by
    rw [Shown, ← listed e there made]
    refine ⟨fun inside => ⟨(among e inside).1, (among e inside).2.1⟩, fun both => ?_⟩
    exact List.mem_filter.mpr ⟨both.1, decide_eq_true ⟨both.2, made⟩⟩
  have inside (e : ChainTx × World A) (there : e ∈ part) : e ∈ whole :=
    List.mem_filter.mpr ⟨own e (among e there).1, by simpa using (among e there).2.2⟩
  have sorted : whole.Pairwise fun e e' => heightOf e ≤ heightOf e' :=
    records.sorted.sublist List.filter_sublist
  have nodup : whole.Nodup := (List.Nodup.of_map _ records.nodup).filter _
  have counted_own (e : ChainTx × World A) (there : e ∈ byKey heightOf part)
      : e ∈ ownTxs start chain account ∧ deposits e ≠ [] := by
    have there' := (byKey_perm heightOf part).mem_iff.mp there
    exact ⟨own e (among e there').1, (among e there').2.2⟩
  rw [namesOwn_iff draws none_yet records.nodup (fun e there => (counted_own e there).1)
    (fun e there => (counted_own e there).2) listing,
    byKey_prefix_iff sorted nodup (once.filter _) inside]
  have pair {e e' : ChainTx × World A}
      : [e, e'].Sublist whole ↔ [e, e'].Sublist (ownTxs start chain account)
        ∧ deposits e ≠ [] ∧ deposits e' ≠ [] := by
    rw [pair_sublist_filter]
    simp
  have through {e e' : ChainTx × World A} (there : e ∈ part) (there' : e' ∈ part)
      : [e, e'].Sublist part
        ↔ [e.1.row outputIds, e'.1.row outputIds].Sublist (node.collected positionActions) := by
    have apart {d : ChainTx × World A} (known : d ∈ txs) (c : ChainTx × World A) (here : c ∈ txs)
        (same : c.1.row outputIds = d.1.row outputIds) : c = d :=
      records.unique (own c here) (own d known) (congrArg Row.id same)
    have rows := pair_sublist_map (f := fun e => e.1.row outputIds) fun c here =>
      ⟨apart (among e there).1 c here, apart (among e' there').1 c here⟩
    rw [← collected, rows, pair_sublist_filter]
    simp [(among e there).2, (among e' there').2]
  constructor
  · intro closed e e' before made made' shown'
    have here := before.subset List.mem_cons_self
    have there := before.subset (List.mem_cons_of_mem _ List.mem_cons_self)
    have part' := (shown there made').mpr shown'
    obtain ⟨part, order⟩ := closed e e' (pair.mpr ⟨before, made, made'⟩) part'
    exact ⟨(shown here made).mp part, fun same => (through part part').mp (order same)⟩
  · intro closed e e' before part'
    obtain ⟨before, made, made'⟩ := pair.mp before
    have here := before.subset List.mem_cons_self
    have there := before.subset (List.mem_cons_of_mem _ List.mem_cons_self)
    obtain ⟨shown', order⟩ := closed e e' before made made' ((shown there made').mp part')
    have part := (shown here made).mpr shown'
    exact ⟨part, fun same => (through part part').mpr (order same)⟩

end Histories

-----------------------------------------------------------------------------------------
-- Two deposits at one height
-----------------------------------------------------------------------------------------

def carolTx (id payload : String) : ChainTx where
  id := id
  time := "2026-08-20T13:02:24"
  ctx := .of "hive:carol" 2000 1
  ops := [.foreign "increaseAllowance" "core", .call (.entry .addLiquidity payload)]

/-- Carol makes two deposits at one height. -/
def carolChain : List ChainTx :=
  [⟨"f0", "2026-08-20T13:02:24", carolFunded.ctx, [.call carolFunded.invocation]⟩,
    carolTx "d1" "1000000000|500000000", carolTx "d2" "2000000000|1000000000"]

def carolShape (id : String) : Option Shape :=
  (carolChain.find? (·.id == id)).map fun t => .named t.tx.own

def carolResult (c : CallOp) : RawResult :=
  ⟨true, if c.tx = "d1" then some "added 1000000000 LASSECASH and 500000000 HBD"
    else if c.tx = "d2" then some "added 2000000000 LASSECASH and 1000000000 HBD"
    else some "migrated"⟩

def carolServed : List Row :=
  [(carolTx "d2" "2000000000|1000000000").row ([·]), (carolTx "d1" "1000000000|500000000").row ([·])]

/-- A node that lists the newest first. -/
def carolNode (through : List Row → List Row) : Node where
  page offset := (carolServed.drop offset).take 100
  findContractOutput id :=
    some ((carolShape id).toList.map fun s => ⟨"core", s.output carolResult⟩)
  through := through

/-- Whatever the order in which outputs are through, the node answers what the chain has recorded. -/
theorem carol_records {through : List Row → List Row}
    (perm : ∀ batch, (through batch).Perm batch)
    : Records (carolNode through) "core" "hive:carol" carolStart carolChain carolServed ([·])
      carolShape carolResult where
  ids := by decide
  plain t there := by
    have known : t.id ∈ carolChain.map ChainTx.id := List.mem_map_of_mem there
    generalize t.id = id at known
    simp only [carolChain, carolTx, List.map_cons, List.map_nil, List.mem_cons, List.not_mem_nil,
      or_false] at known
    rcases known with rfl | rfl | rfl
    all_goals exact ⟨by decide, by decide⟩
  heights := by decide
  pages _ := rfl
  lists := .swap _ _ []
  through := perm
  outputs t there _ := by
    cases shape : carolShape t.id with
    | none => simp [Node.outputs, carolNode, shape]
    | some s => simp [Node.outputs, carolNode, shape]
  shapes t there s shape := by
    obtain ⟨t', found, rfl⟩ := Option.map_eq_some_iff.mp shape
    have same := beq_iff_eq.mp (List.find?_some (p := fun x : ChainTx => x.id == t.id) found)
    have ids : (carolChain.map ChainTx.id).Nodup := by decide
    rw [List.inj_on_of_nodup_map ids (List.mem_of_find?_eq_some found) there same]
    rfl
  results := by
    have all : (recorded carolStart carolChain).all (fun e =>
        decide (e.1.tx.own.map (fun c => (carolResult c).clean)
          = (found e.2 e.1.calls).map fun c => ⟨(c.1.exec c.2).2.ok, (c.1.exec c.2).2.msg⟩)) = true := by
      decide +kernel
    exact fun e there => of_decide_eq_true (List.all_eq_true.mp all e there)

/-- Where the older transaction is through first, both stories name their own deposits. -/
theorem carol_deposits_named
    : NamesOwn carolStart carolChain "hive:carol" 1
        (trancheStory 1 ((carolNode List.reverse).accountCalls "core" positionActions))
      ∧ NamesOwn carolStart carolChain "hive:carol" 2
        (trancheStory 2 ((carolNode List.reverse).accountCalls "core" positionActions)) := by
  have records := carol_records fun batch => batch.reverse_perm
  refine (fun named => ⟨named 1, named 2⟩) ((@deposits_named_iff MemAssets _ .newMem .new 1000
    memAssets_drawsPositive rfl _ _ _ _ _ _ _ _ records).mpr ?_)
  have ran : ownTxs carolStart carolChain "hive:carol"
      = [(carolTx "d1" "1000000000|500000000", afterCalls carolStart [carolFunded]),
        (carolTx "d2" "2000000000|1000000000", afterCalls carolStart [carolFunded,
          ⟨"d1", "2026-08-20T13:02:24", { sender := "hive:carol", height := 2000, epoch := 1 },
            .entry .addLiquidity "1000000000|500000000"⟩])] := rfl
  intro e e' before made made' shown'
  change [e, e'].Sublist (ownTxs carolStart carolChain "hive:carol") at before
  rw [ran] at before
  obtain ⟨rfl, rest⟩ := List.cons.inj (before.eq_of_length rfl)
  obtain ⟨rfl, -⟩ := List.cons.inj rest
  refine ⟨⟨List.mem_cons_of_mem _ List.mem_cons_self, _, rfl, trivial⟩, fun _ => ?_⟩
  exact .refl _

/-- Otherwise the story of the first tranche names the deposit of the second. -/
theorem later_deposit_named
    : ¬∀ (node : Node) (chain : List ChainTx) (served : List Row) (outputIds : String → List String)
        (shapeOf : String → Option Shape) (res : CallOp → RawResult),
      Records node "core" "hive:carol" carolStart chain served outputIds shapeOf res
      → ∀ id, NamesOwn carolStart chain "hive:carol" id
          (trancheStory id (node.accountCalls "core" positionActions)) := by
  intro names
  have unsorted : byKey AccountCall.height ((carolNode id).accountCalls "core" positionActions)
      = ((carolNode id).collected positionActions).flatMap fun r =>
          r.callsFrom positionActions ((carolNode id).results "core" r) 0 0 r.ops := by
    rw [Node.accountCalls, byKey_of_sorted (byKey_sorted _ _), byKey_of_sorted (by decide +kernel)]
  have wrong : (trancheStory 1 ((carolNode id).accountCalls "core" positionActions)).depositTxId
      = some "d2" := by
    change (depositOf 1 _).map _ = _
    rw [depositOf, unsorted]
    decide +kernel
  have right : ((paired (ownTxs carolStart carolChain "hive:carol"))[0]?.map fun p => p.1.1.id)
      = some "d1" := by decide +kernel
  rcases names (carolNode id) carolChain carolServed ([·]) carolShape carolResult
      (carol_records fun batch => .refl batch) 1 with none_named | ⟨t, c, w, lc, hbd, runs, opens, tx, -⟩
  · rw [wrong] at none_named
    cases none_named.1
  · obtain ⟨p, at_0, same⟩ := opens_place (by decide +kernel) runs opens
    rw [at_0, Option.map_some, same, ← tx, wrong] at right
    exact absurd right (by decide)

end LasseCash.Api.TrancheHistory
