import LasseCash.Api.Answers
import LasseCash.Lib.Positions
import Mathlib.Data.List.Dedup
import Mathlib.Logic.Function.Basic

/-! Which result belongs to which operation of a transaction, `resultsByOp` and `resultFor` of
`api/src/magi-backend.ts`: outputs name operations, or transactions, or several of the latter.
-/

namespace LasseCash.Api.OpResults

open App Positions

-----------------------------------------------------------------------------------------
-- Outputs
-----------------------------------------------------------------------------------------

/-- A contract call's result as an output reports it. -/
structure OpResult where
  ok : Bool
  ret : String
  deriving DecidableEq

/-- A result as the node has it. -/
structure RawResult where
  ok : Bool
  ret : Option String

def RawResult.clean (r : RawResult) : OpResult := ⟨r.ok, r.ret.getD ""⟩

/-- What a contract put out: the operations or transactions it answers, and its results. -/
structure Output where
  inputs : Option (List String)
  results : Option (List RawResult)

/-- What precedes a final dash with digits behind it, and these digits. -/
def suffix (input : String) : Option (List Char × List Char) :=
  let reversed := input.toList.reverse
  match reversed.takeWhile Char.isDigit, reversed.dropWhile Char.isDigit with
  | c :: digits, '-' :: head => some (head.reverse, (c :: digits).reverse)
  | _, _ => none

/-- An input without its suffix. -/
def bareId (input : String) : String := (suffix input).elim input fun found => .ofList found.1

def isLineEnd (c : Char) : Bool := c ∈ ['\n', '\r', '\u2028', '\u2029']

/-- The transaction and the operation that an input with a suffix names; no line may end in it. -/
def opName (input : String) : Option (String × ℕ) :=
  (suffix input).bind fun found =>
    if found.1.any isLineEnd then none else (numeral found.2).map (String.ofList found.1, ·)

/-- The results of a transaction, by operation and by call. -/
structure Slot where
  byOp : ℕ → Option OpResult := fun _ => none
  byCall : List OpResult := []

/-- The results of transactions; one without any has an empty slot. -/
abbrev Results := String → Slot

/-- What an output has to say about one transaction. -/
inductive Write
  | op (tx : String) (n : ℕ) (r : OpResult)
  | calls (tx : String) (rs : List OpResult)

def Write.apply (m : Results) : Write → Results
  | .op tx n r =>
      Function.update m tx { m tx with byOp := Function.update (m tx).byOp n (some r) }
  | .calls tx rs => Function.update m tx { m tx with byCall := rs }

/-- An output's results by the operations that its inputs name. -/
def opWrites (inputs : List String) (results : List OpResult) : List Write :=
  List.zipWith (fun input r =>
    match opName input with
    | some (tx, n) => .op tx n r
    | none => .op input 0 r) inputs results

/-- Results cut into the calls of several transactions. -/
def callWrites (entries : List (String × ℕ)) (results : List OpResult) : List Write :=
  (Positions.slices entries results).map fun cut => .calls cut.1 cut.2

/-- What an output says, by its shape. -/
def Output.writes (callCount : String → Option ℕ) (o : Output) : List Write :=
  let inputs := o.inputs.getD []
  let results := (o.results.getD []).map RawResult.clean
  let suffixed := inputs.any fun input => (suffix input).isSome
  if inputs.length > 0 ∧ inputs.length = results.length
      ∧ (suffixed ∨ inputs.length = 1 ∨ (inputs.map bareId).dedup.length = 1) then
    opWrites inputs results
  else
    match inputs with
    | [input] => [.calls input results]
    | _ =>
        match inputs.mapM fun id => (callCount id).map (id, ·) with
        | some entries => callWrites entries results
        | none => []

/-- Which result belongs to which operation, across every output shape. -/
def resultsByOp (outputs : List Output) (callCount : String → Option ℕ) : Results :=
  (outputs.flatMap (Output.writes callCount)).foldl Write.apply fun _ => {}

/-- The result for one operation of a transaction, whichever shape reported it. -/
def resultFor (m : Results) (txId : String) (opIndex callIndex : ℕ) : Option OpResult :=
  ((m txId).byOp opIndex).or (m txId).byCall[callIndex]?

-----------------------------------------------------------------------------------------
-- Transactions
-----------------------------------------------------------------------------------------

/-- An operation: a call, of this contract or of another, or something else. -/
inductive TxOp
  | call (ours : Bool)
  | other

structure Tx where
  id : String
  ops : List TxOp

/-- A call of a transaction, with its index among the operations and among the calls. -/
structure CallOp where
  tx : String
  op : ℕ
  call : ℕ
  ours : Bool
  deriving DecidableEq

/-- The calls among some operations, counted as the readers of results count them. -/
def callsFrom (tx : String) : ℕ → ℕ → List TxOp → List CallOp
  | _, _, [] => []
  | op, call, .call ours :: rest => ⟨tx, op, call, ours⟩ :: callsFrom tx (op + 1) (call + 1) rest
  | op, call, .other :: rest => callsFrom tx (op + 1) call rest

def Tx.calls (t : Tx) : List CallOp := callsFrom t.id 0 0 t.ops

/-- The calls of this contract. -/
def Tx.own (t : Tx) : List CallOp := t.calls.filter CallOp.ours

/-- How many calls a transaction makes, to whichever contract. -/
def callCount (txs : List Tx) (id : String) : Option ℕ :=
  (txs.find? fun t => t.id == id).map fun t => t.calls.length

/-- An operation as an output names it. -/
def CallOp.name (c : CallOp) : String := if c.op = 0 then c.tx else c.tx ++ "-" ++ toString c.op

/-- The shapes of an output: it names operations; or it names one transaction, with a result for
each call of this contract; or several, with one for each call in order.
-/
inductive Shape
  | named (cs : List CallOp)
  | bare (t : Tx)
  | sliced (ts : List Tx)

/-- The calls whose results an output reports, in order. -/
def Shape.covers : Shape → List CallOp
  | .named cs => cs
  | .bare t => t.own
  | .sliced ts => ts.flatMap Tx.own

def Shape.inputs : Shape → List String
  | .named cs => cs.map CallOp.name
  | .bare t => [t.id]
  | .sliced ts => ts.map Tx.id

/-- The output of a shape that reports some results. -/
def Shape.output (res : CallOp → RawResult) (s : Shape) : Output where
  inputs := some s.inputs
  results := some (s.covers.map res)

/-- A transaction's identifier has no dash and no line end in it. -/
structure Plain (id : String) : Prop where
  dash : '-' ∉ id.toList
  line : id.toList.any isLineEnd = false

/-- (Documented txs count shapes) says that outputs report all calls of this contract in some
transactions, each once, and that the calls of the transactions are counted right, if at all: a reader
may know the counts of some of them, or of none.
-/
structure Documented (txs : List Tx) (count : String → Option ℕ) (shapes : List Shape) : Prop where
  counts : ∀ t ∈ txs, ∀ n, count t.id = some n → n = t.calls.length
  ids : (txs.map Tx.id).Nodup
  plain : ∀ t ∈ txs, Plain t.id
  bare : ∀ t, .bare t ∈ shapes → t ∈ txs
  sliced : ∀ ts, .sliced ts ∈ shapes → (∀ t ∈ ts, t ∈ txs) ∧ ts.Nodup ∧ 2 ≤ ts.length
  covers : (shapes.flatMap Shape.covers).Perm (txs.flatMap Tx.own)

/-- No call of another contract stands before one of this contract. -/
def Leading (calls : List CallOp) : Prop := calls.Pairwise fun a b => b.ours = true → a.ours = true

/-- (s.Counted count) says that the calls of every transaction are counted that an output's results are
cut by.
-/
def Shape.Counted (count : String → Option ℕ) : Shape → Prop
  | .named cs => ∀ c ∈ cs, (count c.tx).isSome
  | .bare _ => True
  | .sliced ts => ∀ t ∈ ts, (count t.id).isSome

/-- (s.Clear count) says that an output's shape is told apart, and its indices agree: operations that
are named by bare transactions are one, or of counted transactions with one call; a single call's
operation is the first; several transactions are counted, if any calls this contract; and calls of
other contracts come last.
-/
def Shape.Clear (count : String → Option ℕ) : Shape → Prop
  | .named cs =>
      cs.length ≤ 1 ∨ (∃ c ∈ cs, c.op ≠ 0)
        ∨ Counted count (.named cs) ∧ ∀ c ∈ cs.dropLast, count c.tx = some 1
  | .bare t => if t.own.length = 1 then ∀ c ∈ t.own, c.op = 0 else Leading t.calls
  | .sliced ts =>
      ts.flatMap Tx.own = [] ∨ Counted count (.sliced ts) ∧ Leading (ts.flatMap Tx.calls)

-----------------------------------------------------------------------------------------
-- Names
-----------------------------------------------------------------------------------------

theorem Plain.suffix {id : String} (plain : Plain id) : suffix id = none := by
  unfold OpResults.suffix
  dsimp only
  split
  · rename_i ends
    have there : '-' ∈ id.toList.reverse.dropWhile Char.isDigit := by
      rw [ends]
      exact List.mem_cons_self
    exact absurd (List.mem_reverse.mp ((List.dropWhile_sublist _).subset there)) plain.dash
  · rfl

/-- A number behind a dash is the suffix. -/
theorem suffix_numbered (id : String) (n : ℕ)
    : suffix (id ++ "-" ++ toString n) = some (id.toList, n.repr.toList) := by
  have reversed : (id ++ "-" ++ toString n).toList.reverse
      = n.repr.toList.reverse ++ '-' :: id.toList.reverse := by
    rw [String.toList_append, String.toList_append, List.reverse_append, List.reverse_append]
    rfl
  have digits : ∀ c ∈ n.repr.toList.reverse, c.isDigit = true :=
    fun c there => isDigit_repr (List.mem_reverse.mp there)
  have some_digit : n.repr.toList.reverse ≠ [] := by
    rw [Nat.toList_repr]
    exact List.reverse_ne_nil_iff.mpr Nat.toDigits_ne_nil
  unfold suffix
  dsimp only
  rw [reversed, List.takeWhile_append_of_pos digits, List.dropWhile_append_of_pos digits,
    List.takeWhile_cons_of_neg (by decide), List.dropWhile_cons_of_neg (by decide),
    List.append_nil]
  split
  · rename_i written ends
    obtain ⟨-, rfl⟩ := List.cons.inj ends
    rw [← written, List.reverse_reverse, List.reverse_reverse]
  · rename_i other
    obtain ⟨c, rest, shape⟩ := List.exists_cons_of_ne_nil some_digit
    exact absurd rfl (other c rest _ shape)

variable {c : CallOp}

/-- The suffix of a named operation is there unless it is the first. -/
theorem CallOp.suffix_isSome (plain : Plain c.tx) : (suffix c.name).isSome = decide (c.op ≠ 0) := by
  unfold CallOp.name
  split
  · rename_i first
    rw [plain.suffix, first]
    rfl
  · rename_i later
    rw [suffix_numbered, decide_eq_true later]
    rfl

theorem CallOp.opName_name (plain : Plain c.tx)
    : opName c.name = if c.op = 0 then none else some (c.tx, c.op) := by
  unfold CallOp.name opName
  split
  · rw [plain.suffix]
    rfl
  · rw [suffix_numbered, Option.bind_some, plain.line, numeral_repr, String.ofList_toList]
    rfl

/-- Results whose inputs name operations are theirs, by induction on these. -/
theorem opWrites_named (f : CallOp → OpResult) {cs : List CallOp} (plain : ∀ c ∈ cs, Plain c.tx)
    : opWrites (cs.map CallOp.name) (cs.map f) = cs.map fun c => .op c.tx c.op (f c) := by
  induction cs with
  | nil => rfl
  | cons c rest ih =>
      have first : (match opName c.name with
          | some (tx, n) => Write.op tx n (f c)
          | none => .op c.name 0 (f c)) = .op c.tx c.op (f c) := by
        rw [CallOp.opName_name (plain c List.mem_cons_self)]
        unfold CallOp.name
        split
        · rename_i none_named
          split at none_named
          · cases none_named
          · obtain ⟨rfl, rfl⟩ := Prod.mk.inj (Option.some.inj none_named)
            rfl
        · rename_i unnamed
          split at unnamed
          · rename_i zero
            rw [if_pos zero, zero]
          · cases unnamed
      rw [List.map_cons, List.map_cons, List.map_cons, ← first,
        ← ih fun d there => plain d (List.mem_cons_of_mem _ there)]
      rfl

-----------------------------------------------------------------------------------------
-- Calls of transactions
-----------------------------------------------------------------------------------------

/-- The calls from some operation and call on: each has its own indices, by induction on them. -/
theorem callsFrom_getElem {tx : String} {op call i : ℕ} {ops : List TxOp} {c : CallOp}
    (at_i : (callsFrom tx op call ops)[i]? = some c)
    : c.tx = tx ∧ c.call = call + i ∧ op + i ≤ c.op := by
  induction ops generalizing op call i with
  | nil => cases at_i
  | cons step rest ih =>
      cases step with
      | call ours =>
          cases i with
          | zero =>
              obtain rfl := Option.some.inj at_i
              exact ⟨rfl, rfl, le_rfl⟩
          | succ i =>
              obtain ⟨same, index, later⟩ := ih at_i
              exact ⟨same, by omega, by omega⟩
      | other =>
          obtain ⟨same, index, later⟩ := ih at_i
          exact ⟨same, index, by omega⟩

/-- Operations are counted up, by induction on them. -/
theorem callsFrom_ordered (tx : String) (op call : ℕ) (ops : List TxOp)
    : (callsFrom tx op call ops).Pairwise fun a b => a.op < b.op := by
  induction ops generalizing op call with
  | nil => exact .nil
  | cons step rest ih =>
      cases step with
      | call ours =>
          refine .cons (fun c there => ?_) (ih _ _)
          obtain ⟨i, at_i⟩ := List.mem_iff_getElem?.mp there
          have later := (callsFrom_getElem at_i).2.2
          exact Nat.lt_of_lt_of_le (Nat.lt_succ_self op) (Nat.le_of_add_right_le later)
      | other => exact ih _ _

variable {t : Tx}

theorem Tx.calls_nodup (t : Tx) : t.calls.Nodup :=
  (callsFrom_ordered _ _ _ _).imp fun below same => (same ▸ below).false

/-- A call is where its index among the calls says. -/
theorem Tx.calls_at (there : c ∈ t.calls) : c.tx = t.id ∧ t.calls[c.call]? = some c := by
  obtain ⟨i, at_i⟩ := List.mem_iff_getElem?.mp there
  obtain ⟨same, index, -⟩ := callsFrom_getElem at_i
  rw [Nat.zero_add] at index
  exact ⟨same, index ▸ at_i⟩

/-- A call is known from its operation. -/
theorem Tx.calls_op {d : CallOp} (there : c ∈ t.calls) (there' : d ∈ t.calls) (same : c.op = d.op)
    : c = d := by
  have apart : (t.calls.map CallOp.op).Nodup :=
    List.pairwise_map.mpr ((callsFrom_ordered _ _ _ _).imp fun below => below.ne)
  exact List.inj_on_of_nodup_map apart there there' same

/-- The call of the first operation is the first call. -/
theorem Tx.calls_first (there : c ∈ t.calls) (first : c.op = 0) : c.call = 0 := by
  have later := (callsFrom_getElem (calls_at there).2).2.2
  omega

theorem Tx.own_calls (there : c ∈ t.own) : c ∈ t.calls ∧ c.ours = true := List.mem_filter.mp there

variable {txs : List Tx}

/-- Transactions are known from their identifiers. -/
theorem tx_unique {t' : Tx} (ids : (txs.map Tx.id).Nodup) (there : t ∈ txs) (there' : t' ∈ txs)
    (same : t.id = t'.id)
    : t = t' :=
  List.inj_on_of_nodup_map ids there there' same

/-- A call of some transactions is known from its transaction and its operation. -/
theorem call_unique {t' : Tx} {d : CallOp} (ids : (txs.map Tx.id).Nodup) (there : t ∈ txs)
    (there' : t' ∈ txs) (hc : c ∈ t.calls) (hd : d ∈ t'.calls) (tx : c.tx = d.tx) (op : c.op = d.op)
    : c = d := by
  rw [(Tx.calls_at hc).1, (Tx.calls_at hd).1] at tx
  obtain rfl := tx_unique ids there there' tx
  exact Tx.calls_op hc hd op

/-- Who has listed some of the transactions counts their calls right. -/
theorem callCount_right {listed : List Tx} (ids : (txs.map Tx.id).Nodup)
    (part : ∀ t ∈ listed, t ∈ txs) {n : ℕ} (there : t ∈ txs)
    (counted : callCount listed t.id = some n)
    : n = t.calls.length := by
  obtain ⟨t', found, rfl⟩ := Option.map_eq_some_iff.mp counted
  have matched := List.find?_some found
  have same : t'.id = t.id := beq_iff_eq.mp matched
  rw [tx_unique ids (part t' (List.mem_of_find?_eq_some found)) there same]

-----------------------------------------------------------------------------------------
-- Writes
-----------------------------------------------------------------------------------------

/-- What a write reports for an operation. -/
def Write.opOf (tx : String) (n : ℕ) : Write → Option OpResult
  | .op tx' n' r => if tx' = tx ∧ n' = n then some r else none
  | .calls _ _ => none

/-- What a write reports for the calls of a transaction. -/
def Write.callsOf (tx : String) : Write → Option (List OpResult)
  | .op _ _ _ => none
  | .calls tx' rs => if tx' = tx then some rs else none

variable {tx : String}

/-- One more write to an operation. -/
theorem Write.apply_byOp (m : Results) (w : Write) (n : ℕ)
    : (w.apply m tx).byOp n = (w.opOf tx n).or ((m tx).byOp n) := by
  cases w with
  | op tx' n' r =>
      simp only [apply, opOf]
      by_cases here : tx = tx'
      · subst here
        rw [Function.update_self]
        by_cases same : n = n'
        · rw [same, if_pos ⟨rfl, rfl⟩]
          exact Function.update_self ..
        · rw [if_neg fun h => same h.2.symm]
          exact Function.update_of_ne same ..
      · rw [if_neg fun h => here h.1.symm, Function.update_of_ne here]
        rfl
  | calls tx' rs =>
      simp only [apply, opOf]
      by_cases here : tx = tx'
      · subst here
        rw [Function.update_self]
        rfl
      · rw [Function.update_of_ne here]
        rfl

/-- One more write to the calls of a transaction. -/
theorem Write.apply_byCall (m : Results) (w : Write)
    : (w.apply m tx).byCall = (w.callsOf tx).getD (m tx).byCall := by
  cases w with
  | op tx' n' r =>
      simp only [apply, callsOf]
      by_cases here : tx = tx'
      · subst here
        rw [Function.update_self]
        rfl
      · rw [Function.update_of_ne here]
        rfl
  | calls tx' rs =>
      simp only [apply, callsOf]
      by_cases here : tx = tx'
      · subst here
        rw [Function.update_self, if_pos rfl]
        rfl
      · rw [Function.update_of_ne here, if_neg fun h => here h.symm]
        rfl

/-- After some writes the last one to an operation stands, and the last one to the calls; by
induction from the end.
-/
theorem writes_last (ws : List Write) (tx : String) (n : ℕ)
    : ((ws.foldl Write.apply fun _ => {}) tx).byOp n = (ws.filterMap (Write.opOf tx n)).getLast?
      ∧ ((ws.foldl Write.apply fun _ => {}) tx).byCall
        = (ws.filterMap (Write.callsOf tx)).getLast?.getD [] := by
  induction ws using List.reverseRecOn with
  | nil => exact ⟨rfl, rfl⟩
  | append_singleton ws w ih =>
      rw [List.foldl_append, List.foldl_cons, List.foldl_nil, Write.apply_byOp,
        Write.apply_byCall, ih.1, ih.2, List.filterMap_append, List.filterMap_append]
      constructor
      · cases reported : w.opOf tx n with
        | none => simp [reported]
        | some r => simp [reported]
      · cases reported : w.callsOf tx with
        | none => simp [reported]
        | some rs => simp [reported]

-----------------------------------------------------------------------------------------
-- What the shapes write
-----------------------------------------------------------------------------------------

/-- (s.ByName) says that an output's results are taken for those of operations by name. -/
def Shape.ByName : Shape → Prop
  | .named cs => cs.length ≤ 1 ∨ ∃ c ∈ cs, c.op ≠ 0
  | .bare t => t.own.length = 1
  | .sliced _ => False

/-- The operation that a result is taken for; a bare transaction names the first. -/
def Shape.opAt : Shape → CallOp → ℕ
  | .bare _, _ => 0
  | _, c => c.op

/-- The transactions that an output's results are cut into, with the calls of each. -/
def Shape.entries (count : String → Option ℕ) : Shape → List (String × ℕ)
  | .named cs => cs.map fun c => (c.tx, (count c.tx).getD 0)
  | .bare t => [(t.id, t.own.length)]
  | .sliced ts => ts.map fun t => (t.id, t.calls.length)

variable {count : String → Option ℕ} {shapes : List Shape} {s : Shape} {res : CallOp → RawResult}

/-- An output's inputs, results and shape, once they are all there. -/
theorem Shape.output_writes (count : String → Option ℕ)
    : (s.output res).writes count
      = if s.inputs.length > 0 ∧ s.inputs.length = s.covers.length
          ∧ ((s.inputs.any fun input => (OpResults.suffix input).isSome) ∨ s.inputs.length = 1
            ∨ (s.inputs.map bareId).dedup.length = 1) then
          opWrites s.inputs (s.covers.map fun c => (res c).clean)
        else
          match s.inputs with
          | [input] => [.calls input (s.covers.map fun c => (res c).clean)]
          | _ =>
              match s.inputs.mapM fun id => (count id).map (id, ·) with
              | some entries => callWrites entries (s.covers.map fun c => (res c).clean)
              | none => [] := by
  unfold Output.writes Shape.output
  simp only [Option.getD_some, List.map_map, List.length_map]
  rfl

/-- Where all of a list is found, so is the list. -/
theorem mapM_found {α β : Type} {l : List α} {f : α → Option β} {g : α → β}
    (found : ∀ a ∈ l, f a = some (g a))
    : l.mapM f = some (l.map g) := by
  induction l with
  | nil => rfl
  | cons a rest ih =>
      rw [List.mapM_cons, found a List.mem_cons_self, ih fun b there => found b (.tail _ there)]
      rfl

/-- Where one of a list is not found, the list is not. -/
theorem mapM_missing {α β : Type} {l : List α} {f : α → Option β} {a : α} (there : a ∈ l)
    (missing : f a = none)
    : l.mapM f = none := by
  induction l with
  | nil => cases there
  | cons b rest ih =>
      rw [List.mapM_cons]
      rcases List.mem_cons.mp there with rfl | later
      · rw [missing]
        rfl
      · rw [ih later]
        cases f b <;> rfl

/-- Several names, all different and without suffixes, are looked up among the transactions. -/
theorem Shape.output_looked (plain : ∀ input ∈ s.inputs, Plain input)
    (several : 2 ≤ s.inputs.length) (nodup : s.inputs.Nodup)
    : (s.output res).writes count
      = ((s.inputs.mapM fun id => (count id).map (id, ·)).map fun entries =>
          callWrites entries (s.covers.map fun c => (res c).clean)).getD [] := by
  have bare : s.inputs.map bareId = s.inputs := by
    refine (List.map_congr_left fun input there => ?_).trans (List.map_id s.inputs)
    rw [bareId, (plain input there).suffix]
    rfl
  have unsuffixed : (s.inputs.any fun input => (OpResults.suffix input).isSome) = false := by
    refine List.any_eq_false.mpr fun input there => ?_
    rw [(plain input there).suffix]
    exact Bool.false_ne_true
  have unnamed : ¬(s.inputs.length > 0 ∧ s.inputs.length = s.covers.length
      ∧ (false = true ∨ s.inputs.length = 1 ∨ s.inputs.length = 1)) := by
    rintro ⟨-, -, never | single | single⟩
    · exact Bool.false_ne_true never
    all_goals omega
  rw [output_writes, bare, nodup.dedup, unsuffixed, if_neg unnamed]
  split
  · rename_i single
    rw [single] at several
    exact absurd several (by simp)
  · cases s.inputs.mapM fun id => (count id).map (id, ·) <;> rfl

/-- The calls of this contract in the transactions are all different. -/
theorem Documented.nodup (h : Documented txs count shapes) : (shapes.flatMap Shape.covers).Nodup := by
  refine h.covers.nodup_iff.mpr (List.nodup_flatMap.mpr ⟨fun t _ => t.calls_nodup.filter _, ?_⟩)
  refine (List.Nodup.of_map _ h.ids).imp_of_mem fun {t t'} there there' differ => ?_
  intro c hc hc'
  have same := (Tx.calls_at (Tx.own_calls hc).1).1.symm.trans (Tx.calls_at (Tx.own_calls hc').1).1
  exact differ (tx_unique h.ids there there' same)

/-- What an output covers is a call of this contract in one of the transactions. -/
theorem Documented.covered (h : Documented txs count shapes) (listed : s ∈ shapes)
    (there : c ∈ s.covers)
    : ∃ t ∈ txs, c ∈ t.own ∧ c.tx = t.id := by
  obtain ⟨t, member, own⟩ := List.mem_flatMap.mp
    (h.covers.mem_iff.mp (List.mem_flatMap.mpr ⟨s, listed, there⟩))
  exact ⟨t, member, own, (Tx.calls_at (Tx.own_calls own).1).1⟩

theorem Documented.covered_plain (h : Documented txs count shapes) (listed : s ∈ shapes)
    (there : c ∈ s.covers)
    : Plain c.tx := by
  obtain ⟨t, member, -, same⟩ := h.covered listed there
  exact same ▸ h.plain t member

/-- Results that are taken for those of operations by name. -/
theorem Shape.writes_byName {count : String → Option ℕ} (plain : ∀ c ∈ s.covers, Plain c.tx)
    (byName : s.ByName)
    : (s.output res).writes count
      = s.covers.map fun c => .op c.tx (s.opAt c) (res c).clean := by
  rw [output_writes]
  cases s with
  | named cs =>
      have plain : ∀ c ∈ cs, Plain c.tx := plain
      by_cases empty : cs = []
      · subst empty
        rfl
      have positive : 0 < (cs.map CallOp.name).length := by
        rw [List.length_map]
        exact List.length_pos_iff.mpr empty
      have shape : ((cs.map CallOp.name).any fun input => (OpResults.suffix input).isSome) = true
          ∨ (cs.map CallOp.name).length = 1
          ∨ ((cs.map CallOp.name).map bareId).dedup.length = 1 := by
        rcases byName with single | ⟨c, there, later⟩
        · rw [List.length_map] at positive ⊢
          exact .inr (.inl (by omega))
        · refine .inl (List.any_eq_true.mpr ⟨c.name, List.mem_map_of_mem there, ?_⟩)
          rw [CallOp.suffix_isSome (plain c there)]
          exact decide_eq_true later
      rw [inputs, covers, if_pos ⟨positive, List.length_map _, shape⟩, opWrites_named _ plain]
      rfl
  | bare t =>
      have single : t.own.length = 1 := byName
      obtain ⟨c, only⟩ := List.length_eq_one_iff.mp single
      have own : c ∈ t.own := only ▸ List.mem_singleton_self c
      have tx := (Tx.calls_at (Tx.own_calls own).1).1
      have unnamed : opName t.id = none := by
        rw [opName, ← tx, (plain c own).suffix]
        rfl
      rw [inputs, covers, if_pos ⟨Nat.one_pos, single.symm, .inr (.inl rfl)⟩, only]
      simp only [opWrites, List.map_cons, List.map_nil, List.zipWith_cons_cons,
        List.zipWith_nil_left, unnamed, tx, opAt]
  | sliced ts => exact byName.elim

/-- Results are cut into the calls of different transactions. -/
theorem Shape.entries_nodup (h : Documented txs count shapes) (listed : s ∈ shapes) (cut : ¬s.ByName)
    : ((s.entries count).map Prod.fst).Nodup := by
  cases s with
  | named cs =>
      have once : cs.Nodup := (List.nodup_flatMap.mp h.nodup).1 _ listed
      rw [entries, List.map_map]
      refine List.Nodup.map_on (fun c there d there' same => ?_) once
      obtain ⟨t, member, own, -⟩ := h.covered listed there
      obtain ⟨t', member', own', -⟩ := h.covered listed there'
      have zero : ∀ c ∈ cs, c.op = 0 := fun c there =>
        not_not.mp fun later => cut (.inr ⟨c, there, later⟩)
      exact call_unique h.ids member member' (Tx.own_calls own).1 (Tx.own_calls own').1 same
        ((zero c there).trans (zero d there').symm)
  | bare t => exact List.nodup_singleton _
  | sliced ts =>
      obtain ⟨members, once, -⟩ := h.sliced ts listed
      rw [entries, List.map_map]
      exact List.Nodup.map_on (fun t there t' there' same =>
        tx_unique h.ids (members t there) (members t' there') same) once

/-- The names of an output that is cut into the calls of transactions. -/
theorem Shape.inputs_cut (count : String → Option ℕ) (cut : ¬s.ByName)
    : s.inputs = (s.entries count).map Prod.fst := by
  cases s with
  | named cs =>
      rw [inputs, entries, List.map_map]
      refine List.map_congr_left fun c there => if_pos ?_
      exact not_not.mp fun later => cut (.inr ⟨c, there, later⟩)
  | bare t => rfl
  | sliced ts =>
      rw [inputs, entries, List.map_map]
      rfl

/-- They are plain, all different, and several unless one transaction is named. -/
theorem Shape.inputs_several (h : Documented txs count shapes) (listed : s ∈ shapes)
    (cut : ¬s.ByName)
    : (∀ input ∈ s.inputs, Plain input) ∧ s.inputs.Nodup
      ∧ ((∃ t, s = .bare t) ∨ 2 ≤ s.inputs.length) := by
  have nodup := entries_nodup h listed cut
  rw [← inputs_cut count cut] at nodup
  refine ⟨?_, nodup, ?_⟩
  · rw [inputs_cut count cut]
    intro input there
    obtain ⟨entry, inside, rfl⟩ := List.mem_map.mp there
    cases s with
    | named cs =>
        obtain ⟨c, inside', rfl⟩ := List.mem_map.mp inside
        exact h.covered_plain listed inside'
    | bare t =>
        obtain rfl := List.mem_singleton.mp inside
        exact h.plain t (h.bare t listed)
    | sliced ts =>
        obtain ⟨t, inside', rfl⟩ := List.mem_map.mp inside
        exact h.plain t ((h.sliced ts listed).1 t inside')
  · cases s with
    | named cs =>
        have many : ¬cs.length ≤ 1 := fun few => cut (.inl few)
        rw [inputs, List.length_map]
        exact .inr (by omega)
    | bare t => exact .inl ⟨t, rfl⟩
    | sliced ts =>
        rw [inputs, List.length_map]
        exact .inr (h.sliced ts listed).2.2

/-- The transactions are looked up with their calls. -/
theorem Shape.entries_counted (h : Documented txs count shapes) (listed : s ∈ shapes)
    (counted : s.Counted count) {entry : String × ℕ} (there : entry ∈ s.entries count)
    : (∃ t, s = .bare t) ∨ count entry.1 = some entry.2 := by
  cases s with
  | named cs =>
      obtain ⟨c, inside, rfl⟩ := List.mem_map.mp there
      obtain ⟨n, found⟩ := Option.isSome_iff_exists.mp (counted c inside)
      right
      dsimp only
      rw [found, Option.getD_some]
  | bare t => exact .inl ⟨t, rfl⟩
  | sliced ts =>
      obtain ⟨t, inside, rfl⟩ := List.mem_map.mp there
      obtain ⟨n, found⟩ := Option.isSome_iff_exists.mp (counted t inside)
      right
      rw [found, h.counts t ((h.sliced ts listed).1 t inside) n found]

/-- Results that are cut into the calls of transactions. -/
theorem Shape.writes_cut (h : Documented txs count shapes) (listed : s ∈ shapes) (cut : ¬s.ByName)
    (counted : s.Counted count)
    : (s.output res).writes count
      = callWrites (s.entries count) (s.covers.map fun c => (res c).clean) := by
  obtain ⟨plain, nodup, ⟨t, rfl⟩ | several⟩ := inputs_several h listed cut
  · have whole : (t.own.map fun c => (res c).clean).take t.own.length
        = t.own.map fun c => (res c).clean := List.take_of_length_le (List.length_map _).le
    rw [output_writes, inputs, covers, if_neg fun shape => cut shape.2.1.symm, entries, callWrites,
      Positions.slices, Positions.slices, whole]
    rfl
  · have looked : (s.inputs.mapM fun id => (count id).map (id, ·)) = some (s.entries count) := by
      have found : ∀ entry ∈ s.entries count, count entry.1 = some entry.2 := by
        intro entry there
        rcases entries_counted h listed counted there with ⟨t, rfl⟩ | found
        · exact absurd several (by simp [inputs])
        · exact found
      rw [inputs_cut count cut, mapM_found (g := fun id => (id, (count id).getD 0)), List.map_map]
      · refine congrArg some ((List.map_congr_left fun entry there => ?_).trans (List.map_id _))
        exact congrArg (Prod.mk entry.1) (congrArg (Option.getD · 0) (found entry there))
      · intro id there
        obtain ⟨entry, inside, rfl⟩ := List.mem_map.mp there
        rw [found entry inside]
        rfl
    rw [output_looked plain several nodup, looked, Option.map_some, Option.getD_some]

/-- Results that would be cut into the calls of transactions which are not counted are dropped. -/
theorem Shape.writes_uncounted (h : Documented txs count shapes) (listed : s ∈ shapes)
    (cut : ¬s.ByName) (uncounted : ¬s.Counted count)
    : (s.output res).writes count = [] := by
  obtain ⟨input, there, missing⟩ : ∃ input ∈ s.inputs, count input = none := by
    by_contra all
    push Not at all
    have known (input : String) (there : input ∈ s.inputs) : (count input).isSome :=
      Option.isSome_iff_ne_none.mpr (all input there)
    refine uncounted ?_
    rw [inputs_cut count cut] at known
    cases s with
    | named cs => exact fun c inside => known _ (List.mem_map_of_mem (List.mem_map_of_mem inside))
    | bare t => trivial
    | sliced ts => exact fun t inside => known _ (List.mem_map_of_mem (List.mem_map_of_mem inside))
  obtain ⟨plain, nodup, ⟨t, rfl⟩ | several⟩ := inputs_several h listed cut
  · exact absurd trivial uncounted
  · rw [output_looked plain several nodup, mapM_missing there]
    · rfl
    · rw [missing]
      rfl

/-- What is cut names no operation. -/
theorem Shape.cut_unnamed (h : Documented txs count shapes) (listed : s ∈ shapes)
    (cut : ¬s.ByName) (tx : String) (n : ℕ)
    : ((s.output res).writes count).filterMap (Write.opOf tx n) = [] := by
  by_cases counted : s.Counted count
  · rw [writes_cut h listed cut counted, callWrites, List.filterMap_map]
    exact List.filterMap_eq_nil_iff.mpr fun _ _ => rfl
  · rw [writes_uncounted h listed cut counted]
    rfl

-----------------------------------------------------------------------------------------
-- What is read
-----------------------------------------------------------------------------------------

variable {before after : List Shape} {s' : Shape}

theorem mem_around (other : s' ∈ before ++ after) : s' ∈ before ++ s :: after := by
  rcases List.mem_append.mp other with first | last
  · exact List.mem_append_left _ first
  · exact List.mem_append_right _ (.tail _ last)

/-- What one output covers, no other does. -/
theorem covers_apart (nodup : ((before ++ s :: after).flatMap Shape.covers).Nodup)
    (there : c ∈ s.covers) (other : s' ∈ before ++ after)
    : c ∉ s'.covers := by
  obtain ⟨-, later, across⟩ := List.pairwise_append.mp (List.nodup_flatMap.mp nodup).2
  rcases List.mem_append.mp other with first | last
  · exact fun there' => across s' first s List.mem_cons_self there' there
  · exact fun there' => (List.pairwise_cons.mp later).1 s' last there there'

/-- Where no other output has something to report, only one is read. -/
theorem flatMap_only {α β : Type} {before after : List α} {a : α} {g : α → List β}
    (nothing : ∀ b ∈ before ++ after, g b = [])
    : (before ++ a :: after).flatMap g = g a := by
  have first := List.flatMap_eq_nil_iff.mpr fun b there =>
    nothing b (List.mem_append_left _ there)
  have last := List.flatMap_eq_nil_iff.mpr fun b there =>
    nothing b (List.mem_append_right _ there)
  rw [List.flatMap_append, List.flatMap_cons, first, last, List.nil_append, List.append_nil]

/-- What a list of names has for one of them. -/
theorem filterMap_only {f : CallOp → OpResult} {cs : List CallOp} {n : CallOp → ℕ}
    (nodup : cs.Nodup) (there : c ∈ cs)
    (only : ∀ d ∈ cs, d.tx = c.tx → n d = n c → d = c)
    : (cs.map fun d => Write.op d.tx (n d) (f d)).filterMap (Write.opOf c.tx (n c)) = [f c] := by
  obtain ⟨first, last, rfl⟩ := List.append_of_mem there
  have apart := List.nodup_middle.mp nodup
  have nothing (ds : List CallOp) (part : ∀ d ∈ ds, d ∈ first ++ c :: last) (unlike : c ∉ ds)
      : (ds.map fun d => Write.op d.tx (n d) (f d)).filterMap (Write.opOf c.tx (n c)) = [] := by
    rw [List.filterMap_map]
    refine List.filterMap_eq_nil_iff.mpr fun d inside => if_neg fun same => unlike ?_
    exact only d (part d inside) same.1 same.2 ▸ inside
  have absent := (List.nodup_cons.mp apart).1
  have own : (Write.op c.tx (n c) (f c)).opOf c.tx (n c) = some (f c) := if_pos ⟨rfl, rfl⟩
  rw [List.map_append, List.filterMap_append, List.map_cons,
    nothing first (fun d inside => List.mem_append_left _ inside)
      (fun inside => absent (List.mem_append_left _ inside)),
    List.filterMap_cons_some own,
    nothing last (fun d inside => List.mem_append_right _ (.tail _ inside))
      (fun inside => absent (List.mem_append_right _ inside))]
  rfl

/-- The result for a call, out of what all outputs have for its operation and its transaction. -/
theorem resultFor_outputs (count : String → Option ℕ) (c : CallOp)
    : resultFor (resultsByOp (shapes.map (Shape.output res)) count) c.tx c.op c.call
      = (shapes.flatMap fun s =>
          ((s.output res).writes count).filterMap (Write.opOf c.tx c.op)).getLast?.or
        ((shapes.flatMap fun s =>
          ((s.output res).writes count).filterMap (Write.callsOf c.tx)).getLast?.getD [])[c.call]? := by
  obtain ⟨byOp, byCall⟩ := writes_last
    ((shapes.map (Shape.output res)).flatMap (Output.writes count)) c.tx c.op
  rw [resultFor, resultsByOp, byOp, byCall, List.flatMap_map, List.filterMap_flatMap,
    List.filterMap_flatMap]

/-- Another output has nothing for the operation of a call. -/
theorem Documented.ops_other (h : Documented txs count shapes) (listed : s ∈ shapes) (member : t ∈ txs)
    (own : c ∈ t.own) (absent : c ∉ s.covers)
    : ((s.output res).writes count).filterMap (Write.opOf c.tx c.op) = [] := by
  by_cases byName : s.ByName
  · rw [Shape.writes_byName (fun _ => h.covered_plain listed) byName, List.filterMap_map]
    refine List.filterMap_eq_nil_iff.mpr fun d there => if_neg fun same => absent ?_
    obtain ⟨t', member', own', -⟩ := h.covered listed there
    have call := (Tx.own_calls own).1
    cases s with
    | named cs =>
        exact call_unique h.ids member' member (Tx.own_calls own').1 call same.1 same.2 ▸ there
    | bare t' =>
        have tx := (Tx.calls_at (Tx.own_calls there).1).1
        have alike := same.1.symm.trans tx
        rw [(Tx.calls_at call).1] at alike
        exact tx_unique h.ids member (h.bare t' listed) alike ▸ own
    | sliced ts => exact byName.elim
  · exact Shape.cut_unnamed h listed byName c.tx c.op

/-- Results by name are none by calls. -/
theorem Documented.calls_byName (h : Documented txs count shapes) (listed : s ∈ shapes)
    (byName : s.ByName) (tx : String)
    : ((s.output res).writes count).filterMap (Write.callsOf tx) = [] := by
  rw [Shape.writes_byName (fun _ => h.covered_plain listed) byName, List.filterMap_map]
  exact List.filterMap_eq_nil_iff.mpr fun _ _ => rfl

/-- Where an output covers the first operation, or a whole transaction, no other one has anything
for its calls.
-/
theorem Documented.calls_other (h : Documented txs count (before ++ s :: after)) (there : c ∈ s.covers)
    (whole : ∀ cs, s = .named cs → c.op = 0) (other : s' ∈ before ++ after)
    : ((s'.output res).writes count).filterMap (Write.callsOf c.tx) = [] := by
  have listed : s ∈ before ++ s :: after :=
    List.mem_append_right _ List.mem_cons_self
  have listed' : s' ∈ before ++ s :: after := mem_around other
  have absent := covers_apart h.nodup there other
  obtain ⟨t, member, own, tx⟩ := h.covered listed there
  by_cases byName : s'.ByName
  · exact h.calls_byName listed' byName c.tx
  by_cases counted : s'.Counted count
  swap
  · rw [Shape.writes_uncounted h listed' byName counted]
    rfl
  rw [Shape.writes_cut h listed' byName counted, callWrites, List.filterMap_map]
  have keyed (k : String) (key : k ∈ (s'.entries count).map Prod.fst) : k ≠ c.tx := by
    rintro rfl
    obtain ⟨entry, inside, key⟩ := List.mem_map.mp key
    cases s' with
    | named cs' =>
        obtain ⟨d, inside', rfl⟩ := List.mem_map.mp inside
        have alike : d.tx = c.tx := key
        have first : d.op = 0 := not_not.mp fun later => byName (.inr ⟨d, inside', later⟩)
        obtain ⟨t', member', own', tx'⟩ := h.covered listed' inside'
        obtain rfl := tx_unique h.ids member member' (tx.symm.trans (alike.symm.trans tx'))
        have apart : d ∉ s.covers := fun both => covers_apart h.nodup both other inside'
        cases s with
        | named cs =>
            have same := call_unique h.ids member member (Tx.own_calls own').1
              (Tx.own_calls own).1 alike (first.trans (whole cs rfl).symm)
            exact absent (same ▸ inside')
        | bare t' =>
            have tx'' := (Tx.calls_at (Tx.own_calls there).1).1
            obtain rfl := tx_unique h.ids member (h.bare t' listed) (tx.symm.trans tx'')
            exact apart own'
        | sliced ts =>
            obtain ⟨t', inside'', own''⟩ := List.mem_flatMap.mp there
            have tx'' := (Tx.calls_at (Tx.own_calls own'').1).1
            obtain rfl := tx_unique h.ids member ((h.sliced ts listed).1 t' inside'')
              (tx.symm.trans tx'')
            exact apart (List.mem_flatMap.mpr ⟨t, inside'', own'⟩)
    | bare t' =>
        obtain rfl := List.mem_singleton.mp inside
        obtain rfl := tx_unique h.ids member (h.bare t' listed') (tx.symm.trans key.symm)
        exact absent own
    | sliced ts =>
        obtain ⟨t', inside', rfl⟩ := List.mem_map.mp inside
        obtain rfl := tx_unique h.ids member ((h.sliced ts listed').1 t' inside')
          (tx.symm.trans key.symm)
        exact absent (List.mem_flatMap.mpr ⟨t, inside', own⟩)
  refine List.filterMap_eq_nil_iff.mpr fun cut inside => if_neg (keyed cut.1 ?_)
  rw [← Positions.slices_keys]
  exact List.mem_map_of_mem inside

/-- What is cut for a transaction. -/
theorem callWrites_cut {pre post : List (String × ℕ)} {n : ℕ} (rs : List OpResult)
    (nodup : ((pre ++ (tx, n) :: post).map Prod.fst).Nodup)
    : (callWrites (pre ++ (tx, n) :: post) rs).filterMap (Write.callsOf tx)
      = [(rs.drop (pre.map Prod.snd).sum).take n] := by
  obtain ⟨firsts, lasts, cut, first_keys, last_keys⟩ := Positions.slices_append pre post tx n rs
  rw [List.map_append, List.map_cons] at nodup
  have absent := (List.nodup_cons.mp (List.nodup_middle.mp nodup)).1
  have nothing (cuts : List (String × List OpResult)) (unlike : tx ∉ cuts.map Prod.fst)
      : (cuts.map fun cut => Write.calls cut.1 cut.2).filterMap (Write.callsOf tx) = [] := by
    rw [List.filterMap_map]
    refine List.filterMap_eq_nil_iff.mpr fun cut inside => if_neg fun same => unlike ?_
    exact same ▸ List.mem_map_of_mem inside
  have own : (Write.calls tx ((rs.drop (pre.map Prod.snd).sum).take n)).callsOf tx
      = some ((rs.drop (pre.map Prod.snd).sum).take n) := if_pos rfl
  rw [callWrites, cut, List.map_append, List.filterMap_append, List.map_cons,
    nothing firsts (first_keys ▸ fun inside => absent (List.mem_append_left _ inside)),
    List.filterMap_cons_some own,
    nothing lasts (last_keys ▸ fun inside => absent (List.mem_append_right _ inside))]
  rfl

section Reading

variable (h : Documented txs count (before ++ s :: after)) (there : c ∈ s.covers)

include h there

/-- Only its own output has something for the operation of a call. -/
theorem Documented.ops_only
    : ((before ++ s :: after).flatMap fun s =>
        ((s.output res).writes count).filterMap (Write.opOf c.tx c.op))
      = ((s.output res).writes count).filterMap (Write.opOf c.tx c.op) := by
  have listed : s ∈ before ++ s :: after := List.mem_append_right _ List.mem_cons_self
  obtain ⟨t, member, own, -⟩ := h.covered listed there
  refine flatMap_only fun s' other => ?_
  have listed' : s' ∈ before ++ s :: after := mem_around other
  exact h.ops_other listed' member own (covers_apart h.nodup there other)

/-- The result of an operation that is named is read. -/
theorem Documented.read_byName (byName : s.ByName) (op : s.opAt c = c.op)
    (only : ∀ d ∈ s.covers, d.tx = c.tx → s.opAt d = s.opAt c → d = c)
    : resultFor (resultsByOp ((before ++ s :: after).map (Shape.output res)) count)
        c.tx c.op c.call
      = some (res c).clean := by
  have listed : s ∈ before ++ s :: after := List.mem_append_right _ List.mem_cons_self
  have once := (List.nodup_flatMap.mp h.nodup).1 s listed
  rw [resultFor_outputs, h.ops_only there,
    Shape.writes_byName (fun _ => h.covered_plain listed) byName, ← op,
    filterMap_only (f := fun d => (res d).clean) once there only]
  rfl

/-- The result of a transaction's only call is not read where the call is not the first operation. -/
theorem Documented.read_late {t : Tx} (single : s = .bare t) (byName : s.ByName) (late : c.op ≠ 0)
    : resultFor (resultsByOp ((before ++ s :: after).map (Shape.output res)) count)
        c.tx c.op c.call
      = none := by
  have listed : s ∈ before ++ s :: after := List.mem_append_right _ List.mem_cons_self
  have named : ((s.output res).writes count).filterMap (Write.opOf c.tx c.op) = [] := by
    rw [Shape.writes_byName (fun _ => h.covered_plain listed) byName, single, List.filterMap_map]
    exact List.filterMap_eq_nil_iff.mpr fun d _ => if_neg fun same => late same.2.symm
  rw [resultFor_outputs, h.ops_only there, named,
    flatMap_only fun s' other => h.calls_other there (by rw [single]; nofun) other,
    h.calls_byName listed byName]
  rfl

/-- The result of a call that is cut out is read by its index, behind the transactions before. -/
theorem Documented.read_cut {pre post : List (String × ℕ)} {n : ℕ} (cut : ¬s.ByName)
    (counted : s.Counted count) (entries : s.entries count = pre ++ (c.tx, n) :: post)
    (enough : c.call < n ∨ s.covers.length ≤ (pre.map Prod.snd).sum + n)
    : resultFor (resultsByOp ((before ++ s :: after).map (Shape.output res)) count)
        c.tx c.op c.call
      = s.covers[(pre.map Prod.snd).sum + c.call]?.map fun d => (res d).clean := by
  have listed : s ∈ before ++ s :: after := List.mem_append_right _ List.mem_cons_self
  have unnamed : ((s.output res).writes count).filterMap (Write.opOf c.tx c.op) = [] :=
    Shape.cut_unnamed h listed cut c.tx c.op
  have first (cs : List CallOp) (named : s = .named cs) : c.op = 0 := by
    subst named
    exact not_not.mp fun later => cut (.inr ⟨c, there, later⟩)
  have nodup := Shape.entries_nodup h listed cut
  rw [entries] at nodup
  rw [resultFor_outputs, h.ops_only there, unnamed,
    flatMap_only fun s' other => h.calls_other there first other,
    Shape.writes_cut h listed cut counted, entries, callWrites_cut _ nodup, List.getLast?_singleton,
    Option.getD_some, List.getLast?_nil, Option.none_or]
  rw [← List.getElem?_map]
  rcases lt_or_ge c.call n with inside | outside
  · rw [List.getElem?_take_of_lt inside, List.getElem?_drop]
  · have short := enough.resolve_left (not_lt.mpr outside)
    rw [List.getElem?_eq_none, List.getElem?_eq_none]
    · rw [List.length_map]
      omega
    · exact (List.length_take_le _ _).trans outside

/-- The result of a call is not read where not all of the transactions are counted. -/
theorem Documented.read_uncounted (cut : ¬s.ByName) (uncounted : ¬s.Counted count)
    : resultFor (resultsByOp ((before ++ s :: after).map (Shape.output res)) count)
        c.tx c.op c.call
      = none := by
  have listed : s ∈ before ++ s :: after := List.mem_append_right _ List.mem_cons_self
  have first (cs : List CallOp) (named : s = .named cs) : c.op = 0 := by
    subst named
    exact not_not.mp fun later => cut (.inr ⟨c, there, later⟩)
  rw [resultFor_outputs, h.ops_only there,
    flatMap_only fun s' other => h.calls_other there first other,
    Shape.writes_uncounted h listed cut uncounted]
  rfl

end Reading

-----------------------------------------------------------------------------------------
-- Which shapes are clear
-----------------------------------------------------------------------------------------

/-- (Right count shapes c) says that a call is given its own result, whatever the results are. -/
def Right (count : String → Option ℕ) (shapes : List Shape) (c : CallOp) : Prop :=
  ∀ res, resultFor (resultsByOp (shapes.map (Shape.output res)) count) c.tx c.op c.call
    = some (res c).clean

/-- A call that is given the result at some position is given its own just if it stands there: other
results may differ from its own.
-/
theorem right_iff_position {i : ℕ}
    (read : ∀ res, resultFor (resultsByOp (shapes.map (Shape.output res)) count) c.tx c.op
        c.call
      = s.covers[i]?.map fun d => (res d).clean)
    : Right count shapes c ↔ s.covers[i]? = some c := by
  constructor
  · intro right
    have marked := (read fun d => ⟨d == c, none⟩).symm.trans (right _)
    obtain ⟨d, at_i, same⟩ := Option.map_eq_some_iff.mp marked
    have alike : (d == c) = (c == c) := congrArg OpResult.ok same
    rw [beq_self_eq_true] at alike
    rwa [← beq_iff_eq.mp alike]
  · intro at_i res
    rw [read res, at_i]
    rfl

/-- A counted transaction whose call is named has calls. -/
theorem Documented.count_pos (h : Documented txs count shapes) (listed : s ∈ shapes)
    (there : c ∈ s.covers) {n : ℕ} (found : count c.tx = some n)
    : c.call < n := by
  obtain ⟨t, member, own, tx⟩ := h.covered listed there
  rw [h.counts t member n (tx ▸ found)]
  exact (List.getElem?_eq_some_iff.mp (Tx.calls_at (Tx.own_calls own).1).2).1

/-- Calls of transactions that are not all counted are not given their results, if there are any. -/
theorem Documented.lost_uncounted (h : Documented txs count (before ++ s :: after))
    (cut : ¬s.ByName) (uncounted : ¬s.Counted count)
    : (∀ c ∈ s.covers, Right count (before ++ s :: after) c) ↔ s.covers = [] := by
  constructor
  · intro right
    refine List.eq_nil_iff_forall_not_mem.mpr fun c there => ?_
    have read := right c there fun _ => ⟨true, none⟩
    rw [h.read_uncounted there cut uncounted] at read
    cases read
  · intro nothing c there
    rw [nothing] at there
    cases there

/-- A single call is given its result just if its operation is the first. -/
theorem clear_single {t : Tx} (h : Documented txs count (before ++ .bare t :: after))
    (single : t.own.length = 1)
    : (∀ c ∈ t.own, Right count (before ++ .bare t :: after) c) ↔ ∀ c ∈ t.own, c.op = 0 := by
  have byName : (Shape.bare t).ByName := single
  refine forall₂_congr fun c there => ⟨fun right => ?_, fun first res => ?_⟩
  · by_contra late
    have read := right fun _ => ⟨true, none⟩
    rw [h.read_late (s := .bare t) there rfl byName late] at read
    cases read
  · refine h.read_byName (s := .bare t) there byName first.symm fun d there' _ _ => ?_
    obtain ⟨e, only⟩ := List.length_eq_one_iff.mp single
    have there' : d ∈ t.own := there'
    rw [only] at there there'
    exact (List.mem_singleton.mp there').trans (List.mem_singleton.mp there).symm

/-- Several calls of a transaction are given their results just if no foreign call is before one. -/
theorem clear_bare {t : Tx} (h : Documented txs count (before ++ .bare t :: after))
    (several : t.own.length ≠ 1)
    : (∀ c ∈ t.own, Right count (before ++ .bare t :: after) c) ↔ Leading t.calls := by
  have right (c : CallOp) (there : c ∈ t.own)
      : Right count (before ++ .bare t :: after) c ↔ t.own[c.call]? = some c := by
    have tx := (Tx.calls_at (Tx.own_calls there).1).1
    refine right_iff_position (s := .bare t) fun res => ?_
    have entries : (Shape.bare t).entries count = [] ++ (c.tx, t.own.length) :: [] := by
      rw [tx]
      rfl
    rw [h.read_cut (s := .bare t) there several trivial entries (.inr (Nat.le_add_left _ _)), List.map_nil,
      List.sum_nil, Nat.zero_add]
  rw [Leading, ← filter_stays_all_iff t.calls_nodup]
  constructor
  · intro all i c at_i ours
    have call := List.mem_of_getElem? at_i
    have there : c ∈ t.own := List.mem_filter.mpr ⟨call, ours⟩
    rw [position_unique t.calls_nodup at_i (Tx.calls_at call).2]
    exact (right c there).mp (all c there)
  · intro stays c there
    obtain ⟨call, ours⟩ := Tx.own_calls there
    exact (right c there).mpr (stays _ c (Tx.calls_at call).2 ours)

/-- Calls of counted transactions are given their results just if no foreign call is before one. -/
theorem clear_sliced {ts : List Tx} (h : Documented txs count (before ++ .sliced ts :: after))
    (counted : (Shape.sliced ts).Counted count)
    : (∀ c ∈ ts.flatMap Tx.own, Right count (before ++ .sliced ts :: after) c)
      ↔ Leading (ts.flatMap Tx.calls) := by
  have listed : Shape.sliced ts ∈ before ++ .sliced ts :: after :=
    List.mem_append_right _ List.mem_cons_self
  obtain ⟨members, once, -⟩ := h.sliced ts listed
  have nodup : (ts.flatMap Tx.calls).Nodup := by
    refine List.nodup_flatMap.mpr ⟨fun t _ => t.calls_nodup, ?_⟩
    refine List.Pairwise.imp_of_mem (fun {t t'} there there' differ => ?_) once
    intro c hc hc'
    have same := (Tx.calls_at hc).1.symm.trans (Tx.calls_at hc').1
    exact differ (tx_unique h.ids (members t there) (members t' there') same)
  have own : ts.flatMap Tx.own = (ts.flatMap Tx.calls).filter CallOp.ours :=
    List.filter_flatMap.symm
  have position (c : CallOp) (there : c ∈ ts.flatMap Tx.calls)
      : ∃ i : ℕ, (ts.flatMap Tx.calls)[i]? = some c
        ∧ (c.ours = true → (Right count (before ++ .sliced ts :: after) c
          ↔ (ts.flatMap Tx.own)[i]? = some c)) := by
    obtain ⟨t, inside, call⟩ := List.mem_flatMap.mp there
    obtain ⟨pre, post, rfl⟩ := List.append_of_mem inside
    obtain ⟨tx, at_call⟩ := Tx.calls_at call
    have short := (List.getElem?_eq_some_iff.mp at_call).1
    have start : ((pre.map fun t => (t.id, t.calls.length)).map Prod.snd).sum
        = (pre.flatMap Tx.calls).length := by
      rw [List.map_map, List.length_flatMap]
      rfl
    refine ⟨(pre.flatMap Tx.calls).length + c.call, ?_, fun ours => ?_⟩
    · rw [List.flatMap_append, List.getElem?_append_right (Nat.le_add_right _ _),
        Nat.add_sub_cancel_left, List.flatMap_cons, List.getElem?_append_left short]
      exact at_call
    · have covered : c ∈ (Shape.sliced (pre ++ t :: post)).covers :=
        List.mem_flatMap.mpr ⟨t, inside, List.mem_filter.mpr ⟨call, ours⟩⟩
      have entries : (Shape.sliced (pre ++ t :: post)).entries count
          = (pre.map fun t => (t.id, t.calls.length))
            ++ (c.tx, t.calls.length) :: post.map fun t => (t.id, t.calls.length) := by
        rw [Shape.entries, List.map_append, List.map_cons, tx]
      refine right_iff_position (s := .sliced (pre ++ t :: post)) fun res => ?_
      rw [h.read_cut covered id counted entries (.inl short), start]
  rw [Leading, ← filter_stays_all_iff nodup, ← own]
  constructor
  · intro all i c at_i ours
    have call := List.mem_of_getElem? at_i
    obtain ⟨j, at_j, right⟩ := position c call
    rw [position_unique nodup at_i at_j]
    exact (right ours).mp (all c (own ▸ List.mem_filter.mpr ⟨call, ours⟩))
  · intro stays c there
    obtain ⟨call, ours⟩ := List.mem_filter.mp (own ▸ there : c ∈ (ts.flatMap Tx.calls).filter _)
    obtain ⟨j, at_j, right⟩ := position c call
    exact (right ours).mpr (stays j c at_j ours)

/-- First operations that are named by their transactions are given their results just if these,
except for the last, make one call each: otherwise the next one is given a later result.
-/
theorem clear_named {cs : List CallOp} (h : Documented txs count (before ++ .named cs :: after))
    (cut : ¬(Shape.named cs).ByName) (known : (Shape.named cs).Counted count)
    : (∀ c ∈ cs, Right count (before ++ .named cs :: after) c)
      ↔ ∀ c ∈ cs.dropLast, count c.tx = some 1 := by
  have listed : Shape.named cs ∈ before ++ .named cs :: after :=
    List.mem_append_right _ List.mem_cons_self
  have once : cs.Nodup := (List.nodup_flatMap.mp h.nodup).1 _ listed
  let calls (c : CallOp) : ℕ := (count c.tx).getD 0
  have counted (c : CallOp) (there : c ∈ cs) : count c.tx = some (calls c) := by
    obtain ⟨n, found⟩ := Option.isSome_iff_exists.mp (known c there)
    rw [found, show calls c = n from congrArg (Option.getD · 0) found]
  have stands {pre post : List CallOp} {c : CallOp} (split : cs = pre ++ c :: post)
      : cs[pre.length]? = some c := by
    rw [split, List.getElem?_append_right le_rfl, Nat.sub_self]
    rfl
  have right {pre post : List CallOp} {c : CallOp} (split : cs = pre ++ c :: post)
      : Right count (before ++ .named cs :: after) c ↔ (pre.map calls).sum = pre.length := by
    have there : c ∈ cs := split ▸ List.mem_append_right _ List.mem_cons_self
    have first : c.op = 0 := not_not.mp fun later => cut (.inr ⟨c, there, later⟩)
    obtain ⟨t, member, own, -⟩ := h.covered listed there
    have call := Tx.calls_first (Tx.own_calls own).1 first
    have some_call := h.count_pos listed there (counted c there)
    have entries : (Shape.named cs).entries count
        = (pre.map fun c => (c.tx, calls c)) ++ (c.tx, calls c)
          :: post.map fun c => (c.tx, calls c) := by
      rw [Shape.entries, split, List.map_append, List.map_cons]
    have start : ((pre.map fun c => (c.tx, calls c)).map Prod.snd).sum = (pre.map calls).sum := by
      rw [List.map_map]
      rfl
    have position : Right count (before ++ .named cs :: after) c
        ↔ cs[(pre.map calls).sum]? = some c := by
      refine right_iff_position (s := .named cs) fun res => ?_
      rw [h.read_cut there cut known entries (.inl some_call), start, call, Nat.add_zero]
    rw [position]
    exact ⟨fun at_sum => position_unique once at_sum (stands split),
      fun same => same ▸ stands split⟩
  constructor
  · intro all c there
    have some_call : cs ≠ [] := by
      rintro rfl
      cases there
    obtain ⟨pre, post, split⟩ := List.append_of_mem there
    have whole := List.dropLast_append_getLast some_call
    rw [split, List.append_assoc, List.cons_append] at whole
    obtain ⟨d, rest, next⟩ := List.exists_cons_of_ne_nil
      (show post ++ [cs.getLast some_call] ≠ [] from List.append_ne_nil_of_right_ne_nil _ nofun)
    rw [next] at whole
    have here := (right whole.symm).mp (all c (List.dropLast_subset cs there))
    have split' : cs = (pre ++ [c]) ++ d :: rest := by rw [← whole]; simp
    have there' : d ∈ cs := split' ▸ List.mem_append_right _ List.mem_cons_self
    have later := (right split').mp (all d there')
    rw [List.map_append, List.sum_append, here] at later
    simp only [List.map_cons, List.map_nil, List.sum_cons, List.sum_nil, List.length_append,
      List.length_cons, List.length_nil] at later
    rw [counted c (List.dropLast_subset cs there)]
    congr 1
    omega
  · intro ones c there
    obtain ⟨pre, post, split⟩ := List.append_of_mem there
    refine (right split).mpr ?_
    have all : ∀ d ∈ pre, calls d = 1 := by
      intro d inside
      have one := ones d (by
        rw [split, List.dropLast_append_cons]
        exact List.mem_append_left _ inside)
      exact congrArg (Option.getD · 0) one
    rw [List.map_congr_left all, List.map_const', List.sum_replicate_nat, Nat.mul_one]

/-- The calls that an output covers are given their results just if its shape is clear. -/
theorem Shape.clear_iff (h : Documented txs count (before ++ s :: after))
    : (∀ c ∈ s.covers, Right count (before ++ s :: after) c) ↔ s.Clear count := by
  have listed : s ∈ before ++ s :: after := List.mem_append_right _ List.mem_cons_self
  cases s with
  | named cs =>
      by_cases byName : (Shape.named cs).ByName
      · refine iff_of_true (fun c there res => ?_) ?_
        · obtain ⟨t, member, own, -⟩ := h.covered listed there
          refine h.read_byName there byName rfl fun d there' tx op => ?_
          obtain ⟨t', member', own', -⟩ := h.covered listed there'
          exact call_unique h.ids member' member (Tx.own_calls own').1 (Tx.own_calls own).1 tx op
        · rcases byName with few | later
          · exact .inl few
          · exact .inr (.inl later)
      obtain ⟨many, first⟩ := not_or.mp byName
      by_cases counted : (Shape.named cs).Counted count
      · refine (clear_named h byName counted).trans ⟨fun ones => .inr (.inr ⟨counted, ones⟩), ?_⟩
        rintro (few | later | ⟨-, ones⟩)
        · exact absurd few many
        · exact absurd later first
        · exact ones
      · refine (h.lost_uncounted byName counted).trans ⟨fun nothing => ?_, ?_⟩
        · have nothing : cs = [] := nothing
          exact absurd (nothing ▸ Nat.zero_le 1) many
        · rintro (few | later | ⟨known, -⟩)
          · exact absurd few many
          · exact absurd later first
          · exact absurd known counted
  | bare t =>
      by_cases single : t.own.length = 1
      · exact (clear_single h single).trans (if_pos single : (Shape.bare t).Clear count = _).to_iff.symm
      · exact (clear_bare h single).trans (if_neg single : (Shape.bare t).Clear count = _).to_iff.symm
  | sliced ts =>
      by_cases counted : (Shape.sliced ts).Counted count
      · refine (clear_sliced h counted).trans ⟨fun leading => .inr ⟨counted, leading⟩, ?_⟩
        rintro (nothing | ⟨-, leading⟩)
        · refine (clear_sliced h counted).mp fun c there => ?_
          rw [nothing] at there
          cases there
        · exact leading
      · refine (h.lost_uncounted id counted).trans ⟨.inl, ?_⟩
        rintro (nothing | ⟨known, -⟩)
        · exact nothing
        · exact absurd known counted

/-- Every call of this contract is given its own result, whatever the results are, exactly if every
output has a clear shape.
-/
theorem results_reach_iff (documented : Documented txs count shapes)
    : (∀ res : CallOp → RawResult, ∀ t ∈ txs, ∀ c ∈ t.calls, c.ours = true
        → resultFor (resultsByOp (shapes.map (Shape.output res)) count) t.id c.op c.call
          = some (res c).clean)
      ↔ ∀ s ∈ shapes, s.Clear count := by
  constructor
  · intro reach s listed
    obtain ⟨before, after, rfl⟩ := List.append_of_mem listed
    refine (Shape.clear_iff documented).mp fun c there res => ?_
    obtain ⟨t, member, own, tx⟩ := documented.covered listed there
    obtain ⟨call, ours⟩ := Tx.own_calls own
    rw [tx]
    exact reach res t member c call ours
  · intro clear res t member c call ours
    have own : c ∈ txs.flatMap Tx.own :=
      List.mem_flatMap.mpr ⟨t, member, List.mem_filter.mpr ⟨call, ours⟩⟩
    obtain ⟨s, listed, there⟩ := List.mem_flatMap.mp (documented.covers.mem_iff.mpr own)
    obtain ⟨before, after, rfl⟩ := List.append_of_mem listed
    rw [← (Tx.calls_at call).1]
    exact (Shape.clear_iff documented).mpr (clear s listed) c there res

def someTxs : List Tx :=
  [⟨"ba37", [.call false, .call true]⟩, ⟨"b660", [.call true, .other, .call true]⟩,
    ⟨"t1", [.call true]⟩, ⟨"t2", [.call true, .call true]⟩]

def someShapes : List Shape :=
  [.named [⟨"ba37", 1, 1, true⟩], .bare ⟨"b660", [.call true, .other, .call true]⟩,
    .sliced [⟨"t1", [.call true]⟩, ⟨"t2", [.call true, .call true]⟩]]

/-- Only the transactions that are answered together are counted. -/
theorem results_reach_production
    : Documented someTxs (callCount (someTxs.drop 2)) someShapes
      ∧ ∀ res : CallOp → RawResult, ∀ t ∈ someTxs, ∀ c ∈ t.calls, c.ours = true
        → resultFor (resultsByOp (someShapes.map (Shape.output res))
            (callCount (someTxs.drop 2))) t.id c.op c.call
          = some (res c).clean := by
  have documented : Documented someTxs (callCount (someTxs.drop 2)) someShapes := by
    have ids : (someTxs.map Tx.id).Nodup := by decide
    refine ⟨fun t there n => callCount_right ids (fun t => List.mem_of_mem_drop) there, ids, ?_, ?_,
      ?_, by decide⟩
    · intro t there
      have known : t.id ∈ someTxs.map Tx.id := List.mem_map_of_mem there
      generalize t.id = id at known
      simp only [someTxs, List.map_cons, List.map_nil, List.mem_cons, List.not_mem_nil,
        or_false] at known
      rcases known with rfl | rfl | rfl | rfl
      all_goals exact ⟨by decide, by decide⟩
    · intro t there
      simp only [someShapes, List.mem_cons, List.not_mem_nil, or_false, reduceCtorEq, false_or,
        Shape.bare.injEq] at there
      rw [there]
      simp [someTxs]
    · intro ts there
      simp only [someShapes, List.mem_cons, List.not_mem_nil, or_false, reduceCtorEq, false_or,
        Shape.sliced.injEq] at there
      rw [there]
      simp [someTxs]
  refine ⟨documented, (results_reach_iff documented).mpr ?_⟩
  intro s there
  simp only [someShapes, List.mem_cons, List.not_mem_nil, or_false] at there
  rcases there with rfl | rfl | rfl
  · exact .inl (by decide)
  · unfold Shape.Clear Leading
    decide
  · unfold Shape.Clear Leading Shape.Counted
    exact .inr (by decide)

/-- The result of a transaction's only call, which is not its first operation, is lost: one bare
name and one result are taken for the first operation.
-/
theorem result_of_late_call_lost
    : ¬∀ (txs : List Tx) (shapes : List Shape), Documented txs (callCount txs) shapes
      → ∀ res : CallOp → RawResult, ∀ t ∈ txs, ∀ c ∈ t.calls, c.ours = true
        → resultFor (resultsByOp (shapes.map (Shape.output res)) (callCount txs)) t.id c.op c.call
          = some (res c).clean := by
  intro reach
  have documented : Documented [⟨"t", [.other, .call true]⟩]
      (callCount [⟨"t", [.other, .call true]⟩]) [.bare ⟨"t", [.other, .call true]⟩] := by
    have ids : ([⟨"t", [.other, .call true]⟩] : List Tx).map Tx.id |>.Nodup := by decide
    refine ⟨fun t there n => callCount_right ids (fun t => id) there, ids, ?_, ?_, ?_, by decide⟩
    · intro t there
      obtain rfl := List.mem_singleton.mp there
      exact ⟨by decide, by decide⟩
    · intro t there
      obtain ⟨rfl⟩ := List.mem_singleton.mp there
      exact List.mem_singleton_self _
    · intro ts there
      cases List.mem_singleton.mp there
  have found := reach _ _ documented (fun _ => ⟨true, some "a"⟩) _ (List.mem_singleton_self _)
    ⟨"t", 1, 0, true⟩ (by decide) rfl
  revert found
  decide

end LasseCash.Api.OpResults
