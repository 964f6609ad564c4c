import LasseCash.Node.MigTree
import LasseCash.State.HardCap
import LasseCash.State.MintTerms
import LasseCash.State.WalkEnds

/-! The snapshot end to end: the tree that is built off-chain, its commitment, and the claims
against it in any order.
-/

namespace LasseCash.State

open Engine MachineInt Function Program Node

-----------------------------------------------------------------------------------------
-- Presenting a leaf
-----------------------------------------------------------------------------------------

/-- The digests of a proof argument. -/
def decodeProof (proofHex : List String) : Option (List Hash) :=
  proofHex.mapM fun p => hexToHash (trimSpace p)

/-- What a request presents against the committed root: a leaf and a proof. -/
def Request.presents (q : Request) : Option (Leaf × List String) :=
  match q.action with
  | .claimMigration liquid staked proofHex =>
      some (⟨q.ctx.sender, liquid.toInt, staked.toInt, false⟩, proofHex)
  | .recordBurn account liquid staked proofHex =>
      some (⟨account, liquid.toInt, staked.toInt, true⟩, proofHex)
  | _ => none

/-- As many digests are read as are written, by induction on the argument. -/
theorem decodeProof_digests {proofHex : List String} {proof : List Hash}
    (decoded : decodeProof proofHex = some proof)
    : proof.length = proofHex.length ∧ ∀ h ∈ proof, IsDigest h := by
  unfold decodeProof at decoded
  induction proofHex generalizing proof with
  | nil =>
      cases decoded
      exact ⟨rfl, nofun⟩
  | cons p rest ih =>
      simp only [List.mapM_cons, Option.bind_eq_bind, Option.bind_eq_some_iff] at decoded
      obtain ⟨h, read, tail, readRest, made⟩ := decoded
      cases made
      obtain ⟨length, digests⟩ := ih readRest
      refine ⟨by simpa using length, ?_⟩
      rintro s (_ | ⟨_, later⟩)
      · exact hexToHash_length read
      · exact digests s later

/-- A text without white space is left alone. -/
theorem trimSpace_word {s : String} (word : ∀ c ∈ s.toList, isSpace c = false)
    : trimSpace s = s := by
  have stays (l : List Char) (word : ∀ c ∈ l, isSpace c = false) : l.dropWhile isSpace = l := by
    cases l with
    | nil => rfl
    | cons c rest => simp [word c List.mem_cons_self]
  unfold trimSpace
  rw [stays _ word, stays _ (fun c member => word c (List.mem_reverse.mp member)),
    List.reverse_reverse, String.ofList_toList]

/-- Hex characters are no white space. -/
theorem hashToHex_word (h : Hash) : ∀ c ∈ (hashToHex h).toList, isSpace c = false := by
  have digit : ∀ n < 16, isSpace (hexDigits.getD n '0') = false := by decide
  intro c member
  rw [hashToHex, String.toList_ofList] at member
  obtain ⟨b, _, here⟩ := List.mem_flatMap.mp member
  obtain ⟨high, low, _⟩ := byte_halves b
  rcases List.mem_pair.mp here with rfl | rfl
  · exact digit _ high
  · exact digit _ low

/-- A published proof is read back, by induction on it. -/
theorem decodeProof_published {proof : List Hash} (digests : ∀ h ∈ proof, IsDigest h)
    : decodeProof (proof.map hashToHex) = some proof := by
  unfold decodeProof
  induction proof with
  | nil => rfl
  | cons h rest ih =>
      have read : hexToHash (trimSpace (hashToHex h)) = some h := by
        rw [trimSpace_word (hashToHex_word h)]
        exact hexToHash_hashToHex (digests h List.mem_cons_self)
      rw [List.map_cons, List.mapM_cons, read,
        ih fun s member => digests s (List.mem_cons_of_mem _ member)]
      rfl

/-- A leaf is verified against a root by a proof that is read. -/
theorem verifyLeaf_iff {root : Hash} (digest : IsDigest root) (leaf : Leaf)
    (proofHex : List String)
    : verifyLeaf (hashToHex root) leaf.account leaf.liquid leaf.staked leaf.burned proofHex = true
      ↔ ∃ proof, decodeProof proofHex = some proof ∧ verifyProof leaf.hash proof root = true := by
  unfold verifyLeaf
  rw [hexToHash_hashToHex digest]
  constructor
  · intro verified
    dsimp only at verified
    split at verified
    · cases verified
    split at verified
    · cases verified
    · exact ⟨_, by assumption, verified⟩
  · rintro ⟨proof, decoded, verified⟩
    have short : proof.length ≤ maxProofLen := by
      by_contra long
      rw [verifyProof, if_pos (not_le.mp long)] at verified
      cases verified
    rw [(decodeProof_digests decoded).1] at short
    dsimp only
    rw [if_neg (not_lt.mpr short), show proofHex.mapM _ = some proof from decoded]
    exact verified

-----------------------------------------------------------------------------------------
-- A success has verified its leaf
-----------------------------------------------------------------------------------------

/-- (Verified r leaf proofHex) says that a leaf was presented with amounts that are accepted and
a proof that the committed root verifies.
-/
structure Verified (r : Rows) (leaf : Leaf) (proofHex : List String) : Prop where
  liquid : 0 ≤ leaf.liquid
  staked : 0 ≤ leaf.staked
  root : ∃ rootHex, r.migRoot = some rootHex
    ∧ verifyLeaf rootHex leaf.account leaf.liquid leaf.staked leaf.burned proofHex = true

/-- Accepted amounts are not negative. -/
theorem goodPosition_nonneg {liquid staked : Int} (good : ¬badPosition liquid staked = true)
    : 0 ≤ liquid ∧ 0 ≤ staked := by
  unfold badPosition at good
  simp only [Bool.or_eq_true, decide_eq_true_eq, not_or, not_lt] at good
  exact good.1

variable {r : Rows}

theorem claimMigration_verified (ctx : Ctx) (liquid staked : Int) (proofHex : List String)
    : (claimMigration ctx liquid staked proofHex).Always rowsMay
      (fun res _ => res.ok = true → Verified r ⟨ctx.sender, liquid, staked, false⟩ proofHex) r := by
  simp only [claimMigration, always_bind, always_rows, always_ite, always_pure]
  refine ⟨fun _ => of_refused, fun _ => ?_⟩
  cases committed : r.migRoot with
  | none => exact of_refused
  | some rootHex =>
      simp only [always_ite, always_pure]
      refine ⟨fun _ => of_refused, fun _ => ⟨fun _ => of_refused, fun _ => ⟨fun _ => of_refused, fun good =>
        ⟨fun _ => of_refused, fun _ => ⟨fun _ => of_refused, fun passed => ?_⟩⟩⟩⟩⟩
      obtain ⟨hl, hs⟩ := goodPosition_nonneg good
      exact always_intro fun _ _ _ => ⟨hl, hs, rootHex, committed, by simpa using passed⟩

theorem recordBurn_verified (account : String) (liquid staked : Int) (proofHex : List String)
    : (recordBurn account liquid staked proofHex).Always rowsMay
      (fun res _ => res.ok = true → Verified r ⟨account, liquid, staked, true⟩ proofHex) r := by
  simp only [recordBurn, always_bind, always_rows]
  cases committed : r.migRoot with
  | none => exact of_refused
  | some rootHex =>
      simp only [always_ite, always_pure]
      refine ⟨fun _ => of_refused, fun good => ⟨fun _ => of_refused, fun _ => ⟨fun _ => of_refused,
        fun passed => ?_⟩⟩⟩
      obtain ⟨hl, hs⟩ := goodPosition_nonneg (not_or.mp good).2
      exact always_intro fun _ _ _ => ⟨hl, hs, rootHex, committed, by simpa using passed⟩

variable {A : Type} [Assets A]

/-- A request that succeeds has verified what it presents, by cases on its action. -/
theorem Request.exec_verified {q : Request} {w : World A} {leaf : Leaf} {proofHex : List String}
    (presents : q.presents = some (leaf, proofHex)) (success : (q.exec w).2.ok = true)
    : Verified w.rows leaf proofHex := by
  have result : (q.exec w).2 = (q.action.exec q.ctx w).2 := rfl
  rw [result] at success
  unfold Request.presents at presents
  generalize q.action = action at presents success
  cases action <;> simp only [reduceCtorEq, Option.some.injEq, Prod.mk.injEq] at presents
  case claimMigration liquid staked proofHex =>
      obtain ⟨rfl, rfl⟩ := presents
      exact always_serve (claimMigration_verified q.ctx _ _ proofHex) success
  case recordBurn account liquid staked proofHex =>
      obtain ⟨rfl, rfl⟩ := presents
      exact always_serve (recordBurn_verified account _ _ proofHex) success

theorem setSnapshot_ready (rootHex : String) (qualifierTotal burnTotal : Int)
    : (setSnapshot rootHex qualifierTotal burnTotal).Always rowsMay
      (fun res _ => res.ok = true → r.init = true) r := by
  cases ready : r.init with
  | true => exact always_intro fun _ _ _ => rfl
  | false =>
      simp only [setSnapshot, always_bind, always_rows, always_ite, always_pure, ready]
      exact ⟨fun _ => of_refused, fun initialised => absurd rfl initialised⟩

/-- A commitment succeeds only after `Init`. -/
theorem Request.exec_ready {q : Request} {w : World A} {root : String} {qualifierTotal burnTotal : Int}
    (event : q.action.event q.ctx w.rows = some (.commit root qualifierTotal burnTotal))
    (success : (q.exec w).2.ok = true)
    : w.rows.init = true := by
  have result : (q.exec w).2 = (q.action.exec q.ctx w).2 := rfl
  rw [result] at success
  generalize q.action = action at event success
  cases action <;> cases event
  exact always_serve (setSnapshot_ready _ _ _) success

-----------------------------------------------------------------------------------------
-- Claims of a run
-----------------------------------------------------------------------------------------

/-- A leaf that was claimed, with the proof argument. -/
abbrev Claimed := Leaf × List String

/-- What a request claims when it succeeds. -/
def Request.claims (q : Request) : List Claimed :=
  match q.action with
  | .claimMigration liquid staked proofHex =>
      [(⟨q.ctx.sender, liquid.toInt, staked.toInt, false⟩, proofHex)]
  | _ => []

/-- (q.ClaimsBy e) says what the request presents and claims if its success is the event `e`. -/
def Request.ClaimsBy (q : Request) : Event → Prop
  | .claim account liquid staked => ∃ proofHex,
      q.presents = some (⟨account, liquid, staked, false⟩, proofHex)
        ∧ q.claims = [(⟨account, liquid, staked, false⟩, proofHex)]
  | .record account liquid staked => q.claims = [] ∧ ∃ proofHex,
      q.presents = some (⟨account, liquid, staked, true⟩, proofHex)
  | _ => q.claims = []

/-- Only claims claim, by cases on the action. -/
theorem Request.of_event {q : Request} {r : Rows} {e : Event}
    (event : q.action.event q.ctx r = some e)
    : q.ClaimsBy e := by
  obtain ⟨ctx, action, unwinds⟩ := q
  cases action <;> cases event
  case claimMigration liquid staked proofHex => exact ⟨proofHex, rfl, rfl⟩
  case recordBurn account liquid staked proofHex => exact ⟨rfl, proofHex, rfl⟩
  all_goals rfl

theorem Request.of_quiet {q : Request} {r : Rows} (quiet : q.action.event q.ctx r = none)
    : q.claims = [] := by
  unfold Request.claims
  generalize q.action = action at quiet ⊢
  cases action <;> first | rfl | cases quiet

/-- The claims that succeed in a sequence of requests, in order. -/
def claimsMade : World A → List Request → List Claimed
  | _, [] => []
  | w, q :: rest =>
      (if (q.exec w).2.ok then q.claims else []) ++ claimsMade (q.exec w).1 rest

/-- The accounts of some claims, and what they come to. -/
def claimants (made : List Claimed) : List String := made.map (·.1.account)

def claimedSum (made : List Claimed) : Int := (made.map fun c => c.1.liquid + c.1.staked).sum

theorem claimants_concat (made : List Claimed) (c : Claimed)
    : claimants (made ++ [c]) = claimants made ++ [c.1.account] := by
  simp [claimants]

/-- (Publishes t e proof) says that the tree publishes this proof for the position `e`. -/
def Publishes (t : Tree) (e : Node.Entry) (proof : List Hash) : Prop :=
  ∃ j : Nat, t.entries[j]? = some e ∧ t.proofs[j]? = some proof

/-- (Committed t r) says that the root and the totals of the tree are the committed ones. -/
structure Committed (t : Tree) (r : Rows) : Prop where
  root : r.migRoot = some t.rootHex
  total : r.getAmount .migTotal = t.qualifierTotal
  burned : r.getAmount .migBurn = t.burnTotal

/-- (OwnClaim t c) says that `c` claims a qualifying position of the tree with the proof that the
tree publishes for it.
-/
def OwnClaim (t : Tree) (c : Claimed) : Prop :=
  ∃ e proof, Publishes t e proof ∧ e.burned = false ∧ c.1 = e.leaf ∧ decodeProof c.2 = some proof

/-- (Honours t now r made) says what holds at `now` of a committed tree after the claims `made`. -/
structure Honours (t : Tree) (now : Nat) (r : Rows) (made : List Claimed) : Prop where
  covered : (booksOf r).Covered (claimDeadlineHeight r) now
  once : (claimants made).Nodup
  own : ∀ c ∈ made, OwnClaim t c
  filed : ∀ a ∈ claimants made, r.migDone a ≠ none
  known : ∀ a, r.migDone a ≠ none
    → a ∈ claimants made ∨ ∃ e ∈ t.entries, e.burned = true ∧ e.account = a
  claimed : r.getAmount .migClaimed = claimedSum made

/-- (SnapshotRun t now r made) is the invariant of runs: before any commitment nothing is filed, and
once the tree is committed its claims are honoured.
-/
structure SnapshotRun (t : Tree) (now : Nat) (r : Rows) (made : List Claimed) : Prop where
  settled : Settled r
  init : r.migRoot ≠ none → r.init = true
  before : r.migRoot = none
    → (booksOf r).Covered (claimDeadlineHeight r) now ∧ made = [] ∧ ∀ a, r.migDone a = none
  after : Committed t r → Honours t now r made

/-- The books and the deadline are all that is honoured. -/
theorem Honours.of_books {t : Tree} {now later : Nat} {r r' : Rows} {made : List Claimed}
    (h : Honours t now r made) (le : now ≤ later) (books : booksOf r' = booksOf r)
    (genesis : genesisHeight r' = genesisHeight r)
    : Honours t later r' made where
  covered := by
    rw [books, claimDeadline_eq genesis]
    exact h.covered.later le
  once := h.once
  own := h.own
  filed a member := by
    rw [show r'.migDone = r.migDone from congrArg Books.done books]
    exact h.filed a member
  known a filed := by
    rw [show r'.migDone = r.migDone from congrArg Books.done books] at filed
    exact h.known a filed
  claimed := (congrArg Books.claimed books).trans h.claimed

theorem Committed.of_books {t : Tree} {r r' : Rows} (h : Committed t r')
    (root : r'.migRoot = r.migRoot) (total : r'.getAmount .migTotal = r.getAmount .migTotal)
    (burned : r'.getAmount .migBurn = r.getAmount .migBurn)
    : Committed t r :=
  ⟨root ▸ h.root, total ▸ h.total, burned ▸ h.burned⟩

/-- A request that leaves the books alone keeps the invariant. -/
theorem SnapshotRun.of_books {t : Tree} {now later : Nat} {r r' : Rows} {made : List Claimed}
    (h : SnapshotRun t now r made) (settled : Settled r') (le : now ≤ later)
    (books : booksOf r' = booksOf r) (evolves : Evolves r r')
    : SnapshotRun t later r' made where
  settled := settled
  init known := by
    have root : r'.migRoot = r.migRoot := congrArg Books.root books
    exact evolves.init.trans (h.init (root ▸ known))
  before none := by
    have root : r'.migRoot = r.migRoot := congrArg Books.root books
    obtain ⟨covered, empty, fresh⟩ := h.before (root ▸ none)
    refine ⟨?_, empty, fun a => ?_⟩
    · rw [books, claimDeadline_eq evolves.genesis]
      exact covered.later le
    · exact (congrFun (congrArg Books.done books) a).trans (fresh a)
  after committed :=
    (h.after (committed.of_books (congrArg Books.root books) (congrArg Books.total books)
      (congrArg Books.burned books))).of_books le books evolves.genesis

-----------------------------------------------------------------------------------------
-- A faithful snapshot
-----------------------------------------------------------------------------------------

/-- (Faithful leaves nodes snap) says that a snapshot has sound positions, no more of them than proofs
can tell apart and no more value than a word holds beside all emission, and that SHA-256 has no
collision among `leaves` and `nodes`, which are what its tree hashes and perhaps more.
-/
structure Faithful (leaves nodes : Set (List UInt8)) (snap : Snapshot) : Prop where
  sound : SoundEntries snap.entries
  some_entry : snap.entries ≠ []
  few : snap.entries.length ≤ 2 ^ maxProofLen
  fits : worth snap.entries + emissionCap < 2 ^ 63
  apart : TellsApart leaves nodes
  tree : TreeHashes leaves nodes (snap.entries.map Node.Entry.leaf)

/-- What a request presents is hashed within `leaves` and `nodes`. -/
def Request.Hashes (leaves nodes : Set (List UInt8)) (q : Request) : Prop :=
  ∀ leaf proofHex proof, q.presents = some (leaf, proofHex) → decodeProof proofHex = some proof
    → ProofHashes leaves nodes leaf proof

section Faithfulness

variable {leaves nodes : Set (List UInt8)} {snap : Snapshot}

theorem build_hashes (snap : Snapshot)
    : snap.entries.map (fun e => e.leaf.hash) = (snap.entries.map Node.Entry.leaf).map Leaf.hash := by
  rw [List.map_map]
  rfl

/-- The tree of a faithful snapshot: a proof for every position, of digests, which is verified. -/
theorem Faithful.complete (h : Faithful leaves nodes snap)
    : IsDigest (build snap).root ∧ (build snap).proofs.length = snap.entries.length
      ∧ ∀ e proof, Publishes (build snap) e proof
        → verifyProof e.leaf.hash proof (build snap).root = true ∧ ∀ d ∈ proof, IsDigest d := by
  have hashes := build_hashes snap
  have complete := buildTree_complete (snap.entries.map fun e => e.leaf.hash)
    (hashes ▸ Leaf.hashes_digests _) (by simpa using h.some_entry) (by simpa using h.few)
  refine ⟨complete.1, complete.2.1.trans (List.length_map _), ?_⟩
  rintro e proof ⟨j, entry, published⟩
  have entry : snap.entries[j]? = some e := entry
  exact complete.2.2 j e.leaf.hash proof (by simp [entry]) published

/-- What is verified against the root of a faithful snapshot is a position of it, with its own
proof.
-/
theorem Faithful.own (h : Faithful leaves nodes snap) {r : Rows} {leaf : Leaf}
    {proofHex : List String} (committed : Committed (build snap) r)
    (verified : Verified r leaf proofHex)
    (hashes : ∀ proof, decodeProof proofHex = some proof → ProofHashes leaves nodes leaf proof)
    : ∃ e proof, Publishes (build snap) e proof ∧ leaf = e.leaf
      ∧ decodeProof proofHex = some proof := by
  obtain ⟨rootHex, root, passed⟩ := verified.root
  obtain rfl : (build snap).rootHex = rootHex :=
    Option.some.inj (committed.root.symm.trans root)
  obtain ⟨proof, decoded, passed⟩ := (verifyLeaf_iff h.complete.1 leaf proofHex).mp passed
  have nonneg : ∀ l ∈ leaf :: snap.entries.map Node.Entry.leaf, 0 ≤ l.liquid ∧ 0 ≤ l.staked := by
    rintro l (_ | ⟨_, member⟩)
    · exact ⟨verified.liquid, verified.staked⟩
    · obtain ⟨e, there, rfl⟩ := List.mem_map.mp member
      exact ⟨(h.sound.sound e there).liquid, (h.sound.sound e there).staked⟩
  have tree_root : (build snap).root
      = (buildTree ((snap.entries.map Node.Entry.leaf).map Leaf.hash)).1 := by
    rw [← build_hashes]
    rfl
  obtain ⟨j, at_leaf, published⟩ := h.apart.only_leaves h.tree (hashes proof decoded)
    (decodeProof_digests decoded).2 (by simpa using h.some_entry) (by simpa using h.few) nonneg
    (tree_root ▸ passed)
  obtain ⟨e, entry, rfl⟩ : ∃ e, snap.entries[j]? = some e ∧ e.leaf = leaf := by
    simpa using at_leaf
  rw [← build_hashes] at published
  exact ⟨e, proof, ⟨j, entry, published⟩, rfl, decoded⟩

/-- The totals of a faithful snapshot are exact. -/
theorem Faithful.totals (h : Faithful leaves nodes snap)
    : (build snap).qualifierTotal = worth (qualifying snap.entries)
      ∧ (build snap).qualifierTotal + (build snap).burnTotal + emissionCap < 2 ^ 63 := by
  have fits := h.fits
  obtain ⟨total, burned⟩ := build_totals h.sound.sound
    (by unfold emissionCap at fits; omega)
  refine ⟨total, ?_⟩
  rw [total, burned, ← worth_split]
  exact fits

-----------------------------------------------------------------------------------------
-- Steps of a run
-----------------------------------------------------------------------------------------

variable {r r' : Rows} {now later : Nat} {made : List Claimed}

/-- A commitment of the tree has nothing to honour yet. -/
theorem SnapshotRun.commit (h : Faithful leaves nodes snap)
    (run : SnapshotRun (build snap) now r made) (le : now ≤ later) {root : String} {q b : Int}
    (admitted : (booksOf r).Admits (claimDeadlineHeight r) later (.commit root q b))
    (applied : booksOf r' = (booksOf r).apply (.commit root q b)) (settled : Settled r')
    (evolves : Evolves r r') (ready : r.init = true)
    : SnapshotRun (build snap) later r' made where
  settled := settled
  init _ := evolves.init.trans ready
  before none := by
    have committed : r'.migRoot = some root := congrArg Books.root applied
    rw [none] at committed
    cases committed
  after committed := by
    have uncommitted : r.migRoot = none := admitted.1
    obtain ⟨covered, rfl, fresh⟩ := run.before uncommitted
    have total : q = (build snap).qualifierTotal :=
      (congrArg Books.total applied).symm.trans committed.total
    have burned : b = (build snap).burnTotal :=
      (congrArg Books.burned applied).symm.trans committed.burned
    have unclaimed : r.getAmount .migClaimed = 0 := by
      have none_total := (covered.uncommitted uncommitted).1
      have claimed_le := covered.claimed_le
      have claimed_nonneg := covered.claimed_nonneg
      simp only [booksOf_total, booksOf_claimed] at *
      omega
    have done : r'.migDone = r.migDone := congrArg Books.done applied
    refine ⟨?_, List.nodup_nil, nofun, nofun, fun a filed => ?_, ?_⟩
    · rw [applied, claimDeadline_eq evolves.genesis]
      refine (covered.later le).step admitted nofun ?_
      rintro _ _ _ ⟨⟩
      rw [total, burned]
      exact h.totals.2
    · exact absurd (done ▸ fresh a) filed
    · exact (congrArg Books.claimed applied).trans unclaimed

/-- A claim of the tree's own position is honoured. -/
theorem Honours.claim {t : Tree} (h : Honours t now r made) (le : now ≤ later) {c : Claimed}
    (own : OwnClaim t c)
    (admitted : (booksOf r).Admits (claimDeadlineHeight r) later
      (.claim c.1.account c.1.liquid c.1.staked))
    (applied : booksOf r' = (booksOf r).apply (.claim c.1.account c.1.liquid c.1.staked))
    (genesis : genesisHeight r' = genesisHeight r)
    : Honours t later r' (made ++ [c]) where
  covered := by
    rw [applied, claimDeadline_eq genesis]
    exact (h.covered.later le).step admitted nofun nofun
  once := by
    have new : c.1.account ∉ claimants made := fun taken =>
      h.filed _ taken admitted.2.2.1
    rw [claimants_concat, ← List.concat_eq_append]
    exact h.once.concat new
  own d member := by
    rcases List.mem_append.mp member with before | last
    · exact h.own d before
    · obtain rfl := List.mem_singleton.mp last
      exact own
  filed a member := by
    have done : r'.migDone = update r.migDone c.1.account _ := congrArg Books.done applied
    rw [done]
    by_cases here : a = c.1.account
    · rw [here, update_self]
      exact Option.some_ne_none _
    · rw [update_of_ne here]
      refine h.filed a ?_
      rw [claimants_concat] at member
      exact (List.mem_append.mp member).resolve_right (by simpa using here)
  known a filed := by
    have done : r'.migDone = update r.migDone c.1.account _ := congrArg Books.done applied
    rw [claimants_concat]
    by_cases here : a = c.1.account
    · exact .inl (by simp [here])
    · rw [done, update_of_ne here] at filed
      exact (h.known a filed).imp_left (List.mem_append_left _)
  claimed := by
    have raised : r'.getAmount .migClaimed
        = r.getAmount .migClaimed + (c.1.liquid + c.1.staked) := congrArg Books.claimed applied
    rw [raised, h.claimed]
    simp [claimedSum]

/-- Recording the burn of one of the tree's burned positions is no claim. -/
theorem Honours.record {t : Tree} (h : Honours t now r made) (le : now ≤ later) {e : Node.Entry}
    (there : e ∈ t.entries) (burned : e.burned = true) {liquid staked : Int}
    (admitted : (booksOf r).Admits (claimDeadlineHeight r) later (.record e.account liquid staked))
    (applied : booksOf r' = (booksOf r).apply (.record e.account liquid staked))
    (genesis : genesisHeight r' = genesisHeight r)
    : Honours t later r' made where
  covered := by
    rw [applied, claimDeadline_eq genesis]
    exact (h.covered.later le).step admitted nofun nofun
  once := h.once
  own := h.own
  filed a member := by
    have done : r'.migDone = update r.migDone e.account _ := congrArg Books.done applied
    rw [done]
    by_cases here : a = e.account
    · rw [here, update_self]
      exact Option.some_ne_none _
    · rw [update_of_ne here]
      exact h.filed a member
  known a filed := by
    have done : r'.migDone = update r.migDone e.account _ := congrArg Books.done applied
    by_cases here : a = e.account
    · exact .inr ⟨e, there, burned, here.symm⟩
    · rw [done, update_of_ne here] at filed
      exact h.known a filed
  claimed := (congrArg Books.claimed applied).trans h.claimed

/-- So is the sweep. -/
theorem Honours.sweep {t : Tree} (h : Honours t now r made) (le : now ≤ later)
    (admitted : (booksOf r).Admits (claimDeadlineHeight r) later .sweep)
    (applied : booksOf r' = (booksOf r).apply .sweep) (genesis : genesisHeight r' = genesisHeight r)
    : Honours t later r' made where
  covered := by
    rw [applied, claimDeadline_eq genesis]
    exact (h.covered.later le).step admitted nofun nofun
  once := h.once
  own := h.own
  filed a member := by
    rw [show r'.migDone = r.migDone from congrArg Books.done applied]
    exact h.filed a member
  known a filed := by
    rw [show r'.migDone = r.migDone from congrArg Books.done applied] at filed
    exact h.known a filed
  claimed := (congrArg Books.claimed applied).trans h.claimed

/-- An event that is no push keeps the invariant together with what it claims, by cases on it. -/
theorem SnapshotRun.event (h : Faithful leaves nodes snap) {q : Request} {e : Event}
    (run : SnapshotRun (build snap) now r made) (le : now ≤ later)
    (admitted : (booksOf r).Admits (claimDeadlineHeight r) later e)
    (applied : booksOf r' = (booksOf r).apply e) (settled : Settled r')
    (evolves : Evolves r r') (event : q.action.event q.ctx r = some e)
    (ready : ∀ root q b, e = .commit root q b → r.init = true)
    (unpushed : ∀ burned entries, e ≠ .push burned entries)
    (verified : ∀ leaf proofHex, q.presents = some (leaf, proofHex) → Verified r leaf proofHex)
    (hashes : q.Hashes leaves nodes)
    : SnapshotRun (build snap) later r' (made ++ q.claims) := by
  have presented := Request.of_event event
  have root : r'.migRoot = ((booksOf r).apply e).root := congrArg Books.root applied
  have total : r'.getAmount .migTotal = ((booksOf r).apply e).total := congrArg Books.total applied
  have burned : r'.getAmount .migBurn = ((booksOf r).apply e).burned :=
    congrArg Books.burned applied
  cases e with
  | push toNull entries => exact absurd rfl (unpushed toNull entries)
  | commit root q b =>
      rw [show Request.claims _ = [] from presented, List.append_nil]
      exact run.commit h le admitted applied settled evolves (ready _ _ _ rfl)
  | claim account liquid staked =>
      obtain ⟨proofHex, presents, claims⟩ := presented
      rw [claims]
      have known := admitted.1
      refine ⟨settled, fun _ => evolves.init.trans (run.init known),
        fun none => absurd (root ▸ none) known, fun committed => ?_⟩
      have before := committed.of_books root total burned
      obtain ⟨e, proof, published, leaf, decoded⟩ := h.own before (verified _ _ presents)
        fun proof => hashes _ _ proof presents
      have unburned : e.burned = false := (congrArg Leaf.burned leaf).symm
      exact (run.after before).claim le ⟨e, proof, published, unburned, leaf, decoded⟩ admitted
        applied evolves.genesis
  | record account liquid staked =>
      obtain ⟨claims, proofHex, presents⟩ := presented
      rw [claims, List.append_nil]
      have known := admitted.1
      refine ⟨settled, fun _ => evolves.init.trans (run.init known),
        fun none => absurd (root ▸ none) known, fun committed => ?_⟩
      have before := committed.of_books root total burned
      obtain ⟨e, proof, ⟨j, entry, _⟩, leaf, _⟩ := h.own before (verified _ _ presents)
        fun proof => hashes _ _ proof presents
      obtain rfl : account = e.account := congrArg Leaf.account leaf
      exact (run.after before).record le (List.mem_of_getElem? entry)
        (congrArg Leaf.burned leaf).symm admitted applied evolves.genesis
  | sweep =>
      rw [show q.claims = [] from presented, List.append_nil]
      have known := admitted.1
      refine ⟨settled, fun _ => evolves.init.trans (run.init known),
        fun none => absurd (root ▸ none) known, fun committed => ?_⟩
      exact (run.after (committed.of_books root total burned)).sweep le admitted applied
        evolves.genesis

/-- Every request of production keeps the invariant, by cases on what it does when it succeeds; a
refused one is unwound.
-/
theorem SnapshotRun.step (h : Faithful leaves nodes snap) {q : Request} {w : World A}
    (run : SnapshotRun (build snap) now w.rows made) (le : now ≤ q.ctx.height)
    (production : q.inProduction = true) (hashes : q.Hashes leaves nodes)
    : SnapshotRun (build snap) q.ctx.height (q.exec w).1.rows
      (made ++ if (q.exec w).2.ok then q.claims else []) := by
  have settled := Request.exec_settled (q := q) run.settled
  have effect := q.exec_effect w run.settled.words
  have evolves := effect.evolves
  have same (books : booksOf (q.exec w).1.rows = booksOf w.rows)
      : SnapshotRun (build snap) q.ctx.height (q.exec w).1.rows made :=
    run.of_books settled le books evolves
  cases success : (q.exec w).2.ok with
  | false =>
      simp only [Bool.false_eq_true, if_false, List.append_nil]
      exact same (by rw [Request.exec_refused production w success])
  | true =>
      simp only [if_true]
      unfold ActionEffect at effect
      cases event : q.action.event q.ctx w.rows with
      | none =>
          rw [event] at effect
          rw [Request.of_quiet event, List.append_nil]
          exact same effect.migration.books
      | some e =>
          rw [event] at effect
          have admitted := effect.admitted success
          have applied := effect.applied success
          exact run.event h le admitted applied settled evolves event
            (fun _ _ _ commit => Request.exec_ready (commit ▸ event) success) (Request.no_push production event)
            (fun _ _ presents => Request.exec_verified presents success) hashes

/-- So a run of production honours every claim that it makes, by induction on its requests. -/
theorem SnapshotRun.run (h : Faithful leaves nodes snap) {w : World A} {requests : List Request}
    (start : SnapshotRun (build snap) now w.rows made)
    (run : Run (fun _ q => q.inProduction = true ∧ q.Hashes leaves nodes) w now requests)
    : SnapshotRun (build snap) (clock now requests)
      (State.after w requests).rows (made ++ claimsMade w requests) := by
  induction requests generalizing w now made with
  | nil =>
      rw [claimsMade, List.append_nil]
      exact start
  | cons q rest ih =>
      obtain ⟨le, ⟨production, hashes⟩, tail⟩ := run
      rw [claimsMade, ← List.append_assoc]
      exact ih (start.step h le production hashes) tail

end Faithfulness

-----------------------------------------------------------------------------------------
-- Claiming a position
-----------------------------------------------------------------------------------------

/-- (s.HasRoom account amt) says that a ledger has room to mint an amount and hand it to the
account: the account's row on the legacy ledger, the core's float in a token that works.
-/
def Store.HasRoom (s : Store) (account : String) (amt : Int) : Prop :=
  match s.token with
  | none => s.legacyBalance account + amt < 2 ^ 63
  | some t => t.fail = false ∧ s.legacyBalance account ≤ 0 ∧ 0 ≤ t.bal t.self
      ∧ t.bal t.self + amt < 2 ^ 63

/-- A ledger with room mints the amount and then credits any part of it. -/
theorem Store.HasRoom.pays {s : Store} {account : String} {amt paid : Int}
    (h : s.HasRoom account amt) (named : account ≠ "") (positive : 0 < amt)
    (supply : 0 ≤ s.rows.getAmount .migrated) (fits : s.rows.getAmount .migrated + amt < 2 ^ 63)
    (some_paid : 0 < paid) (part : paid ≤ amt)
    : (s.mintSupply .migrated amt).2 = true
      ∧ ((s.mintSupply .migrated amt).1.credit account paid).2 = true := by
  obtain ⟨rows, bal, token⟩ := s
  have added := addAmount_of_fits supply positive.le fits
  dsimp only at added
  have signs : ¬amt < 0 ∧ amt ≠ 0 ∧ ¬paid < 0 ∧ paid ≠ 0 := by omega
  obtain ⟨amtNonneg, amtSome, paidNonneg, paidSome⟩ := signs
  cases token with
  | none =>
      have room : (bal account).getD 0 + amt < 2 ^ 63 := h
      have credited : ∃ next, addAmount ((bal account).getD 0) paid = some next := by
        unfold addAmount i64
        dsimp only
        rw [if_neg (by omega)]
        exact ⟨_, rfl⟩
      obtain ⟨next, credited⟩ := credited
      simp [mintSupply, credit, balance, legacyBalance, amtNonneg, amtSome, paidNonneg, paidSome,
        added, credited]
  | some t =>
      obtain ⟨working, moved, float, room⟩ := h
      have moved : (bal account).getD 0 ≤ 0 := moved
      have held : i64 (t.bal t.self + amt) = t.bal t.self + amt :=
        i64_of_nonneg (by omega) (by omega)
      have enough : ¬t.bal t.self + amt < paid := by omega
      simp [mintSupply, credit, ensureMigrated, legacyBalance, MemToken.mint, MemToken.transfer,
        working, amtNonneg, amtSome, paidNonneg, paidSome, added, moved, held, enough, named,
        not_le.mpr positive, not_le.mpr some_paid]

/-- The stake of a claim is settled or entered at once when the walk is current; the ledger is not
asked.
-/
theorem claimStake_runs {w : World A} (ctx : Ctx) {staked : Int} (nonneg : 0 ≤ staked)
    (word : staked < 2 ^ 63) (current : dayOf w.rows ctx.height ≤ accruedDays w.rows)
    : ∃ r paid recycled, (claimStake ctx staked).run serve w
        = ({ w with store := { w.store with rows := r } }, some (paid, recycled))
      ∧ r.getAmount .migrated = w.rows.getAmount .migrated ∧ 0 ≤ paid ∧ paid ≤ staked := by
  have steady := always_serve (w := w) (claimStake_steady ctx staked)
  have load : rows.run serve w = (w, w.rows) := rfl
  have idle : (accrue ctx.height).run serve w = (w, true) := accrueWalk_idle current _ _
  have unchanged : w = { w with store := { w.store with rows := w.rows } } := rfl
  revert steady
  unfold claimStake
  simp only [run_bind, load]
  cases made : newMigrationMint ctx.sender staked (genesisHeight w.rows) with
  | none => exact fun _ => ⟨w.rows, 0, 0, rfl, rfl, le_rfl, nonneg⟩
  | some m =>
      simp only [run_ite, run_bind, idle]
      cases mature : m.isMature ctx.height with
      | false =>
          have registers : (registerMints ctx.height [m]).run serve w
              = ({ w with store := { w.store with rows := (enterMints w.rows [m]).1 } },
                some (enterMints w.rows [m]).2) := by
            unfold registerMints
            simp only [run_bind, idle]
            rfl
          simp only [Bool.not_false, if_true, Bool.not_true, Bool.false_eq_true, if_false,
            registers]
          exact fun steady => ⟨_, 0, 0, rfl, steady.migration.migrated, le_rfl, nonneg⟩
      | true =>
          obtain ⟨least, most⟩ := Mint.settle_part mature (newMigrationMint_principal made ▸ word)
          rw [newMigrationMint_principal made] at most
          exact fun _ => ⟨w.rows, _, _, rfl, rfl, least, most⟩

/-- A claim that meets every check is paid, whatever its height before the deadline. -/
theorem claimMigration_succeeds {w : World A} {ctx : Ctx} {liquid staked : Int}
    {proofHex : List String} {rootHex : String} (ready : w.rows.init = true)
    (root : w.rows.migRoot = some rootHex) (early : ctx.height < claimDeadlineHeight w.rows)
    (acts : ctx.sender ≠ burnAccount) (named : ctx.sender ≠ "") (hl : 0 ≤ liquid)
    (hs : 0 ≤ staked) (positive : 0 < liquid + staked) (word : liquid + staked < 2 ^ 63)
    (fresh : w.rows.migDone ctx.sender = none)
    (verified : verifyLeaf rootHex ctx.sender liquid staked false proofHex = true)
    (words : (booksOf w.rows).Words)
    (room : w.rows.getAmount .migClaimed + (liquid + staked) ≤ w.rows.getAmount .migTotal)
    (supply : w.rows.getAmount .migrated + (liquid + staked) < 2 ^ 63)
    (current : dayOf w.rows ctx.height ≤ accruedDays w.rows)
    (ledger : w.store.HasRoom ctx.sender (liquid + staked))
    : ((claimMigration ctx liquid staked proofHex).run serve w).2.ok = true := by
  have load : rows.run serve w = (w, w.rows) := rfl
  have whole : i64 (liquid + staked) = liquid + staked := i64_of_nonneg positive.le word
  have good : badPosition liquid staked = false := by
    simp [badPosition, whole, hl, hs, positive]
  have total := words.total_lt
  have claimed := words.claimed_nonneg
  simp only [booksOf_total, booksOf_claimed] at total claimed
  have sum := addAmount_of_fits claimed positive.le (room.trans_lt total)
  obtain ⟨r, paid, recycled, stakes, kept, nonneg, part⟩ :=
    claimStake_runs (w := w) ctx hs (by omega) current
  have exact_paid : i64 (liquid + paid) = liquid + paid := i64_of_nonneg (by omega) (by omega)
  have unsupplied : 0 ≤ r.getAmount .migrated := kept ▸ words.supply_nonneg
  have fits : r.getAmount .migrated + (liquid + staked) < 2 ^ 63 := kept ▸ supply
  have room' : ({ w.store with rows := r } : Store).HasRoom ctx.sender (liquid + staked) := ledger
  have minted : ((mintSupply .migrated (liquid + staked)).run serve
      { w with store := { w.store with rows := r } }).2 = true :=
    (room'.pays named positive unsupplied fits positive le_rfl).1
  have credited : ((creditIfAny ctx.sender (liquid + paid)).run serve
      ((mintSupply .migrated (liquid + staked)).run serve
        { w with store := { w.store with rows := r } }).1).2 = true := by
    unfold creditIfAny
    split
    · rename_i some_paid
      exact (room'.pays named positive unsupplied fits some_paid (by omega)).2
    · rfl
  unfold claimMigration
  simp only [run_bind, load, run_pure, ready, root, early.not_ge, acts, good, fresh,
    verified, whole, sum, not_lt.mpr room, stakes, exact_paid, Bool.not_true, Bool.false_eq_true,
    Option.isSome_none, if_false, minted, credited]
  rfl

-----------------------------------------------------------------------------------------
-- End to end
-----------------------------------------------------------------------------------------

/-- (Delivers t w made) says what a committed tree delivers after the claims `made`: each account
claimed at most once, and its own position with its own proof; the claims are within the committed
total; after the sweep the supply is the snapshot; and every qualifying account that has not
claimed and may act can still claim until the deadline, while the walk is current and the ledger
has room.
-/
structure Delivers (t : Tree) (w : World A) (made : List Claimed) : Prop where
  published : t.proofs.length = t.entries.length
  once : (claimants made).Nodup
  own : ∀ c ∈ made, OwnClaim t c
  bounded : claimedSum made ≤ w.rows.getAmount .migTotal
  swept : w.rows.migSwept = true → w.rows.getAmount .migrated = snapshotTotal w.rows
  claimable (e : Node.Entry) (proof : List Hash) (ctx : Ctx) (unwinds : Bool)
    (publishes : Publishes t e proof) (qualifies : e.burned = false)
    (acts : e.account ≠ burnAccount) (unclaimed : e.account ∉ claimants made)
    (sender : ctx.sender = e.account) (early : ctx.height < claimDeadlineHeight w.rows)
    (current : dayOf w.rows ctx.height ≤ accruedDays w.rows)
    (room : w.store.HasRoom e.account e.amount)
    : (Request.exec ⟨ctx, .claimMigration e.liquid e.staked (proof.map hashToHex), unwinds⟩ w).2.ok
      = true

section Delivery

variable {leaves nodes : Set (List UInt8)} {snap : Snapshot} {now : Nat} {made : List Claimed}

/-- A qualifying account that has not claimed finds its position within the committed total: its
leaf and the claimed ones are different qualifying leaves.
-/
theorem Honours.room {r : Rows} (h : Faithful leaves nodes snap)
    (honours : Honours (build snap) now r made) {e : Node.Entry} (there : e ∈ snap.entries)
    (qualifies : e.burned = false) (unclaimed : e.account ∉ claimants made)
    : claimedSum made + e.amount ≤ (build snap).qualifierTotal := by
  let whole (l : Leaf) : Int := l.liquid + l.staked
  let all := (qualifying snap.entries).map Node.Entry.leaf
  have mine : e ∈ qualifying snap.entries := List.mem_filter.mpr ⟨there, by simp [qualifies]⟩
  have distinct : (e.leaf :: made.map Prod.fst).Nodup := by
    refine List.Nodup.of_map Leaf.account ?_
    rw [List.map_cons, List.map_map]
    exact List.nodup_cons.mpr ⟨unclaimed, honours.once⟩
  have among : e.leaf :: made.map Prod.fst ⊆ all := by
    rintro l (_ | ⟨_, member⟩)
    · exact List.mem_map_of_mem mine
    · obtain ⟨c, claim, rfl⟩ := List.mem_map.mp member
      obtain ⟨e', _, ⟨j, entry, _⟩, unburned, leaf, _⟩ := honours.own c claim
      rw [leaf]
      exact List.mem_map_of_mem (List.mem_filter.mpr ⟨List.mem_of_getElem? entry, by simp [unburned]⟩)
  obtain ⟨l, perm, sub⟩ := List.subperm_of_subset distinct among
  have nonneg : ∀ x ∈ all.map whole, 0 ≤ x := by
    intro x member
    obtain ⟨l, leaf, rfl⟩ := List.mem_map.mp member
    obtain ⟨e', entry, rfl⟩ := List.mem_map.mp leaf
    exact (h.sound.sound e' (List.mem_of_mem_filter entry)).positive.le
  have le : (l.map whole).sum ≤ (all.map whole).sum := (sub.map whole).sum_le_sum nonneg
  have claimed : (l.map whole).sum = e.amount + claimedSum made := by
    rw [(perm.map whole).sum_eq, List.map_cons, List.map_map]
    rfl
  have total : (all.map whole).sum = worth (qualifying snap.entries) := by
    rw [List.map_map]
    rfl
  rw [h.totals.1]
  omega

/-- What is honoured is delivered. -/
theorem SnapshotRun.delivers {w : World A} (h : Faithful leaves nodes snap)
    (run : SnapshotRun (build snap) now w.rows made) (committed : Committed (build snap) w.rows)
    : Delivers (build snap) w made := by
  have honours := run.after committed
  have words := run.settled.words
  have covered := honours.covered
  have total_eq := committed.total
  have claimed_le := covered.claimed_le
  have supply_le := covered.supply_le
  have cap := covered.cap
  simp only [booksOf_total, booksOf_claimed, booksOf_supply, booksOf_burned]
    at claimed_le supply_le cap
  refine ⟨h.complete.2.1, honours.once, honours.own, honours.claimed ▸ claimed_le, ?_, ?_⟩
  · intro swept
    have supply := covered.supply
    simp only [booksOf_swept, swept, if_true, booksOf_supply, booksOf_burned, booksOf_total]
      at supply
    rw [supply, snapshotTotal, add_comm]
    unfold emissionCap historicHardCap at supply_le cap
    exact (i64_of_nonneg (by omega) (by omega)).symm
  · intro e proof ctx unwinds publishes qualifies acts unclaimed sender early current room
    have ⟨j, entry, _⟩ := publishes
    have there : e ∈ snap.entries := List.mem_of_getElem? entry
    have sound := h.sound.sound e there
    have within := honours.room h there qualifies unclaimed
    rw [← honours.claimed, ← total_eq] at within
    have fresh : w.rows.migDone e.account = none := by
      by_contra filed
      rcases honours.known e.account filed with claimed | ⟨other, member, burned, same⟩
      · exact unclaimed claimed
      · have equal := List.inj_on_of_nodup_map h.sound.accounts member there same
        rw [equal, qualifies] at burned
        cases burned
    obtain ⟨passes, digests⟩ := h.complete.2.2 e proof publishes
    have verified := (verifyLeaf_iff h.complete.1 e.leaf _).mpr
      ⟨proof, decodeProof_published digests, passes⟩
    simp only [Node.Entry.leaf, qualifies] at verified
    have named : e.account ≠ "" := by
      rw [sound.account]
      intro empty
      simpa using congrArg String.toList empty
    have claimed := words.claimed_nonneg
    have known : w.rows.migRoot ≠ none := by
      rw [committed.root]
      exact Option.some_ne_none _
    have supply : w.rows.getAmount .migrated + e.amount < 2 ^ 63 := by
      have burned := covered.burned_nonneg
      simp only [booksOf_claimed, booksOf_burned] at claimed burned
      unfold emissionCap historicHardCap at supply_le cap
      omega
    rw [← sender] at acts named fresh verified room
    have result : (Request.exec ⟨ctx, .claimMigration e.liquid e.staked (proof.map hashToHex),
        unwinds⟩ w).2
      = ((claimMigration ctx e.liquid.toInt e.staked.toInt (proof.map hashToHex)).run serve w).2 :=
      rfl
    rw [result]
    exact claimMigration_succeeds (run.init known) committed.root early acts named sound.liquid
      sound.staked sound.positive sound.word fresh verified words within supply current room

/-- For a snapshot that is loaded, with at most `2 ^ 32` positions whose whole worth is a word beside
all emission, and as long as SHA-256 tells apart what is hashed: once its root and totals are
committed, a run of production from `Init` on any ledger delivers it.
-/
theorem migration_end_to_end {doc : SetDoc} (loaded : load doc = .ok snap)
    (few : snap.entries.length ≤ 2 ^ maxProofLen) (fits : worth snap.entries + emissionCap < 2 ^ 63)
    (apart : TellsApart leaves nodes)
    (tree : TreeHashes leaves nodes (snap.entries.map Node.Entry.leaf)) (store : Store) (assets : A)
    (genesis : UInt64) (requests : List Request) (fresh : store.rows = .empty)
    (run : Run (fun _ q => q.inProduction = true ∧ q.Hashes leaves nodes)
      (initialised store assets genesis) 0 requests)
    (committed : Committed (build snap) (after (initialised store assets genesis) requests).rows)
    : Delivers (build snap) (after (initialised store assets genesis) requests)
      (claimsMade (initialised store assets genesis) requests) := by
  obtain ⟨sound, some_entry⟩ := load_sound loaded
  have faithful : Faithful leaves nodes snap := ⟨sound, some_entry, few, fits, apart, tree⟩
  have books := initialised_books store assets genesis fresh
  have uncommitted : (initialised store assets genesis).rows.migRoot = none :=
    congrArg Books.root books
  have start : SnapshotRun (build snap) 0 (initialised store assets genesis).rows [] := by
    refine ⟨initialised_settled store assets genesis fresh, fun known => absurd uncommitted known,
      fun _ => ⟨(initialised_capped store assets genesis fresh).covered, rfl, fun a => ?_⟩,
      fun committed => ?_⟩
    · exact congrFun (congrArg Books.done books) a
    · exact nomatch uncommitted.symm.trans committed.root
  exact (start.run faithful run).delivers faithful committed

end Delivery

/-- A migration set with one qualifying and one burned account. -/
def smallSet : SetDoc := ⟨[("alice", ⟨1000, 500⟩)], [("bob", ⟨100, 0⟩)], []⟩

def smallSnapshot : Snapshot :=
  ⟨[⟨"hive:alice", "alice", 1000, 500, false⟩, ⟨"hive:bob", "bob", 100, 0, true⟩]⟩

/-- The published proof of the first position. -/
def smallProof : List Hash := (build smallSnapshot).proofs.headD []

/-- Its commitment and the one claim. -/
def smallRequests : List Request :=
  [⟨.of "hive:owner" 1, .setSnapshot (build smallSnapshot).rootHex 1500 100,
      true⟩,
    ⟨.of "hive:alice" 1,
      .claimMigration 1000 500 (smallProof.map hashToHex), true⟩]

/-- What the tree hashes. -/
def smallLeaves : List (List UInt8) := (smallSnapshot.entries.map Node.Entry.leaf).map Leaf.bytes

def smallNodes : List (List UInt8) :=
  (PairingTree.combined parentHash ((smallSnapshot.entries.map Node.Entry.leaf).map Leaf.hash)).map
    nodeBytes

theorem migration_small_snapshot
    : Delivers (build smallSnapshot)
      (after (initialised Store.newMem MemAssets.new 1) smallRequests)
      (claimsMade (initialised Store.newMem MemAssets.new 1) smallRequests) := by
  have apart : ∀ x ∈ smallLeaves ++ smallNodes, ∀ y ∈ smallLeaves ++ smallNodes,
      sha256 x = sha256 y → x = y := by decide +kernel
  have domain : ∀ x ∈ smallNodes, ¬bytesOf leafDomain <+: x := by decide +kernel
  have decoded : decodeProof (smallProof.map hashToHex) = some smallProof := by decide +kernel
  have path : ∀ p ∈ PairingTree.path parentHash (leafHash "hive:alice" 1000 500 false) smallProof,
      nodeBytes p ∈ smallNodes := by decide +kernel
  have committed : let r := (after (initialised Store.newMem MemAssets.new 1) smallRequests).rows
      r.migRoot = some (build smallSnapshot).rootHex
        ∧ r.getAmount .migTotal = (build smallSnapshot).qualifierTotal
        ∧ r.getAmount .migBurn = (build smallSnapshot).burnTotal := by decide +kernel
  have loaded : load smallSet = .ok smallSnapshot := by decide +kernel
  have tellsApart : TellsApart {x | x ∈ smallLeaves} {x | x ∈ smallNodes} :=
    ⟨fun x hx y hy => apart x (List.mem_append.mpr hx) y (List.mem_append.mpr hy), domain⟩
  refine migration_end_to_end loaded (by decide) (by decide +kernel) tellsApart
    ⟨fun l member => List.mem_map_of_mem member, fun p member => List.mem_map_of_mem member⟩
    Store.newMem MemAssets.new 1 smallRequests rfl ?_
    ⟨committed.1, committed.2.1, committed.2.2⟩
  refine ⟨by decide, ⟨rfl, nofun⟩, by decide, ⟨rfl, ?_⟩, trivial⟩
  rintro leaf proofHex proof presents read
  cases presents
  obtain rfl : smallProof = proof := Option.some.inj (decoded.symm.trans read)
  exact ⟨List.mem_cons_self, path⟩

/-- A migration set in which the null account qualifies. -/
def nullSet : SetDoc := ⟨[("null", ⟨10, 0⟩)], [], []⟩

def nullSnapshot : Snapshot := ⟨[⟨"hive:null", "null", 10, 0, false⟩]⟩

/-- The loader accepts the null account, which can then not claim; and a position that the owner
pushed is counted besides the snapshot, so that the supply exceeds it after the sweep.
-/
theorem migration_not_end_to_end
    : let commit : Request := ⟨{ sender := "hive:owner", height := 1 },
        .setSnapshot (build nullSnapshot).rootHex 10 0, true⟩
      let claim : Request := ⟨{ sender := "hive:null", height := 1 },
        .claimMigration 10 0 (((build nullSnapshot).proofs.headD []).map hashToHex), true⟩
      let push : Request := ⟨{ sender := "hive:owner", height := 1 },
        .creditMigration "hive:carol" 7 0, true⟩
      let sweep : Request := ⟨{ sender := "hive:any", height := 6048001 }, .sweepUnclaimed, true⟩
      let w := initialised Store.newMem MemAssets.new 1
      load nullSet = .ok nullSnapshot
        ∧ results w [commit, claim]
          = [ok "snapshot committed", fail "null cannot act"]
        ∧ (results w [push, commit, sweep]).all Result.ok = true
        ∧ (after w [push, commit, sweep]).rows.getAmount .migrated = 17
        ∧ snapshotTotal (after w [push, commit, sweep]).rows = 10 := by
  decide +kernel

end LasseCash.State
