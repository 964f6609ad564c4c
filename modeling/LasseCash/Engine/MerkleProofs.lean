import LasseCash.Engine.Merkle
import LasseCash.Lib.JoinedKeys
import LasseCash.Lib.PairingTree
import Mathlib.Data.Set.Function

/-! The snapshot tree of `engine/merkle.go`, and what its proofs prove: every leaf's proof leads
to the root, and as long as SHA-256 tells the inputs apart that are used, no other does.
-/

namespace LasseCash.Engine

open PairingTree

-----------------------------------------------------------------------------------------
-- The tree
-----------------------------------------------------------------------------------------

/-- The root over some leaves and, for every leaf, its proof. -/
def buildTree (leaves : List Hash) : Hash × List (List Hash) :=
  let tree := build parentHash leaves
  (tree.level.headD (.replicate 32 0), tree.climbs.map Climb.proof)

def hexDigits : List Char := "0123456789abcdef".toList

/-- The two hex characters of a byte. -/
def hexByte (b : UInt8) : List Char :=
  [hexDigits.getD (b >>> 4).toNat '0', hexDigits.getD (b &&& 0x0f).toNat '0']

/-- A digest as sixty-four lowercase hex characters. -/
def hashToHex (h : Hash) : String := .ofList (h.flatMap hexByte)

-----------------------------------------------------------------------------------------
-- Byte strings
-----------------------------------------------------------------------------------------

theorem bytesOf_append (s t : String) : bytesOf (s ++ t) = bytesOf s ++ bytesOf t := by
  simp [bytesOf]

/-- A string is known from its bytes. -/
theorem bytesOf_injective {s t : String} (same : bytesOf s = bytesOf t) : s = t := by
  have encoded (s : String) : (bytesOf s).toByteArray = s.toByteArray :=
    String.utf8Encode_toList (b := s)
  refine String.toByteArray_inj.mp ?_
  rw [← encoded s, same, encoded t]

theorem sha256_length (msg : List UInt8) : (sha256 msg).length = 32 := rfl

/-- The code of a hex character. -/
def hexCode (n : Nat) : UInt8 := .ofNat (hexDigits.getD n '0').toNat

/-- A hex character is one byte, and is read back. -/
theorem hexCode_read {n : Nat} (small : n < 16)
    : String.utf8EncodeChar (hexDigits.getD n '0') = [hexCode n]
      ∧ hexVal (hexCode n) = some (.ofNat n) := by
  revert n
  decide +kernel

/-- A byte is its two halves. -/
theorem byte_halves (b : UInt8)
    : (b >>> 4).toNat < 16 ∧ (b &&& 0x0f).toNat < 16 ∧ (b >>> 4) <<< 4 ||| (b &&& 0x0f) = b := by
  obtain ⟨⟨⟨n, small⟩⟩⟩ := b
  revert n
  decide +kernel

/-- Bytes are read back from their hex characters, by induction on them. -/
theorem hexPairs_hexByte (h : List UInt8)
    : hexPairs ((h.flatMap hexByte).flatMap String.utf8EncodeChar) = some h
      ∧ ((h.flatMap hexByte).flatMap String.utf8EncodeChar).length = 2 * h.length := by
  induction h with
  | nil => exact ⟨rfl, rfl⟩
  | cons b rest ih =>
      obtain ⟨high, low, whole⟩ := byte_halves b
      obtain ⟨highCode, highRead⟩ := hexCode_read high
      obtain ⟨lowCode, lowRead⟩ := hexCode_read low
      have shape : ((b :: rest).flatMap hexByte).flatMap String.utf8EncodeChar
          = hexCode (b >>> 4).toNat :: hexCode (b &&& 0x0f).toNat
            :: (rest.flatMap hexByte).flatMap String.utf8EncodeChar := by
        simp only [List.flatMap_cons, List.flatMap_append, hexByte, List.flatMap_nil, highCode,
          lowCode]
        rfl
      rw [shape]
      refine ⟨?_, by rw [List.length_cons, List.length_cons, ih.2, List.length_cons]; omega⟩
      simp only [hexPairs, highRead, lowRead, ih.1, UInt8.ofNat_toNat, Option.bind_eq_bind,
        Option.bind_some, whole]
      rfl

/-- A digest is read back from its hex characters. -/
theorem hexToHash_hashToHex {h : Hash} (length : h.length = 32)
    : hexToHash (hashToHex h) = some h := by
  obtain ⟨read, long⟩ := hexPairs_hexByte h
  unfold hexToHash hashToHex bytesOf
  rw [String.toList_ofList, long, length]
  exact read

/-- What is read from sixty-four hex characters is a digest. -/
theorem hexToHash_length {s : String} {h : Hash} (read : hexToHash s = some h)
    : h.length = 32 := by
  have pairs (n : Nat) (l : List UInt8) (h : Hash) (long : l.length = 2 * n)
      (read : hexPairs l = some h) : h.length = n := by
    induction n generalizing l h with
    | zero =>
        obtain rfl := List.length_eq_zero_iff.mp long
        cases read
        rfl
    | succ n ih =>
        match l, long with
        | hi :: lo :: rest, long =>
            simp only [hexPairs, Option.bind_eq_bind, Option.bind_eq_some_iff] at read
            obtain ⟨_, _, _, _, tail, read, made⟩ := read
            cases made
            have := ih rest tail (by simp at long; omega) read
            simpa using this
  unfold hexToHash at read
  split at read
  · cases read
  · rename_i long
    exact pairs 32 _ h (by omega) read

-----------------------------------------------------------------------------------------
-- What is hashed
-----------------------------------------------------------------------------------------

/-- The bytes that a leaf's hash commits, where the account is any byte string. -/
def leafInput (account : List UInt8) (liquid staked : Int) (burned : Bool) : List UInt8 :=
  bytesOf leafDomain ++ account ++ bytesOf "|" ++ bytesOf (itoa liquid) ++ bytesOf "|"
    ++ bytesOf (itoa staked) ++ bytesOf "|" ++ bytesOf (if burned then "b" else "m")

/-- The bytes that a leaf's hash commits. -/
def leafBytes (account : String) (liquid staked : Int) (burned : Bool) : List UInt8 :=
  bytesOf (leafDomain ++ account ++ "|" ++ itoa liquid ++ "|" ++ itoa staked
    ++ "|" ++ (if burned then "b" else "m"))

theorem leafBytes_eq (account : String) (liquid staked : Int) (burned : Bool)
    : leafBytes account liquid staked burned
      = leafInput (bytesOf account) liquid staked burned := by
  simp only [leafBytes, leafInput, bytesOf_append]

/-- The sorted pair that an interior node hashes. -/
def nodeBytes (p : Hash × Hash) : List UInt8 :=
  if lessHash p.2 p.1 then p.2 ++ p.1 else p.1 ++ p.2

theorem parentHash_eq (p : Hash × Hash) : parentHash p.1 p.2 = sha256 (nodeBytes p) := by
  unfold parentHash nodeBytes
  split <;> rfl

/-- A leaf starts with the leaf domain. -/
theorem leafInput_domain (account : List UInt8) (liquid staked : Int) (burned : Bool)
    : bytesOf leafDomain <+: leafInput account liquid staked burned := by
  simp only [leafInput, List.append_assoc]
  exact List.prefix_append _ _

/-- A non-negative amount is written with digits alone, and known from them. -/
theorem decimal_digits {v : Int} (nonneg : 0 ≤ v)
    : (toString v).toList = Nat.toDigits 10 v.toNat := by
  obtain ⟨n, rfl⟩ := Int.eq_ofNat_of_zero_le nonneg
  exact Nat.toList_repr

theorem toDigits_digits {n : Nat} {c : Char} (there : c ∈ Nat.toDigits 10 n) : c.isDigit = true :=
  Nat.isDigit_of_mem_toDigits (by decide) (by decide) there

/-- What an amount's decimal consists of; the least amount is but a sign. -/
theorem itoa_cases {v : Int} (lower : -2 ^ 63 ≤ v)
    : v = -2 ^ 63 ∧ (itoa v).toList = ['-']
      ∨ 0 ≤ v ∧ (itoa v).toList = Nat.toDigits 10 v.toNat
      ∨ v < 0 ∧ (itoa v).toList = '-' :: Nat.toDigits 10 (-v).toNat := by
  unfold itoa
  rcases lt_trichotomy v 0 with negative | rfl | positive
  · rcases lower.eq_or_lt with rfl | above
    · exact .inl ⟨rfl, by decide⟩
    · have magnitude : MachineInt.i64 (-v) = -v := MachineInt.i64_of_nonneg (by omega) (by omega)
      refine .inr (.inr ⟨negative, ?_⟩)
      simp [negative.ne, negative, magnitude]
  · exact .inr (.inl ⟨le_rfl, by decide⟩)
  · refine .inr (.inl ⟨positive.le, ?_⟩)
    simp [positive.ne', positive, positive.not_gt]

/-- The amount that a decimal spells. -/
def amountOf : List Char → Int
  | ['-'] => -2 ^ 63
  | '-' :: digits => -(Nat.ofDigitChars 10 digits 0 : Int)
  | digits => (Nat.ofDigitChars 10 digits 0 : Int)

/-- An amount is known from its decimal. -/
theorem amountOf_itoa {v : Int} (lower : -2 ^ 63 ≤ v) : amountOf (itoa v).toList = v := by
  rcases itoa_cases lower with ⟨rfl, written⟩ | ⟨nonneg, written⟩ | ⟨negative, written⟩
  · rw [written]
    rfl
  · have signless (rest : List Char) : Nat.toDigits 10 v.toNat ≠ '-' :: rest := by
      intro shape
      have digit := toDigits_digits (shape ▸ List.mem_cons_self)
      exact absurd digit (by decide)
    rw [written]
    unfold amountOf
    split
    · rename_i shape
      exact absurd shape (signless _)
    · rename_i shape
      exact absurd shape (signless _)
    · rw [Nat.ofDigitChars_ten_toDigits]
      omega
  · rw [written]
    unfold amountOf
    split
    · rename_i shape
      exact absurd (List.cons.inj shape).2 Nat.toDigits_ne_nil
    · rename_i shape
      rw [← (List.cons.inj shape).2, Nat.ofDigitChars_ten_toDigits]
      omega
    · rename_i plain
      exact absurd rfl (plain _)

/-- The byte of a separator. -/
def separator : UInt8 := 124

/-- No digit and no sign has the separator among its bytes. -/
theorem separator_plain {c : Char} (plain : c.isDigit = true ∨ c = '-')
    : separator ∉ String.utf8EncodeChar c := by
  have digits : ∀ n < 58, 48 ≤ n → separator ∉ String.utf8EncodeChar (Char.ofNat n) := by decide
  rcases plain with digit | rfl
  · obtain ⟨lower, upper⟩ : 48 ≤ c.toNat ∧ c.toNat ≤ 57 := Char.isDigit_iff_toNat.mp digit
    have byte := digits c.toNat (by omega) lower
    rwa [Char.ofNat_toNat] at byte
  · decide

/-- The decimal of an amount is one word. -/
theorem itoa_word {v : Int} (lower : -2 ^ 63 ≤ v)
    : (bytesOf (itoa v)).splitOn separator = [bytesOf (itoa v)] := by
  refine List.splitOn_eq_singleton fun there => ?_
  obtain ⟨c, written, byte⟩ := List.mem_flatMap.mp there
  refine separator_plain ?_ byte
  rcases itoa_cases lower with ⟨_, shape⟩ | ⟨_, shape⟩ | ⟨_, shape⟩ <;> rw [shape] at written
  · exact .inr (List.mem_singleton.mp written)
  · exact .inl (toDigits_digits written)
  · rcases List.mem_cons.mp written with sign | digit
    · exact .inr sign
    · exact .inl (toDigits_digits digit)

/-- The letter that tells burned leaves from others. -/
def leafKind (burned : Bool) : List UInt8 := bytesOf (if burned then "b" else "m")

/-- The parts that a leaf joins. -/
def leafParts (account : List UInt8) (liquid staked : Int) (burned : Bool) : List (List UInt8) :=
  [account, bytesOf (itoa liquid), bytesOf (itoa staked), leafKind burned]

theorem leafInput_parts (account : List UInt8) (liquid staked : Int) (burned : Bool)
    : leafInput account liquid staked burned
      = bytesOf leafDomain ++ [separator].intercalate (leafParts account liquid staked burned) := by
  have bar : bytesOf "|" = [separator] := rfl
  simp [leafInput, leafParts, leafKind, List.intercalate, bar]

/-- A leaf's words are those of the account and then three more. -/
theorem leafParts_words (account : List UInt8) {liquid staked : Int} (burned : Bool)
    (hl : -2 ^ 63 ≤ liquid) (hs : -2 ^ 63 ≤ staked)
    : JoinedKeys.wordsOf separator (leafParts account liquid staked burned)
      = account.splitOn separator
        ++ [bytesOf (itoa liquid), bytesOf (itoa staked), leafKind burned] := by
  have kind : (leafKind burned).splitOn separator = [leafKind burned] := by
    cases burned <;> decide
  simp only [JoinedKeys.wordsOf, leafParts, List.flatMap_cons, List.flatMap_nil,
    itoa_word hl, itoa_word hs, kind]
  rfl

/-- A leaf's bytes determine the account, the amounts and the kind, although the account may
itself contain separators: its words are all but the last three.
-/
theorem leafInput_injective {account account' : List UInt8} {liquid staked liquid' staked' : Int}
    {burned burned' : Bool} (hl : -2 ^ 63 ≤ liquid) (hs : -2 ^ 63 ≤ staked)
    (hl' : -2 ^ 63 ≤ liquid') (hs' : -2 ^ 63 ≤ staked')
    (same : leafInput account liquid staked burned = leafInput account' liquid' staked' burned')
    : account = account' ∧ liquid = liquid' ∧ staked = staked' ∧ burned = burned' := by
  rw [leafInput_parts, leafInput_parts] at same
  have words := (JoinedKeys.join_eq_iff separator (by simp [leafParts]) (by simp [leafParts])).mp
    (List.append_cancel_left same)
  rw [leafParts_words account burned hl hs, leafParts_words account' burned' hl' hs'] at words
  obtain ⟨accounts, rest⟩ := List.append_inj' words rfl
  have joined := congrArg [separator].intercalate accounts
  rw [List.intercalate_splitOn, List.intercalate_splitOn] at joined
  simp only [List.cons.injEq, and_true] at rest
  obtain ⟨liquids, stakes, kinds⟩ := rest
  have amount {v w : Int} (hv : -2 ^ 63 ≤ v) (hw : -2 ^ 63 ≤ w)
      (same : bytesOf (itoa v) = bytesOf (itoa w)) : v = w := by
    rw [← amountOf_itoa hv, bytesOf_injective same, amountOf_itoa hw]
  refine ⟨joined, amount hl hl' liquids, amount hs hs' stakes, ?_⟩
  revert kinds
  cases burned <;> cases burned' <;> decide

-----------------------------------------------------------------------------------------
-- Pairs of digests
-----------------------------------------------------------------------------------------

/-- (IsDigest h) says that `h` has the length of a digest. -/
def IsDigest (h : Hash) : Prop := h.length = 32

/-- The order of digests is asymmetric, by induction on them. -/
theorem lessHash_asymm {a b : Hash} (less : lessHash a b = true) : lessHash b a = false := by
  fun_induction lessHash a b with
  | case1 a as b bs differ =>
      have below : a < b := by simpa using less
      simp [lessHash, differ.symm, UInt8.le_of_lt below]
  | case2 a as b bs same ih =>
      obtain rfl : a = b := not_not.mp same
      simpa [lessHash] using ih less
  | case3 => cases less

/-- The order of digests is total, by induction on them. -/
theorem eq_of_not_lessHash {a b : Hash} (length : a.length = b.length)
    (less : lessHash a b = false) (more : lessHash b a = false)
    : a = b := by
  fun_induction lessHash a b with
  | case1 a as b bs differ =>
      have less : ¬a < b := by simpa using less
      have more : ¬b < a := by simpa [lessHash, Ne.symm differ] using more
      exact absurd (UInt8.le_antisymm (UInt8.not_lt.mp more) (UInt8.not_lt.mp less)) differ
  | case2 a as b bs same ih =>
      obtain rfl : a = b := not_not.mp same
      rw [ih (by simpa using length) less (by simpa [lessHash] using more)]
  | case3 a b short =>
      match a, b, short with
      | [], [], _ => rfl
      | [], _ :: _, _ => simp at length
      | _ :: _, [], _ => simp at length
      | a :: as, b :: bs, short => exact absurd rfl (short a as b bs rfl)

/-- Combining digests gives a digest, whichever comes first. -/
theorem parentHash_symmetric : Symmetric parentHash IsDigest where
  closed a b _ _ := by
    unfold parentHash IsDigest
    split <;> exact sha256_length _
  comm a b left right := by
    unfold parentHash
    cases below : lessHash b a with
    | true => simp [lessHash_asymm below]
    | false =>
        cases above : lessHash a b with
        | true => simp
        | false => rw [eq_of_not_lessHash (left.trans right.symm) above below]

/-- A sorted pair determines the pair but for its order. -/
theorem nodeBytes_injective {p q : Hash × Hash} (hp : IsDigest p.1) (hp' : IsDigest p.2)
    (hq : IsDigest q.1) (hq' : IsDigest q.2) (same : nodeBytes p = nodeBytes q)
    : p = q ∨ p = q.swap := by
  unfold nodeBytes at same
  unfold IsDigest at *
  split at same <;> split at same
  all_goals obtain ⟨first, second⟩ := List.append_inj same (by omega)
  · exact .inl (Prod.ext second first)
  · exact .inr (Prod.ext second first)
  · exact .inr (Prod.ext first second)
  · exact .inl (Prod.ext first second)

-----------------------------------------------------------------------------------------
-- What a proof proves
-----------------------------------------------------------------------------------------

/-- Every leaf of a tree of at most `2 ^ 32` has a proof of digests that is verified. -/
theorem buildTree_complete (leaves : List Hash) (digests : ∀ h ∈ leaves, IsDigest h)
    (some_leaf : leaves ≠ []) (few : leaves.length ≤ 2 ^ maxProofLen)
    : IsDigest (buildTree leaves).1 ∧ (buildTree leaves).2.length = leaves.length
      ∧ ∀ (j : Nat) (leaf : Hash) (proof : List Hash), leaves[j]? = some leaf
        → (buildTree leaves).2[j]? = some proof
        → verifyProof leaf proof (buildTree leaves).1 = true ∧ ∀ h ∈ proof, IsDigest h := by
  obtain ⟨root, single, digest, length, leads⟩ :=
    build_leads parentHash_symmetric digests some_leaf few
  refine ⟨by simpa [buildTree, single] using digest, by simpa [buildTree] using length,
    fun j leaf proof at_leaf at_proof => ?_⟩
  obtain ⟨c, climbs, rfl⟩ : ∃ c, (build parentHash leaves).climbs[j]? = some c
      ∧ c.proof = proof := by
    simpa [buildTree] using at_proof
  obtain ⟨leads, short, good⟩ := leads j leaf c at_leaf climbs
  refine ⟨?_, good⟩
  rw [verifyProof, if_neg (not_lt.mpr short), leads]
  simp [buildTree, single]

/-- What is verified is a leaf of the tree with its own proof, if the combinations on the way
imitate nothing.
-/
theorem buildTree_sound {leaves : List Hash} (digests : ∀ h ∈ leaves, IsDigest h)
    (some_leaf : leaves ≠ []) (few : leaves.length ≤ 2 ^ maxProofLen) {leaf : Hash}
    {proof : List Hash} (unforgeable : Unforgeable parentHash leaves leaf proof)
    (verified : verifyProof leaf proof (buildTree leaves).1 = true)
    : ∃ j : Nat, leaves[j]? = some leaf ∧ (buildTree leaves).2[j]? = some proof := by
  obtain ⟨root, single, _⟩ := build_leads parentHash_symmetric digests some_leaf few
  have leads : proof.foldl parentHash leaf = root := by
    unfold verifyProof at verified
    split at verified
    · cases verified
    · simpa [buildTree, single] using verified
  obtain ⟨j, c, at_leaf, climbs, rfl⟩ := build_owns unforgeable single leads
  exact ⟨j, at_leaf, by simp [buildTree, climbs]⟩

/-- One account's position, as its leaf commits it. -/
structure Leaf where
  account : String
  liquid : Int
  staked : Int
  burned : Bool

def Leaf.bytes (l : Leaf) : List UInt8 := leafBytes l.account l.liquid l.staked l.burned

def Leaf.hash (l : Leaf) : Hash := leafHash l.account l.liquid l.staked l.burned

/-- (TellsApart leaves nodes) says that SHA-256 has no collision among the bytes that are hashed for
leaves and those hashed for interior nodes, and that none of the latter starts like a leaf.
-/
structure TellsApart (leaves nodes : Set (List UInt8)) : Prop where
  injective : Set.InjOn sha256 (leaves ∪ nodes)
  domain : ∀ x ∈ nodes, ¬bytesOf leafDomain <+: x

/-- (TreeHashes leaves nodes tree) says that the tree over some leaves hashes nothing else. -/
structure TreeHashes (leaves nodes : Set (List UInt8)) (tree : List Leaf) : Prop where
  ofLeaves : ∀ l ∈ tree, l.bytes ∈ leaves
  ofNodes : ∀ p ∈ combined parentHash (tree.map Leaf.hash), nodeBytes p ∈ nodes

/-- (ProofHashes leaves nodes leaf proof) says that checking a proof hashes nothing else. -/
structure ProofHashes (leaves nodes : Set (List UInt8)) (leaf : Leaf) (proof : List Hash)
    : Prop where
  ofLeaf : leaf.bytes ∈ leaves
  ofNodes : ∀ p ∈ path parentHash leaf.hash proof, nodeBytes p ∈ nodes

/-- (InputsUsed leaves nodes inputs input proof) says that the tree over some hashed inputs, and
checking a proof for one, hash nothing else, and that the inputs all start like leaves.
-/
structure InputsUsed (leaves nodes : Set (List UInt8)) (inputs : List (List UInt8))
    (input : List UInt8) (proof : List Hash) : Prop where
  ofLeaves : ∀ b ∈ input :: inputs, b ∈ leaves
  domain : ∀ b ∈ input :: inputs, bytesOf leafDomain <+: b
  ofTree : ∀ p ∈ combined parentHash (inputs.map sha256), nodeBytes p ∈ nodes
  ofProof : ∀ p ∈ path parentHash (sha256 input) proof, nodeBytes p ∈ nodes

section Soundness

variable {leaves nodes : Set (List UInt8)} {proof : List Hash}

/-- A node never has the hash of a leaf. -/
theorem TellsApart.node_ne_leaf (apart : TellsApart leaves nodes) {p : Hash × Hash}
    {b : List UInt8} (node : nodeBytes p ∈ nodes) (here : b ∈ leaves)
    (domain : bytesOf leafDomain <+: b)
    : parentHash p.1 p.2 ≠ sha256 b := by
  intro same
  rw [parentHash_eq] at same
  have bytes := apart.injective (.inr node) (.inl here) same
  exact apart.domain _ node (bytes ▸ domain)

/-- Hashed inputs are digests. -/
theorem hashes_digests (inputs : List (List UInt8)) : ∀ h ∈ inputs.map sha256, IsDigest h := by
  intro h member
  obtain ⟨b, _, rfl⟩ := List.mem_map.mp member
  exact sha256_length b

variable {inputs : List (List UInt8)} {input : List UInt8}

/-- Where SHA-256 tells apart what is hashed, nothing is imitated. -/
theorem TellsApart.unforgeable (apart : TellsApart leaves nodes)
    (used : InputsUsed leaves nodes inputs input proof) (digests : ∀ h ∈ proof, IsDigest h)
    : Unforgeable parentHash (inputs.map sha256) (sha256 input) proof where
  leaf_apart q member :=
    apart.node_ne_leaf (used.ofTree q member) (used.ofLeaves _ List.mem_cons_self)
      (used.domain _ List.mem_cons_self)
  path_apart p member := by
    intro imitated
    obtain ⟨b, there, same⟩ := List.mem_map.mp imitated
    have among := List.mem_cons_of_mem input there
    exact apart.node_ne_leaf (used.ofProof p member) (used.ofLeaves b among)
      (used.domain b among) same.symm
  binding p hp q hq same := by
    rw [parentHash_eq, parentHash_eq] at same
    have bytes := apart.injective (.inr (used.ofProof p hp)) (.inr (used.ofTree q hq)) same
    have ours := path_all parentHash_symmetric.closed (sha256_length input) digests p hp
    have theirs := pairs_all parentHash_symmetric.closed (s := .start (inputs.map sha256)) _
      (hashes_digests inputs) q hq
    exact nodeBytes_injective ours.1 ours.2 theirs.1 theirs.2 bytes

/-- Only a hashed input of the tree is verified, and only with its own proof. -/
theorem TellsApart.only_inputs (apart : TellsApart leaves nodes)
    (used : InputsUsed leaves nodes inputs input proof) (digests : ∀ h ∈ proof, IsDigest h)
    (some_leaf : inputs ≠ []) (few : inputs.length ≤ 2 ^ maxProofLen)
    (verified : verifyProof (sha256 input) proof (buildTree (inputs.map sha256)).1 = true)
    : ∃ j : Nat, inputs[j]? = some input
      ∧ (buildTree (inputs.map sha256)).2[j]? = some proof := by
  obtain ⟨j, at_leaf, at_proof⟩ := buildTree_sound (hashes_digests inputs)
    (by simpa using some_leaf) (by simpa using few) (apart.unforgeable used digests) verified
  refine ⟨j, ?_, at_proof⟩
  obtain ⟨b, there, same⟩ : ∃ b, inputs[j]? = some b ∧ sha256 b = sha256 input := by
    simpa using at_leaf
  have among := List.mem_cons_of_mem input (List.mem_of_getElem? there)
  rw [there, apart.injective (.inl (used.ofLeaves b among))
    (.inl (used.ofLeaves _ List.mem_cons_self)) same]

variable {tree : List Leaf} {leaf : Leaf}

/-- The leaves of a tree are hashed from their bytes. -/
theorem Leaf.map_hash (tree : List Leaf)
    : (tree.map Leaf.bytes).map sha256 = tree.map Leaf.hash :=
  List.map_map

theorem Leaf.hashes_digests (tree : List Leaf) : ∀ h ∈ tree.map Leaf.hash, IsDigest h :=
  Leaf.map_hash tree ▸ Engine.hashes_digests _

theorem Leaf.bytes_eq (l : Leaf)
    : l.bytes = leafInput (bytesOf l.account) l.liquid l.staked l.burned :=
  leafBytes_eq ..

/-- A leaf is known from its bytes. -/
theorem Leaf.bytes_injective {l l' : Leaf} (amounts : 0 ≤ l.liquid ∧ 0 ≤ l.staked)
    (amounts' : 0 ≤ l'.liquid ∧ 0 ≤ l'.staked) (same : l.bytes = l'.bytes)
    : l = l' := by
  rw [l.bytes_eq, l'.bytes_eq] at same
  obtain ⟨accounts, liquid, staked, burned⟩ := leafInput_injective (by omega) (by omega)
    (by omega) (by omega) same
  obtain ⟨_, _, _, _⟩ := l
  obtain ⟨_, _, _, _⟩ := l'
  simp only at accounts liquid staked burned
  rw [bytesOf_injective accounts, liquid, staked, burned]

/-- What the tree over leaves and checking a proof hash, as inputs. -/
theorem TreeHashes.used (treeHashes : TreeHashes leaves nodes tree)
    (proofHashes : ProofHashes leaves nodes leaf proof)
    : InputsUsed leaves nodes (tree.map Leaf.bytes) leaf.bytes proof where
  ofLeaves b member := by
    rcases List.mem_cons.mp member with same | there
    · exact same ▸ proofHashes.ofLeaf
    · obtain ⟨l, inside, rfl⟩ := List.mem_map.mp there
      exact treeHashes.ofLeaves l inside
  domain b member := by
    rw [← List.map_cons] at member
    obtain ⟨l, _, rfl⟩ := List.mem_map.mp member
    rw [l.bytes_eq]
    exact leafInput_domain ..
  ofTree := by
    rw [Leaf.map_hash]
    exact treeHashes.ofNodes
  ofProof := proofHashes.ofNodes

/-- Only a leaf of the tree is verified, and only with its own proof. -/
theorem TellsApart.only_leaves (apart : TellsApart leaves nodes)
    (treeHashes : TreeHashes leaves nodes tree) (proofHashes : ProofHashes leaves nodes leaf proof)
    (digests : ∀ h ∈ proof, IsDigest h) (some_leaf : tree ≠ [])
    (few : tree.length ≤ 2 ^ maxProofLen)
    (nonneg : ∀ l ∈ leaf :: tree, 0 ≤ l.liquid ∧ 0 ≤ l.staked)
    (verified : verifyProof leaf.hash proof (buildTree (tree.map Leaf.hash)).1 = true)
    : ∃ j : Nat, tree[j]? = some leaf
      ∧ (buildTree (tree.map Leaf.hash)).2[j]? = some proof := by
  rw [← Leaf.map_hash] at verified ⊢
  obtain ⟨j, at_leaf, at_proof⟩ := apart.only_inputs (treeHashes.used proofHashes) digests
    (by simpa using some_leaf) (by simpa using few) verified
  refine ⟨j, ?_, at_proof⟩
  obtain ⟨l, there, same⟩ : ∃ l, tree[j]? = some l ∧ l.bytes = leaf.bytes := by
    simpa using at_leaf
  have member := List.mem_cons_of_mem leaf (List.mem_of_getElem? there)
  rw [there, Leaf.bytes_injective (nonneg l member) (nonneg leaf List.mem_cons_self) same]

end Soundness

-----------------------------------------------------------------------------------------
-- Leaves of any account
-----------------------------------------------------------------------------------------

/-- A position with any byte string for its account, as a string of the source may be. -/
structure ByteLeaf where
  account : List UInt8
  liquid : Int
  staked : Int
  burned : Bool
  liquid_word : MachineInt.InI64 liquid
  staked_word : MachineInt.InI64 staked

def ByteLeaf.bytes (l : ByteLeaf) : List UInt8 := leafInput l.account l.liquid l.staked l.burned

def ByteLeaf.hash (l : ByteLeaf) : Hash := sha256 l.bytes

/-- A position is known from its bytes. -/
theorem ByteLeaf.bytes_injective {l l' : ByteLeaf} (same : l.bytes = l'.bytes) : l = l' := by
  obtain ⟨account, liquid, staked, burned⟩ := leafInput_injective l.liquid_word.lower
    l.staked_word.lower l'.liquid_word.lower l'.staked_word.lower same
  obtain ⟨_, _, _, _, _, _⟩ := l
  obtain ⟨_, _, _, _, _, _⟩ := l'
  simp only at account liquid staked burned
  subst account liquid staked burned
  rfl

/-- The bytes that are hashed for the leaves of a tree and for one that is presented. -/
def leafInputs (tree : List ByteLeaf) (leaf : ByteLeaf) : Set (List UInt8) :=
  {b | b ∈ (leaf :: tree).map ByteLeaf.bytes}

/-- The bytes that are hashed for the interior nodes of a tree and in checking a proof. -/
def nodeInputs (tree : List ByteLeaf) (leaf : ByteLeaf) (proof : List Hash) : Set (List UInt8) :=
  {b | b ∈ (combined parentHash (tree.map ByteLeaf.hash) ++ path parentHash leaf.hash proof).map
    nodeBytes}

theorem ByteLeaf.map_hash (tree : List ByteLeaf)
    : (tree.map ByteLeaf.bytes).map sha256 = tree.map ByteLeaf.hash :=
  List.map_map

theorem inputsUsed (tree : List ByteLeaf) (leaf : ByteLeaf) (proof : List Hash)
    : InputsUsed (leafInputs tree leaf) (nodeInputs tree leaf proof) (tree.map ByteLeaf.bytes)
      leaf.bytes proof where
  ofLeaves b member := member
  domain b member := by
    rw [← List.map_cons] at member
    obtain ⟨l, _, rfl⟩ := List.mem_map.mp member
    exact leafInput_domain ..
  ofTree p member := by
    rw [ByteLeaf.map_hash] at member
    exact List.mem_map_of_mem (List.mem_append_left _ member)
  ofProof p member := List.mem_map_of_mem (List.mem_append_right _ member)

/-- Every leaf's proof leads to the root and is short; what is verified against the root of some
positions is one of them with its own proof, where SHA-256 tells apart what is hashed; and a position
is known from the bytes that its hash commits.
-/
theorem snapshotTree_complete_sound
    : (∀ leaves : List Hash, (∀ h ∈ leaves, IsDigest h) → leaves ≠ []
        → leaves.length ≤ 2 ^ maxProofLen
        → ∀ (j : Nat) (leaf : Hash), leaves[j]? = some leaf
          → ∃ proof, (buildTree leaves).2[j]? = some proof
            ∧ verifyProof leaf proof (buildTree leaves).1 = true ∧ proof.length ≤ maxProofLen)
      ∧ (∀ (tree : List ByteLeaf) (leaf : ByteLeaf) (proof : List Hash), tree ≠ []
        → tree.length ≤ 2 ^ maxProofLen → (∀ h ∈ proof, IsDigest h)
        → TellsApart (leafInputs tree leaf) (nodeInputs tree leaf proof)
        → verifyProof leaf.hash proof (buildTree (tree.map ByteLeaf.hash)).1 = true
        → ∃ j : Nat, tree[j]? = some leaf
          ∧ (buildTree (tree.map ByteLeaf.hash)).2[j]? = some proof)
      ∧ ∀ l l' : ByteLeaf, l.bytes = l'.bytes → l = l' := by
  refine ⟨?_, ?_, fun l l' same => ByteLeaf.bytes_injective same⟩
  · intro leaves digests some_leaf few j leaf at_leaf
    obtain ⟨-, length, verified⟩ := buildTree_complete leaves digests some_leaf few
    have inside := (List.getElem?_eq_some_iff.mp at_leaf).1
    have at_proof := List.getElem?_eq_getElem (length.symm ▸ inside)
    have leads := (verified j leaf _ at_leaf at_proof).1
    refine ⟨_, at_proof, leads, ?_⟩
    unfold verifyProof at leads
    split at leads
    · cases leads
    · omega
  · intro tree leaf proof some_leaf few digests apart verified
    rw [← ByteLeaf.map_hash] at verified ⊢
    obtain ⟨j, at_leaf, at_proof⟩ := apart.only_inputs (inputsUsed tree leaf proof) digests
      (by simpa using some_leaf) (by simpa using few) verified
    obtain ⟨l, there, same⟩ : ∃ l, tree[j]? = some l ∧ l.bytes = leaf.bytes := by
      simpa using at_leaf
    exact ⟨j, ByteLeaf.bytes_injective same ▸ there, at_proof⟩

/-- An account with a separator, a burned position, and one that is promoted. -/
def smallTree : List ByteLeaf := [
  ⟨bytesOf "hive:a|1", 1000, 500, false, ⟨by decide, by decide⟩, ⟨by decide, by decide⟩⟩,
  ⟨bytesOf "hive:bob", 100, 0, true, ⟨by decide, by decide⟩, ⟨by decide, by decide⟩⟩,
  ⟨[0xff, 0x7c], -2 ^ 63, -1, false, ⟨by decide, by decide⟩, ⟨by decide, by decide⟩⟩]

/-- The published proof of the first of them. -/
def smallClimb : List Hash := (buildTree (smallTree.map ByteLeaf.hash)).2.headD []

theorem snapshotTree_small
    : (∃ proof, (buildTree (smallTree.map ByteLeaf.hash)).2[2]? = some proof
        ∧ verifyProof (smallTree.map ByteLeaf.hash)[2] proof
          (buildTree (smallTree.map ByteLeaf.hash)).1 = true ∧ proof.length ≤ maxProofLen)
      ∧ ∃ j : Nat, smallTree[j]? = some smallTree[0]
        ∧ (buildTree (smallTree.map ByteLeaf.hash)).2[j]? = some smallClimb := by
  have digests : ∀ h ∈ smallTree.map ByteLeaf.hash, IsDigest h := by
    rw [← ByteLeaf.map_hash]
    exact hashes_digests _
  have climb : ∀ h ∈ smallClimb, h.length = 32 := by decide +kernel
  let used := (smallTree[0] :: smallTree).map ByteLeaf.bytes
  let nodes := (combined parentHash (smallTree.map ByteLeaf.hash)
    ++ path parentHash smallTree[0].hash smallClimb).map nodeBytes
  have apart : ∀ x ∈ used ++ nodes, ∀ y ∈ used ++ nodes, sha256 x = sha256 y → x = y := by
    decide +kernel
  have domain : ∀ x ∈ nodes, ¬bytesOf leafDomain <+: x := by decide +kernel
  have tellsApart : TellsApart (leafInputs smallTree smallTree[0])
      (nodeInputs smallTree smallTree[0] smallClimb) :=
    ⟨fun x hx y hy => apart x (List.mem_append.mpr hx) y (List.mem_append.mpr hy), domain⟩
  refine ⟨snapshotTree_complete_sound.1 _ digests (by decide) (by decide) 2 _ rfl, ?_⟩
  exact snapshotTree_complete_sound.2.1 smallTree smallTree[0] smallClimb (by decide) (by decide)
    climb tellsApart (by decide +kernel)

end LasseCash.Engine
