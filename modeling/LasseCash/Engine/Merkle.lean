import LasseCash.Engine.Units

/-! The hand-written SHA-256 of `engine/sha256.go` and the leaf and proof checks of
`engine/merkle.go`. A byte string of the source is a list of bytes here.
-/

namespace LasseCash.Engine

/-- The UTF-8 bytes of a string, which is what a string of the source holds. -/
def bytesOf (s : String) : List UInt8 := s.toList.flatMap String.utf8EncodeChar

-----------------------------------------------------------------------------------------
-- SHA-256
-----------------------------------------------------------------------------------------

def sha256K : List UInt32 := [
  0x428a2f98, 0x71374491, 0xb5c0fbcf, 0xe9b5dba5, 0x3956c25b, 0x59f111f1, 0x923f82a4, 0xab1c5ed5,
  0xd807aa98, 0x12835b01, 0x243185be, 0x550c7dc3, 0x72be5d74, 0x80deb1fe, 0x9bdc06a7, 0xc19bf174,
  0xe49b69c1, 0xefbe4786, 0x0fc19dc6, 0x240ca1cc, 0x2de92c6f, 0x4a7484aa, 0x5cb0a9dc, 0x76f988da,
  0x983e5152, 0xa831c66d, 0xb00327c8, 0xbf597fc7, 0xc6e00bf3, 0xd5a79147, 0x06ca6351, 0x14292967,
  0x27b70a85, 0x2e1b2138, 0x4d2c6dfc, 0x53380d13, 0x650a7354, 0x766a0abb, 0x81c2c92e, 0x92722c85,
  0xa2bfe8a1, 0xa81a664b, 0xc24b8b70, 0xc76c51a3, 0xd192e819, 0xd6990624, 0xf40e3585, 0x106aa070,
  0x19a4c116, 0x1e376c08, 0x2748774c, 0x34b0bcb5, 0x391c0cb3, 0x4ed8aa4a, 0x5b9cca4f, 0x682e6ff3,
  0x748f82ee, 0x78a5636f, 0x84c87814, 0x8cc70208, 0x90befffa, 0xa4506ceb, 0xbef9a3f7, 0xc67178f2]

def rotr (x n : UInt32) : UInt32 := x >>> n ||| x <<< (32 - n)

/-- The message, a `0x80` byte, zeros up to 56 modulo 64, and the bit length big-endian. -/
def padMessage (msg : List UInt8) : List UInt8 :=
  let ml := msg.length * 8
  msg ++ [0x80] ++ List.replicate ((119 - msg.length % 64) % 64) 0
    ++ (List.range 8).map (fun i => UInt8.ofNat (ml % 2 ^ 64 / 256 ^ (7 - i)))

/-- Four bytes as a big-endian word. -/
def wordOf (b : List UInt8) : UInt32 :=
  b.foldl (fun w x => w <<< 8 ||| x.toUInt32) 0

/-- The first sixteen words of a block, latest first. -/
def blockWords (blk : List UInt8) : List UInt32 :=
  ((List.range 16).map (fun i => wordOf ((blk.drop (4 * i)).take 4))).reverse

/-- One extension of the message schedule, on the words so far, latest first. -/
def extendSchedule (w : List UInt32) : List UInt32 :=
  let w15 := w.getD 14 0
  let w2 := w.getD 1 0
  let s0 := rotr w15 7 ^^^ rotr w15 18 ^^^ (w15 >>> 3)
  let s1 := rotr w2 17 ^^^ rotr w2 19 ^^^ (w2 >>> 10)
  (w.getD 15 0 + s0 + w.getD 6 0 + s1) :: w

/-- The sixty-four words of a block in order. -/
def messageSchedule (blk : List UInt8) : List UInt32 :=
  (Nat.repeat extendSchedule 48 (blockWords blk)).reverse

/-- The eight working words of the compression. -/
structure ShaState where
  a : UInt32
  b : UInt32
  c : UInt32
  d : UInt32
  e : UInt32
  f : UInt32
  g : UInt32
  h : UInt32

def shaInit : ShaState :=
  ⟨0x6a09e667, 0xbb67ae85, 0x3c6ef372, 0xa54ff53a, 0x510e527f, 0x9b05688c, 0x1f83d9ab,
    0x5be0cd19⟩

/-- One of the sixty-four rounds, on a round constant and a schedule word. -/
def shaRound (v : ShaState) (kw : UInt32 × UInt32) : ShaState :=
  let s1 := rotr v.e 6 ^^^ rotr v.e 11 ^^^ rotr v.e 25
  let ch := (v.e &&& v.f) ^^^ (~~~v.e &&& v.g)
  let t1 := v.h + s1 + ch + kw.1 + kw.2
  let s0 := rotr v.a 2 ^^^ rotr v.a 13 ^^^ rotr v.a 22
  let maj := (v.a &&& v.b) ^^^ (v.a &&& v.c) ^^^ (v.b &&& v.c)
  let t2 := s0 + maj
  ⟨t1 + t2, v.a, v.b, v.c, v.d + t1, v.e, v.f, v.g⟩

/-- The compression of one block into the running digest. -/
def shaBlock (v : ShaState) (blk : List UInt8) : ShaState :=
  let r := (sha256K.zip (messageSchedule blk)).foldl shaRound v
  ⟨v.a + r.a, v.b + r.b, v.c + r.c, v.d + r.d, v.e + r.e, v.f + r.f, v.g + r.g, v.h + r.h⟩

/-- The block loop over a padded message of `n` blocks. -/
def shaBlocks : Nat → List UInt8 → ShaState → ShaState
  | 0, _, v => v
  | n + 1, bytes, v => shaBlocks n (bytes.drop 64) (shaBlock v (bytes.take 64))

def bytesOfWord (v : UInt32) : List UInt8 :=
  [(v >>> 24).toUInt8, (v >>> 16).toUInt8, (v >>> 8).toUInt8, v.toUInt8]

/-- A digest: thirty-two bytes. -/
abbrev Hash := List UInt8

def sha256 (msg : List UInt8) : Hash :=
  let padded := padMessage msg
  let v := shaBlocks (padded.length / 64) padded shaInit
  [v.a, v.b, v.c, v.d, v.e, v.f, v.g, v.h].flatMap bytesOfWord

example : sha256 (bytesOf "abc") = [
    0xba, 0x78, 0x16, 0xbf, 0x8f, 0x01, 0xcf, 0xea, 0x41, 0x41, 0x40, 0xde, 0x5d, 0xae, 0x22, 0x23,
    0xb0, 0x03, 0x61, 0xa3, 0x96, 0x17, 0x7a, 0x9c, 0xb4, 0x10, 0xff, 0x61, 0xf2, 0x00, 0x15, 0xad]
    := by decide +kernel

-----------------------------------------------------------------------------------------
-- Leaves and proofs
-----------------------------------------------------------------------------------------

def maxProofLen : Nat := 32

/-- Separates leaf hashes from interior-node hashes. -/
def leafDomain : String := "lassecash-migration-leaf-v1|"

/-- The decimal of an amount. The least amount has no positive counterpart, so that the loop finds
no digits and only its sign is written.
-/
def itoa (v : Int) : String :=
  if v = 0 then "0"
  else
    let neg : Bool := v < 0
    let v := if neg then MachineInt.i64 (-v) else v
    let digits := if v > 0 then Nat.toDigits 10 v.toNat else []
    .ofList (if neg then '-' :: digits else digits)

/-- The hash of one account's snapshot position. -/
def leafHash (account : String) (liquid staked : Int) (burned : Bool) : Hash :=
  sha256 (bytesOf (leafDomain ++ account ++ "|" ++ itoa liquid ++ "|" ++ itoa staked
    ++ "|" ++ (if burned then "b" else "m")))

/-- Bytewise comparison of two digests. -/
def lessHash : Hash → Hash → Bool
  | a :: as, b :: bs => if a ≠ b then a < b else lessHash as bs
  | _, _ => false

/-- Two children combined in sorted order, so that a proof needs no left or right. -/
def parentHash (a b : Hash) : Hash := if lessHash b a then sha256 (b ++ a) else sha256 (a ++ b)

def verifyProof (leaf : Hash) (proof : List Hash) (root : Hash) : Bool :=
  if proof.length > maxProofLen then false else proof.foldl parentHash leaf == root

def hexVal (c : UInt8) : Option UInt8 :=
  if c ≥ 48 ∧ c ≤ 57 then some (c - 48)
  else if c ≥ 97 ∧ c ≤ 102 then some (c - 97 + 10)
  else if c ≥ 65 ∧ c ≤ 70 then some (c - 65 + 10)
  else none

/-- Pairs of hex characters as bytes. -/
def hexPairs : List UInt8 → Option (List UInt8)
  | hi :: lo :: rest => do
      let h ← hexVal hi
      let l ← hexVal lo
      let tail ← hexPairs rest
      return (h <<< 4 ||| l) :: tail
  | _ => some []

/-- Exactly sixty-four hex characters, as a digest. -/
def hexToHash (s : String) : Option Hash :=
  if (bytesOf s).length ≠ 64 then none else hexPairs (bytesOf s)

end LasseCash.Engine
