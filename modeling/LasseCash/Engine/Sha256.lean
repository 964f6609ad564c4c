import LasseCash.Engine.Merkle
import LasseCash.Lib.SecureHash

/-! `Sha256` of `engine/sha256.go`, loop by loop on its arrays: no slice is out of range, and what it
returns is the digest of the Secure Hash Standard, whatever the length of the message.
-/

namespace LasseCash.Engine

open SecureHash

-----------------------------------------------------------------------------------------
-- The source
-----------------------------------------------------------------------------------------

/-- The loop that appends zeros until the length is 56 modulo 64. -/
def padZeros (padded : List UInt8) : List UInt8 :=
  if padded.length % 64 ≠ 56 then padZeros (padded ++ [0]) else padded
termination_by (120 - padded.length % 64) % 64
decreasing_by
  rw [List.length_append, List.length_singleton]
  omega

/-- The loop that appends the bit length, from its highest byte down. -/
def appendLength (padded : List UInt8) (ml : UInt64) : List UInt8 :=
  ([7, 6, 5, 4, 3, 2, 1, 0] : List UInt64).foldl
    (fun padded i => padded ++ [(ml >>> (8 * i)).toUInt8]) padded

/-- The padding of the source. -/
def paddedRun (msg : List UInt8) : List UInt8 :=
  let ml := UInt64.ofNat msg.length * 8
  appendLength (padZeros (msg ++ [0x80])) ml

/-- `b[lo:hi]`; a slice out of range is a trap. -/
def sliceOf (b : List UInt8) (lo hi : Nat) : Option (List UInt8) :=
  if lo ≤ hi ∧ hi ≤ b.length then some ((b.drop lo).take (hi - lo)) else none

/-- One of the first sixteen words, out of four bytes of the block. -/
def loadWord (blk : List UInt8) (w : List UInt32) (i : Nat) : List UInt32 :=
  w.set i ((blk.getD (4 * i) 0).toUInt32 <<< 24 ||| (blk.getD (4 * i + 1) 0).toUInt32 <<< 16
    ||| (blk.getD (4 * i + 2) 0).toUInt32 <<< 8 ||| (blk.getD (4 * i + 3) 0).toUInt32)

/-- One of the other words, out of four words before it. -/
def extendWord (w : List UInt32) (i : Nat) : List UInt32 :=
  let w15 := w.getD (i - 15) 0
  let w2 := w.getD (i - 2) 0
  let s0 := rotr w15 7 ^^^ rotr w15 18 ^^^ (w15 >>> 3)
  let s1 := rotr w2 17 ^^^ rotr w2 19 ^^^ (w2 >>> 10)
  w.set i (w.getD (i - 16) 0 + s0 + w.getD (i - 7) 0 + s1)

/-- The body of the block loop, on the running digest and the array of words, which the next block
overwrites.
-/
def blockRun (padded : List UInt8) (s : ShaState × List UInt32) (off : Nat)
    : Option (ShaState × List UInt32) := do
  let (h, w) := s
  let blk ← sliceOf padded off (off + 64)
  let w := (List.range 16).foldl (loadWord blk) w
  let w := (List.range' 16 48).foldl extendWord w
  let v := (List.range 64).foldl (fun v i => shaRound v (sha256K.getD i 0, w.getD i 0)) h
  some (⟨h.a + v.a, h.b + v.b, h.c + v.c, h.d + v.d, h.e + v.e, h.f + v.f, h.g + v.g, h.h + v.h⟩, w)

/-- `Sha256` with its loops; `none` is a trap. -/
def sha256Run (msg : List UInt8) : Option Hash := do
  let padded := paddedRun msg
  let offsets := List.range' 0 ((padded.length + 63) / 64) 64
  let (h, _) ← offsets.foldlM (blockRun padded) (shaInit, List.replicate 64 0)
  some ([h.a, h.b, h.c, h.d, h.e, h.f, h.g, h.h].flatMap bytesOfWord)

-----------------------------------------------------------------------------------------
-- Padding
-----------------------------------------------------------------------------------------

/-- The zeros are as many as the length leaves to 56, by induction on the loop. -/
theorem padZeros_eq (padded : List UInt8)
    : padZeros padded = padded ++ List.replicate ((120 - padded.length % 64) % 64) 0 := by
  induction padded using padZeros.induct with
  | case1 padded more ih =>
      have one_less : (120 - padded.length % 64) % 64
          = (120 - (padded ++ [(0 : UInt8)]).length % 64) % 64 + 1 := by
        rw [List.length_append, List.length_singleton]
        omega
      rw [padZeros, if_pos more, ih, one_less, List.replicate_succ, List.append_assoc]
      rfl
  | case2 padded done =>
      have full : padded.length % 64 = 56 := not_not.mp done
      rw [padZeros, if_neg done, full]
      exact (List.append_nil padded).symm

/-- The length is appended as the eight bytes of its word. -/
theorem appendLength_eq (padded : List UInt8) (ml : UInt64)
    : appendLength padded ml = padded ++ octets 8 ml.toNat := by
  have byte (i : UInt64) (small : i.toNat < 8)
      : (ml >>> (8 * i)).toUInt8 = .ofNat (ml.toNat / 256 ^ i.toNat) := by
    have eight : (8 : UInt64).toNat = 8 := rfl
    have shift : (8 * i).toNat % 64 = 8 * i.toNat := by
      rw [UInt64.toNat_mul, eight]
      omega
    refine UInt8.toNat_inj.mp ?_
    rw [UInt64.toNat_toUInt8, UInt64.toNat_shiftRight, shift, Nat.shiftRight_eq_div_pow, pow_mul]
    exact UInt8.toNat_ofNat'.symm
  simp only [appendLength, List.foldl_cons, List.foldl_nil, octets, List.append_assoc,
    List.singleton_append]
  rw [byte 7 (by decide), byte 6 (by decide), byte 5 (by decide), byte 4 (by decide),
    byte 3 (by decide), byte 2 (by decide), byte 1 (by decide), byte 0 (by decide)]
  rfl

/-- The padding of the source on every message. -/
theorem paddedRun_eq (msg : List UInt8)
    : paddedRun msg = msg ++ [0x80] ++ List.replicate (zeroBytes msg.length) 0
      ++ octets 8 (8 * msg.length % 2 ^ 64) := by
  have zeros : (120 - (msg ++ [(0x80 : UInt8)]).length % 64) % 64 = zeroBytes msg.length := by
    rw [List.length_append, List.length_singleton, zeroBytes]
    omega
  have length : (UInt64.ofNat msg.length * 8).toNat = 8 * msg.length % 2 ^ 64 := by
    have eight : (8 : UInt64).toNat = 8 := rfl
    rw [UInt64.toNat_mul, UInt64.toNat_ofNat', eight]
    omega
  rw [paddedRun, appendLength_eq, padZeros_eq, zeros, length]

/-- On a message whose bits a word can count, it is the padding of the standard. -/
theorem paddedRun_bits {msg : List UInt8} (short : msg.length < 2 ^ 61)
    : bitsOf (paddedRun msg) = pad (bitsOf msg) := by
  rw [paddedRun_eq, pad_bitsOf, Nat.mod_eq_of_lt (by omega)]

theorem paddedRun_blocks (msg : List UInt8) : 64 ∣ (paddedRun msg).length := by
  have blocks := padded_blocks msg.length
  have length : (paddedRun msg).length = msg.length + 1 + zeroBytes msg.length + 8 := by
    simp only [paddedRun_eq, List.length_append, List.length_singleton, List.length_replicate,
      octets_length]
  rw [length]
  exact blocks

-----------------------------------------------------------------------------------------
-- Words
-----------------------------------------------------------------------------------------

/-- A rotation of the source. -/
theorem rotr_toBitVec (x : UInt32) {n : UInt32} (positive : 0 < n.toNat) (small : n.toNat < 32)
    : (rotr x n).toBitVec = x.toBitVec.rotateRight n.toNat := by
  have right : (n.toBitVec % (32 : BitVec 32)).toNat = n.toNat := Nat.mod_eq_of_lt small
  have left : ((32 - n).toBitVec % (32 : BitVec 32)).toNat = 32 - n.toNat := by
    have value : (32 - n).toNat = 32 - n.toNat :=
      UInt32.toNat_sub_of_le 32 n (UInt32.le_iff_toNat_le.mpr small.le)
    exact (congrArg (· % 32) value).trans (Nat.mod_eq_of_lt (by omega))
  rw [rotr, UInt32.toBitVec_or, UInt32.toBitVec_shiftRight, UInt32.toBitVec_shiftLeft,
    BitVec.ushiftRight_eq', BitVec.shiftLeft_eq', BitVec.rotateRight, BitVec.rotateRightAux,
    Nat.mod_eq_of_lt small]
  exact congrArg₂ (fun i j => x.toBitVec >>> i ||| x.toBitVec <<< j) right left

/-- The word of four bytes. -/
theorem word_of_bytes (b0 b1 b2 b3 : UInt8)
    : (b0.toUInt32 <<< 24 ||| b1.toUInt32 <<< 16 ||| b2.toUInt32 <<< 8 ||| b3.toUInt32).toNat
      = BigEndian.value [b0, b1, b2, b3] := by
  have join (x k : Nat) (b : UInt8)
      : x <<< (8 + k) ||| b.toNat <<< k = (x * 256 + b.toNat) <<< k := by
    rw [Nat.shiftLeft_add, ← Nat.shiftLeft_or_distrib, ← Nat.shiftLeft_add_eq_or_of_lt b.toNat_lt,
      Nat.shiftLeft_eq x 8]
  have shifted (b : UInt8) (k : UInt32) (fits : k.toNat ≤ 24)
      : (b.toUInt32 <<< k).toNat = b.toNat <<< k.toNat := by
    have below : b.toNat * 2 ^ k.toNat < 2 ^ 32 := by
      calc b.toNat * 2 ^ k.toNat < 2 ^ 8 * 2 ^ k.toNat :=
            Nat.mul_lt_mul_of_pos_right b.toNat_lt (Nat.two_pow_pos _)
        _ ≤ 2 ^ 8 * 2 ^ 24 := Nat.mul_le_mul_left _ (Nat.pow_le_pow_right (by decide) fits)
    rw [UInt32.toNat_shiftLeft, Nat.mod_eq_of_lt (show k.toNat < 32 by omega), UInt8.toNat_toUInt32,
      Nat.shiftLeft_eq, Nat.mod_eq_of_lt below]
  rw [UInt32.toNat_or, UInt32.toNat_or, UInt32.toNat_or, shifted b0 24 (by decide),
    shifted b1 16 (by decide), shifted b2 8 (by decide), UInt8.toNat_toUInt32]
  calc b0.toNat <<< (8 + 16) ||| b1.toNat <<< 16 ||| b2.toNat <<< 8 ||| b3.toNat
    _ = (b0.toNat * 256 + b1.toNat) <<< (8 + 8) ||| b2.toNat <<< 8 ||| b3.toNat := by
      rw [join b0.toNat 16 b1]
    _ = ((b0.toNat * 256 + b1.toNat) * 256 + b2.toNat) <<< (8 + 0) ||| b3.toNat <<< 0 := by
      rw [join _ 8 b2, Nat.shiftLeft_zero]
    _ = BigEndian.value [b0, b1, b2, b3] := by
      rw [join _ 0 b3, Nat.shiftLeft_zero]
      simp [BigEndian.value]

/-- Four bytes of a string, read one by one. -/
theorem take_four (bytes : List UInt8) {n : Nat} (within : n + 4 ≤ bytes.length)
    : (bytes.drop n).take 4
      = [bytes.getD n 0, bytes.getD (n + 1) 0, bytes.getD (n + 2) 0, bytes.getD (n + 3) 0] := by
  rw [List.drop_eq_getElem_cons (by omega), List.drop_eq_getElem_cons (by omega),
    List.drop_eq_getElem_cons (by omega), List.drop_eq_getElem_cons (by omega)]
  simp only [List.take_succ_cons, List.take_zero]
  rw [List.getD_eq_getElem bytes 0 (by omega), List.getD_eq_getElem bytes 0 (by omega),
    List.getD_eq_getElem bytes 0 (by omega), List.getD_eq_getElem bytes 0 (by omega)]

/-- (Holds blk M) says that the words of a block are those of `M`. -/
def Holds (blk : List UInt8) (M : Nat → Word) : Prop :=
  blk.length = 64 ∧ ∀ j < 16, wordAt (bitsOf blk) j = M j

/-- The bytes of a block of a padded message hold its words. -/
theorem holds_block (padded : List UInt8) {i : Nat} (within : 64 * i + 64 ≤ padded.length)
    : Holds ((padded.drop (64 * i)).take 64) fun j => wordAt (bitsOf padded) (16 * i + j) := by
  refine ⟨by rw [List.length_take, List.length_drop]; omega, fun j small => ?_⟩
  have four : (((padded.drop (64 * i)).take 64).drop (4 * j)).take 4
      = (padded.drop (4 * (16 * i + j))).take 4 := by
    rw [List.drop_take, List.take_take, List.drop_drop, min_eq_left (by omega),
      show 64 * i + 4 * j = 4 * (16 * i + j) by ring]
  change _ = wordAt (bitsOf padded) (16 * i + j)
  rw [wordAt_bitsOf, wordAt_bitsOf, four]

-----------------------------------------------------------------------------------------
-- The message schedule
-----------------------------------------------------------------------------------------

/-- (Filled M n w) says that the first `n` words of the array are those of the schedule. -/
structure Filled (M : Nat → Word) (n : Nat) (w : List UInt32) : Prop where
  length : w.length = 64
  word : ∀ t < n, (w.getD t 0).toBitVec = schedule M t

/-- Setting the next word fills it. -/
theorem Filled.set {M : Nat → Word} {n : Nat} {w : List UInt32} (filled : Filled M n w)
    (within : n < 64) {x : UInt32} (next : x.toBitVec = schedule M n)
    : Filled M (n + 1) (w.set n x) := by
  refine ⟨by rw [List.length_set, filled.length], fun t less => ?_⟩
  by_cases same : t = n
  · subst same
    rw [List.getD_eq_getElem _ _ (by rw [List.length_set, filled.length]; exact within),
      List.getElem_set_self, next]
  · rw [List.getD_eq_getElem?_getD, List.getElem?_set_ne (Ne.symm same),
      ← List.getD_eq_getElem?_getD]
    exact filled.word t (by omega)

/-- The first loop loads the words of the block, by induction on its steps. -/
theorem Filled.load {blk : List UInt8} {M : Nat → Word} (holds : Holds blk M) {w : List UInt32}
    (length : w.length = 64) {n : Nat} (within : n ≤ 16)
    : Filled M n ((List.range n).foldl (loadWord blk) w) := by
  induction n with
  | zero => exact ⟨length, nofun⟩
  | succ n ih =>
      rw [List.range_succ, List.foldl_append]
      refine (ih (by omega)).set (by omega) ?_
      have four := take_four blk (n := 4 * n) (by rw [holds.1]; omega)
      rw [schedule_of_lt (by omega), ← holds.2 n (by omega), wordAt_bitsOf, four, ← word_of_bytes]
      exact BitVec.eq_of_toNat_eq (Nat.mod_eq_of_lt (UInt32.toNat_lt _)).symm

/-- The two small functions of the source are the standard's. -/
theorem smallSigmas (x : UInt32)
    : (rotr x 7 ^^^ rotr x 18 ^^^ (x >>> 3)).toBitVec = smallSigma0 x.toBitVec
      ∧ (rotr x 17 ^^^ rotr x 19 ^^^ (x >>> 10)).toBitVec = smallSigma1 x.toBitVec := by
  constructor
  · rw [UInt32.toBitVec_xor, UInt32.toBitVec_xor, rotr_toBitVec x (by decide) (by decide),
      rotr_toBitVec x (by decide) (by decide)]
    rfl
  · rw [UInt32.toBitVec_xor, UInt32.toBitVec_xor, rotr_toBitVec x (by decide) (by decide),
      rotr_toBitVec x (by decide) (by decide)]
    rfl

/-- The second loop extends them, by induction on its steps. -/
theorem Filled.extend {M : Nat → Word} {w : List UInt32} (filled : Filled M 16 w) {n : Nat}
    (within : n ≤ 48)
    : Filled M (16 + n) ((List.range' 16 n).foldl extendWord w) := by
  induction n with
  | zero => exact filled
  | succ n ih =>
      have before := ih (by omega)
      rw [List.range'_concat, List.foldl_append, Nat.one_mul]
      refine before.set (by omega) ?_
      generalize (List.range' 16 n).foldl extendWord w = w at before
      rw [Nat.add_comm 16 n, schedule_add, ← before.word (n + 14) (by omega),
        ← before.word (n + 9) (by omega), ← before.word (n + 1) (by omega),
        ← before.word n (by omega), ← (smallSigmas _).1, ← (smallSigmas _).2]
      simp only [Nat.add_sub_cancel, show n + 16 - 15 = n + 1 by omega,
        show n + 16 - 7 = n + 9 by omega, show n + 16 - 2 = n + 14 by omega, UInt32.toBitVec_add]
      ac_rfl

-----------------------------------------------------------------------------------------
-- The compression
-----------------------------------------------------------------------------------------

/-- The words of a state as those of the standard. -/
def ShaState.vars (v : ShaState) : Vars :=
  ⟨v.a.toBitVec, v.b.toBitVec, v.c.toBitVec, v.d.toBitVec, v.e.toBitVec, v.f.toBitVec, v.g.toBitVec,
    v.h.toBitVec⟩

/-- The two big functions of the source are the standard's. -/
theorem bigSigmas (x : UInt32)
    : (rotr x 2 ^^^ rotr x 13 ^^^ rotr x 22).toBitVec = bigSigma0 x.toBitVec
      ∧ (rotr x 6 ^^^ rotr x 11 ^^^ rotr x 25).toBitVec = bigSigma1 x.toBitVec := by
  constructor
  · rw [UInt32.toBitVec_xor, UInt32.toBitVec_xor, rotr_toBitVec x (by decide) (by decide),
      rotr_toBitVec x (by decide) (by decide), rotr_toBitVec x (by decide) (by decide)]
    rfl
  · rw [UInt32.toBitVec_xor, UInt32.toBitVec_xor, rotr_toBitVec x (by decide) (by decide),
      rotr_toBitVec x (by decide) (by decide), rotr_toBitVec x (by decide) (by decide)]
    rfl

/-- A round of the source is a round of the standard. -/
theorem shaRound_vars (v : ShaState) (k x : UInt32)
    : (shaRound v (k, x)).vars = SecureHash.round v.vars k.toBitVec x.toBitVec := by
  have t1 : (v.h + (rotr v.e 6 ^^^ rotr v.e 11 ^^^ rotr v.e 25)
        + ((v.e &&& v.f) ^^^ (~~~v.e &&& v.g)) + k + x).toBitVec
      = v.h.toBitVec + bigSigma1 v.e.toBitVec + Ch v.e.toBitVec v.f.toBitVec v.g.toBitVec
        + k.toBitVec + x.toBitVec := by
    simp only [UInt32.toBitVec_add, (bigSigmas _).2]
    rfl
  have t2 : ((rotr v.a 2 ^^^ rotr v.a 13 ^^^ rotr v.a 22)
        + ((v.a &&& v.b) ^^^ (v.a &&& v.c) ^^^ (v.b &&& v.c))).toBitVec
      = bigSigma0 v.a.toBitVec + Maj v.a.toBitVec v.b.toBitVec v.c.toBitVec := by
    simp only [UInt32.toBitVec_add, (bigSigmas _).1]
    rfl
  simp only [shaRound, ShaState.vars, SecureHash.round, ← t1, ← t2, ← UInt32.toBitVec_add]

/-- A table of words that the powers of whole numbers enclose is that of the roots of the primes. -/
theorem rootBits_table {n : Nat} (size : Nat) (table : List UInt32) (nonzero : n ≠ 0)
    (primes_enough : size ≤ 64)
    (enclosed : ∀ t < size, ∃ c < 8,
      (c * 2 ^ 32 + (table.getD t 0).toNat) ^ n ≤ primes.getD t 0 * (2 ^ 32) ^ n
      ∧ primes.getD t 0 * (2 ^ 32) ^ n < (c * 2 ^ 32 + (table.getD t 0).toNat + 1) ^ n)
    {t : Nat} (within : t < size)
    : (table.getD t 0).toBitVec = rootBits n (Nat.nth Nat.Prime t) := by
  obtain ⟨c, -, low, high⟩ := enclosed t within
  rw [nth_prime (by omega), rootBits_eq nonzero low high, ← UInt32.toNat_toBitVec,
    BitVec.ofNat_toNat, BitVec.setWidth_eq]

/-- The table of the source is the standard's constants. -/
theorem sha256K_eq {t : Nat} (within : t < 64) : (sha256K.getD t 0).toBitVec = K t :=
  rootBits_table (n := 3) 64 sha256K (by decide) le_rfl (by decide +kernel) within

/-- The first digest of the source is the standard's initial hash value. -/
theorem shaInit_vars : shaInit.vars = initial := by
  have H {t : Nat} (within : t < 8) := rootBits_table (n := 2) 8
    [shaInit.a, shaInit.b, shaInit.c, shaInit.d, shaInit.e, shaInit.f, shaInit.g, shaInit.h]
    (by decide) (by decide) (by decide +kernel) within
  apply Vars.ext
  · exact H (t := 0) (by decide)
  · exact H (t := 1) (by decide)
  · exact H (t := 2) (by decide)
  · exact H (t := 3) (by decide)
  · exact H (t := 4) (by decide)
  · exact H (t := 5) (by decide)
  · exact H (t := 6) (by decide)
  · exact H (t := 7) (by decide)

/-- The rounds of the source are the standard's, by induction on how many have run. -/
theorem rounds_vars {M : Nat → Word} {w : List UInt32} (filled : Filled M 64 w) (h : ShaState)
    {n : Nat} (within : n ≤ 64)
    : ((List.range n).foldl (fun v i => shaRound v (sha256K.getD i 0, w.getD i 0)) h).vars
      = (List.range n).foldl (fun v t => SecureHash.round v (K t) (schedule M t)) h.vars := by
  induction n with
  | zero => rfl
  | succ n ih =>
      rw [List.range_succ, List.foldl_append, List.foldl_append, ← ih (by omega)]
      simp only [List.foldl_cons, List.foldl_nil]
      rw [shaRound_vars, sha256K_eq (by omega), filled.word n (by omega)]

-----------------------------------------------------------------------------------------
-- The blocks
-----------------------------------------------------------------------------------------

/-- The body of the block loop compresses its block, whatever words the array holds. -/
theorem blockRun_compresses {padded : List UInt8} {i : Nat} (within : 64 * i + 64 ≤ padded.length)
    (h : ShaState) {w : List UInt32} (length : w.length = 64)
    : ∃ h' w', blockRun padded (h, w) (64 * i) = some (h', w') ∧ w'.length = 64
      ∧ h'.vars = compress h.vars fun j => wordAt (bitsOf padded) (16 * i + j) := by
  have slice : sliceOf padded (64 * i) (64 * i + 64) = some ((padded.drop (64 * i)).take 64) := by
    rw [sliceOf, if_pos ⟨by omega, within⟩, Nat.add_sub_cancel_left]
  have filled := (Filled.load (holds_block padded within) length (n := 16) le_rfl).extend (n := 48) le_rfl
  have rounds := rounds_vars filled h (n := 64) le_rfl
  refine ⟨_, _, by rw [blockRun, slice]; rfl, filled.length, ?_⟩
  rw [compress, ← rounds]
  simp only [ShaState.vars, UInt32.toBitVec_add]
  apply Vars.ext <;> exact BitVec.add_comm _ _

/-- The block loop computes the hash value, by induction on the blocks it has done. -/
theorem blocks_hashed {padded : List UInt8} {N : Nat} (within : 64 * N ≤ padded.length)
    : ∃ h w,
      (List.range' 0 N 64).foldlM (blockRun padded) (shaInit, List.replicate 64 0) = some (h, w)
      ∧ w.length = 64 ∧ h.vars = hashed (bitsOf padded) N := by
  induction N with
  | zero => exact ⟨shaInit, List.replicate 64 0, rfl, List.length_replicate, shaInit_vars⟩
  | succ N ih =>
      obtain ⟨h, w, ran, length, vars⟩ := ih (by omega)
      obtain ⟨h', w', block, length', vars'⟩ := blockRun_compresses (i := N) (by omega) h length
      refine ⟨h', w', ?_, length', ?_⟩
      · have last : [64 * N].foldlM (blockRun padded) (h, w) = some (h', w') := by
          rw [List.foldlM_cons, block]
          rfl
        rw [List.range'_concat, List.foldlM_append, ran, Nat.zero_add]
        exact (Option.bind_some _ _).trans last
      · rw [vars', vars, hashed, hashed, List.range_succ, List.foldl_append]
        rfl

/-- The loops of the source run on every message, and leave the hash value of its padding. -/
theorem sha256Run_hashed (msg : List UInt8)
    : ∃ h : ShaState,
      sha256Run msg = some ([h.a, h.b, h.c, h.d, h.e, h.f, h.g, h.h].flatMap bytesOfWord)
      ∧ h.vars = hashed (bitsOf (paddedRun msg)) ((paddedRun msg).length / 64) := by
  obtain ⟨N, blocks⟩ := paddedRun_blocks msg
  obtain ⟨h, w, ran, -, vars⟩ := blocks_hashed (N := N) blocks.ge
  have rounded : ((paddedRun msg).length + 63) / 64 = N := by omega
  have exactly : (paddedRun msg).length / 64 = N := by omega
  refine ⟨h, ?_, by rw [vars, exactly]⟩
  simp only [sha256Run, rounded, ran]
  rfl

/-- The bytes of a word have its bits. -/
theorem bytesOfWord_bits (v : UInt32) : bitsOf (bytesOfWord v) = bitsOfNat 32 v.toNat := by
  have bytes : bytesOfWord v = octets 4 v.toNat := by
    have byte (k : UInt32) {i : Nat} (amount : k.toNat = 8 * i) (small : k.toNat < 32)
        : (v >>> k).toUInt8 = .ofNat (v.toNat / 256 ^ i) := by
      refine UInt8.toNat_inj.mp ?_
      rw [UInt32.toNat_toUInt8, UInt32.toNat_shiftRight, Nat.mod_eq_of_lt small, amount,
        Nat.shiftRight_eq_div_pow, pow_mul]
      exact UInt8.toNat_ofNat'.symm
    have last : v.toUInt8 = .ofNat (v.toNat / 256 ^ 0) := by
      rw [pow_zero, Nat.div_one]
      exact UInt8.toNat_inj.mp ((UInt32.toNat_toUInt8 v).trans UInt8.toNat_ofNat'.symm)
    rw [bytesOfWord, byte 24 (i := 3) rfl (by decide), byte 16 (i := 2) rfl (by decide),
      byte 8 (i := 1) rfl (by decide), last]
    rfl
  rw [bytes, bitsOf_octets]

/-- The bytes of a digest have the bits of its hash value. -/
theorem digest_bits (h : ShaState)
    : bitsOf ([h.a, h.b, h.c, h.d, h.e, h.f, h.g, h.h].flatMap bytesOfWord) = h.vars.bits := by
  simp only [List.flatMap_cons, List.flatMap_nil, bitsOf_append, bitsOf_nil, bytesOfWord_bits]
  rfl

/-- `Sha256` returns the digest of the standard on every message whose bits sixty-four bits count,
on every residue of its length.
-/
theorem sha256_fips {msg : List UInt8} (short : msg.length < 2 ^ 61)
    : ∃ out, sha256Run msg = some out ∧ out.length = 32 ∧ bitsOf out = digest (bitsOf msg) := by
  obtain ⟨h, ran, vars⟩ := sha256Run_hashed msg
  have blocks : (bitsOf (paddedRun msg)).length / 512 = (paddedRun msg).length / 64 := by
    rw [bitsOf_length]
    omega
  refine ⟨_, ran, rfl, ?_⟩
  rw [digest_bits, vars, digest, ← paddedRun_bits short, blocks]

/-- A message of fifty-five bytes is padded within its block, one of fifty-six into another. -/
theorem sha256_fips_spill
    : ∃ inner outer, sha256Run (List.replicate 55 0x61) = some inner
      ∧ bitsOf inner = digest (bitsOf (List.replicate 55 0x61))
      ∧ sha256Run (List.replicate 56 0x61) = some outer
      ∧ bitsOf outer = digest (bitsOf (List.replicate 56 0x61)) := by
  obtain ⟨inner, ran, -, fips⟩ := sha256_fips
    (show (List.replicate 55 (0x61 : UInt8)).length < 2 ^ 61 by decide)
  obtain ⟨outer, ran', -, fips'⟩ := sha256_fips
    (show (List.replicate 56 (0x61 : UInt8)).length < 2 ^ 61 by decide)
  exact ⟨inner, outer, ran, fips, ran', fips'⟩

-----------------------------------------------------------------------------------------
-- The recursive definition
-----------------------------------------------------------------------------------------

/-- Folding bytes into a word keeps the low bits of their number, by induction on the bytes. -/
theorem wordOf_toNat (bytes : List UInt8)
    : (wordOf bytes).toNat = BigEndian.value bytes % 2 ^ 32 := by
  have folded (w : UInt32) (n : Nat) (agree : w.toNat = n % 2 ^ 32)
      : UInt32.toNat (bytes.foldl (fun w x => w <<< 8 ||| x.toUInt32) w)
        = BigEndian.extend n bytes % 2 ^ 32 := by
    induction bytes generalizing w n with
    | nil => exact agree
    | cons b rest ih =>
        rw [List.foldl_cons, BigEndian.extend_cons]
        refine ih _ _ ?_
        have eight : (8 : UInt32).toNat % 32 = 8 := rfl
        have multiple : w.toNat * 2 ^ 8 % 2 ^ 32 = (w.toNat % 2 ^ 24) <<< 8 := by
          rw [Nat.shiftLeft_eq]
          omega
        rw [UInt32.toNat_or, UInt32.toNat_shiftLeft, eight, Nat.shiftLeft_eq, multiple,
          UInt8.toNat_toUInt32, ← Nat.shiftLeft_add_eq_or_of_lt b.toNat_lt, Nat.shiftLeft_eq, agree]
        have byte : b.toNat < 256 := b.toNat_lt
        omega
  exact folded 0 0 rfl

/-- The schedule kept latest first is the standard's, by induction on the words. -/
theorem messageSchedule_eq {blk : List UInt8} {M : Nat → Word} (holds : Holds blk M)
    : messageSchedule blk = (List.range 64).map fun t => UInt32.ofBitVec (schedule M t) := by
  have extended (n : Nat) : Nat.repeat extendSchedule n (blockWords blk)
      = ((List.range (16 + n)).map fun t => UInt32.ofBitVec (schedule M t)).reverse := by
    induction n with
    | zero =>
        refine congrArg List.reverse (List.map_congr_left fun t first => ?_)
        have small : t < 16 := List.mem_range.mp first
        rw [schedule_of_lt small, ← holds.2 t small, wordAt_bitsOf]
        refine UInt32.toNat_inj.mp ?_
        rw [wordOf_toNat]
        rfl
    | succ n ih =>
        have word {k : Nat} (within : k < 16 + n)
            : ((List.range (16 + n)).map fun t => UInt32.ofBitVec (schedule M t)).reverse.getD k 0
              = UInt32.ofBitVec (schedule M (16 + n - 1 - k)) := by
          rw [List.getD_eq_getElem _ _ (by simpa using within), List.getElem_reverse]
          simp
        have next : 16 + (n + 1) = 16 + n + 1 := rfl
        rw [Nat.repeat, ih, extendSchedule, word (by omega), word (by omega), word (by omega),
          word (by omega), next, List.range_succ, List.map_append, List.reverse_append]
        refine congrArg (· :: _) ?_
        refine UInt32.toBitVec_inj.mp ?_
        rw [Nat.add_comm 16 n, UInt32.toBitVec_add, UInt32.toBitVec_add, UInt32.toBitVec_add,
          (smallSigmas _).1, (smallSigmas _).2]
        change _ = schedule M (n + 16)
        rw [schedule_add]
        simp only [show n + 16 - 1 - 15 = n by omega, show n + 16 - 1 - 14 = n + 1 by omega,
          show n + 16 - 1 - 6 = n + 9 by omega, show n + 16 - 1 - 1 = n + 14 by omega]
        ac_rfl
  rw [messageSchedule, extended, List.reverse_reverse]

/-- A block compressed on its words in a list. -/
theorem shaBlock_vars {blk : List UInt8} {M : Nat → Word} (holds : Holds blk M) (v : ShaState)
    : (shaBlock v blk).vars = compress v.vars M := by
  have constants : sha256K = (List.range 64).map fun t => UInt32.ofBitVec (K t) := by
    refine List.ext_getElem (by rw [List.length_map, List.length_range]; rfl) fun t within _ => ?_
    refine UInt32.toBitVec_inj.mp ?_
    rw [List.getElem_map, List.getElem_range, ← sha256K_eq within, List.getD_eq_getElem _ _ within]
  have rounds : (((sha256K.zip (messageSchedule blk)).foldl shaRound v)).vars
      = (List.range 64).foldl (fun v t => SecureHash.round v (K t) (schedule M t)) v.vars := by
    rw [constants, messageSchedule_eq holds, List.zip_map', List.foldl_map]
    exact (List.foldl_hom ShaState.vars fun v t => (shaRound_vars v _ _).symm).symm
  rw [compress, ← rounds]
  simp only [shaBlock, ShaState.vars, UInt32.toBitVec_add]
  apply Vars.ext <;> exact BitVec.add_comm _ _

theorem shaBlocks_succ (N : Nat) (bytes : List UInt8) (v : ShaState)
    : shaBlocks (N + 1) bytes v = shaBlocks N (bytes.drop 64) (shaBlock v (bytes.take 64)) := by
  rw [shaBlocks.eq_def]

/-- The recursion over the blocks, by induction on how many are left. -/
theorem shaBlocks_vars {N : Nat} {bytes : List UInt8} (within : 64 * N ≤ bytes.length)
    (v : ShaState)
    : (shaBlocks N bytes v).vars
      = (List.range N).foldl (fun H i => compress H fun j => wordAt (bitsOf bytes) (16 * i + j))
        v.vars := by
  induction N generalizing bytes v with
  | zero => rfl
  | succ N ih =>
      have later (i j : Nat)
          : wordAt (bitsOf (bytes.drop 64)) (16 * i + j)
            = wordAt (bitsOf bytes) (16 * (i + 1) + j) := by
        rw [wordAt_bitsOf, wordAt_bitsOf, List.drop_drop,
          show 64 + 4 * (16 * i + j) = 4 * (16 * (i + 1) + j) by ring]
      have first : (shaBlock v (bytes.take 64)).vars
          = compress v.vars fun j => wordAt (bitsOf bytes) (16 * 0 + j) := by
        have block := shaBlock_vars (holds_block bytes (i := 0) (by omega)) v
        rwa [Nat.mul_zero, List.drop_zero] at block
      rw [shaBlocks_succ, ih (by rw [List.length_drop]; omega), List.range_succ_eq_map, List.foldl_cons,
        List.foldl_map, first]
      simp only [later]

theorem ShaState.vars_injective {v v' : ShaState} (same : v.vars = v'.vars) : v = v' := by
  cases v
  cases v'
  simp only [ShaState.vars, Vars.mk.injEq, UInt32.toBitVec_inj] at same
  simp only [ShaState.mk.injEq]
  exact same

theorem padMessage_eq (msg : List UInt8) : padMessage msg = paddedRun msg := by
  rw [paddedRun_eq, Nat.mul_comm 8]
  rfl

/-- The loops of the source compute the recursive definition, on every message. -/
theorem sha256Run_eq (msg : List UInt8) : sha256Run msg = some (sha256 msg) := by
  obtain ⟨h, ran, vars⟩ := sha256Run_hashed msg
  have whole : 64 * ((paddedRun msg).length / 64) ≤ (paddedRun msg).length := by omega
  have blocks := shaBlocks_vars whole shaInit
  rw [shaInit_vars] at blocks
  have same := ShaState.vars_injective (vars.trans blocks.symm)
  rw [ran, same, sha256, padMessage_eq]

end LasseCash.Engine
