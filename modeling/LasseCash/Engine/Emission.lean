import LasseCash.Engine.Units

/-! The issuance schedule of `engine/emission.go`: eras, the closed-form total and the
block split. Heights are `uint64` of the source, carried as naturals.
-/

namespace LasseCash.Engine

open MachineInt

def heightsPerDay : Nat := 28800

def heightsPerYear : Nat := 10512000

def heightsPerEra : Nat := 31536000

def emissionCap : Int := 20000000 * 100000000

def historicHardCap : Int := 51000000 * 100000000

/-- A geometric issuance curve: era `n` pays a fixed amount for each height. -/
structure EmissionSchedule where
  genesisHeight : Nat
  eraHeights : Nat
  cap : Int
  reduceNum : Int
  reduceDen : Int

/-- Twenty million over halving eras of three years, before its genesis is bound. -/
def defaultSchedule : EmissionSchedule where
  genesisHeight := 0
  eraHeights := heightsPerEra
  cap := emissionCap
  reduceNum := 1
  reduceDen := 2

namespace EmissionSchedule

variable (sc : EmissionSchedule)

def valid : Bool :=
  sc.eraHeights > 0 && sc.cap > 0 && sc.reduceNum > 0 && sc.reduceDen > sc.reduceNum

/-- The reduction loop of `EraBudget`, with `n` rounds to go. -/
def reduceBudget : Nat → Int → Int
  | 0, b => b
  | n + 1, b =>
      if b = 0 then 0
      else
        match mulDiv b sc.reduceNum sc.reduceDen with
        | none => 0
        | some b => reduceBudget n b

/-- The issuance budgeted for era `n`; every step truncates. -/
def eraBudget (n : Nat) : Int :=
  match mulDiv sc.cap (i64 (sc.reduceDen - sc.reduceNum)) sc.reduceDen with
  | none => 0
  | some b => sc.reduceBudget n b

/-- The issuance for each height of era `n`; once zero, emission has ended. -/
def rewardPerHeight (n : Nat) : Int :=
  if sc.eraHeights = 0 then 0 else (sc.eraBudget n).tdiv (i64 sc.eraHeights)

/-- The era of a height, for a schedule that has started by then. -/
def eraAt (height : Nat) : Option Nat :=
  if height ≤ sc.genesisHeight ∨ sc.eraHeights = 0 then none
  else some ((height - sc.genesisHeight) / sc.eraHeights)

/-- The full-era loop of `TotalEmittedAt`: `remaining` eras from era `n` on. The flag is
`true` where the source returns from inside the loop.
-/
def fullEras : Nat → Nat → Int → Int × Bool
  | 0, _, total => (total, false)
  | remaining + 1, n, total =>
      let per := sc.rewardPerHeight n
      if per = 0 then (total, true)
      else
        match addAmount total (i64 (per * i64 sc.eraHeights)) with
        | none => (total, true)
        | some sum => fullEras remaining (n + 1) sum

/-- Cumulative issuance from genesis through `height`, inclusive. -/
def totalEmittedAt (height : Nat) : Int :=
  if height ≤ sc.genesisHeight ∨ sc.valid = false then 0
  else
    let elapsed := height - sc.genesisHeight
    let eras := elapsed / sc.eraHeights
    let remainder := elapsed % sc.eraHeights
    match sc.fullEras eras 0 0 with
    | (total, true) => total
    | (total, false) =>
        let per := sc.rewardPerHeight eras
        if per > 0 ∧ remainder > 0 then
          (addAmount total (i64 (per * i64 remainder))).getD total
        else total

/-- The issuance owed for the heights after `fromHeight` up to `toHeight`. -/
def emissionBetween (fromHeight toHeight : Nat) : Int :=
  if toHeight ≤ fromHeight then 0
  else i64 (sc.totalEmittedAt toHeight - sc.totalEmittedAt fromHeight)

end EmissionSchedule

/-- A block reward divided over the three destinations of the protocol. -/
structure Allocation where
  proofOfBrain : Int
  lShare : Int
  liquidity : Int
  deriving DecidableEq

def Allocation.zero : Allocation := ⟨0, 0, 0⟩

/-- L-Share and liquidity take a floored quarter each, Proof-of-Brain the remainder. -/
def split (amount : Int) : Allocation :=
  if amount ≤ 0 then .zero
  else
    match mulDiv amount 25 100, mulDiv amount 25 100 with
    | some lshare, some liq =>
        { proofOfBrain := i64 (i64 (amount - lshare) - liq), lShare := lshare, liquidity := liq }
    | _, _ => .zero

/-- A floored percentage of a non-negative amount is always returned. -/
theorem mulDiv_quarter {amount : Int} (lower : 0 ≤ amount) (upper : amount < 2 ^ 63)
    : mulDiv amount 25 100 = some (amount / 4) := by
  rw [mulDiv_of_fits lower (by decide) (by decide) (by simp only [maxAmount]; omega)]
  congr 1
  omega

/-- The three parts of a non-negative amount. -/
theorem split_of_nonneg {amount : Int} (lower : 0 ≤ amount) (upper : amount < 2 ^ 63)
    : split amount = ⟨amount - amount / 4 - amount / 4, amount / 4, amount / 4⟩ := by
  unfold split
  split
  · have : amount = 0 := by omega
    subst this
    rfl
  · rw [mulDiv_quarter lower upper]
    simp only
    rw [i64_of_nonneg (x := amount - amount / 4) (by omega) (by omega),
      i64_of_nonneg (by omega) (by omega)]

end LasseCash.Engine
