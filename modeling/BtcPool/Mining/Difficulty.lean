import BtcPool.Bitcoin.Template
import Mathlib.Data.Rat.Floor

/-!
# The difficulty of a session

`Vardiff` decides which difficulty a miner is asked for, `ShareCredit` what an accepted share is
worth. Both compute with floating point in the source; here they compute exactly. The decaying
averages of `Vardiff` are not modelled: the estimate of the miner's rate, in difficulty per second,
is an input of `checkRetarget`, one for the fast and one for the slow window.
-/

namespace BtcPool

open Bitcoin

/-- A reading of the monotonic clock, in nanoseconds. -/
abbrev Instant := ℕ

/-- A number of seconds in nanoseconds. -/
def secs (n : ℕ) : ℕ := n * 10 ^ 9

/-! ## Conversions -/

/-- The nearest number of 64 bits, halves rounded away from zero. -/
def roundU64 (x : ℚ) : UInt64 := UInt64.ofNat (min (x + 1 / 2).floor.toNat (2 ^ 64 - 1))

/-- A number brought between two bounds. -/
def clampRat (x low high : ℚ) : ℚ := if x < low then low else if high < x then high else x

/-- A machine word brought between two bounds. -/
def clampU64 (x low high : UInt64) : UInt64 :=
  if x < low then low else if high < x then high else x

/-- The difficulty of the block a template is for, if it is at least one. -/
def networkDifficulty (template : Option JobTemplate) : Option UInt64 :=
  match template with
  | none => none
  | some template =>
    match bitsToDifficulty template.bits with
    | .error _ => none
    | .ok difficulty =>
      if 1 ≤ difficulty then some (UInt64.ofNat (min difficulty.floor.toNat (2 ^ 64 - 1))) else none

/-! ## The assigned difficulty -/

/-- The settings of the retargets. -/
structure VardiffConfig where
  targetShareTimeSecs : UInt64
  retargetIntervalSecs : UInt64
  minDifficulty : UInt64
  maxDifficulty : UInt64
  maxRetargetFactor : ℚ
  deadzoneLow : ℚ
  deadzoneHigh : ℚ
deriving DecidableEq

/-- The difficulty of a session and what its retargets look at. -/
structure Vardiff where
  cfg : VardiffConfig
  current : UInt64
  firstShare : Option Instant
  lastChange : Instant
  sharesSinceChange : ℕ
  retargetShares : UInt64
deriving DecidableEq

namespace Vardiff

/-- A session that has not sent a share yet. -/
def new (cfg : VardiffConfig) (initialDifficulty : UInt64) (now : Instant) : Vardiff where
  cfg := cfg
  current := initialDifficulty
  firstShare := none
  lastChange := now
  sharesSinceChange := 0
  retargetShares :=
    max (roundU64 (cfg.retargetIntervalSecs.toNat / max cfg.targetShareTimeSecs.toNat 1)) 4

/-- Take a miner's hint as the working difficulty, between the floor and the ceiling. -/
def suggest (v : Vardiff) (difficulty : UInt64) (now : Instant) : UInt64 × Vardiff :=
  let clamped := clampU64 difficulty v.cfg.minDifficulty v.cfg.maxDifficulty
  (clamped, { v with current := clamped, lastChange := now, sharesSinceChange := 0 })

/-- A share came in. -/
def recordShare (v : Vardiff) (now : Instant) : Vardiff :=
  { v with
    firstShare := some (v.firstShare.getD now)
    sharesSinceChange := v.sharesSinceChange + 1 }

/-- Start a fresh retarget window without touching the difficulty. -/
def openWindow (v : Vardiff) (now : Instant) : Vardiff :=
  { v with lastChange := now, sharesSinceChange := 0 }

/-- The highest difficulty to ask for. The floor outranks the difficulty of the block. -/
def ceiling (v : Vardiff) (networkDifficulty : Option UInt64) : UInt64 :=
  max (match networkDifficulty with
    | some network => min v.cfg.maxDifficulty network
    | none => v.cfg.maxDifficulty) v.cfg.minDifficulty

/-- The new difficulty, when it should change. The estimated rate is asked for the fast window when
enough shares came since the last change, and for the slow one otherwise. -/
def checkRetarget (v : Vardiff) (now : Instant) (networkDifficulty : Option UInt64)
    (rate : Bool → ℚ) : Option UInt64 × Vardiff :=
  match v.firstShare with
  | none => (none, v)
  | some _ =>
    let sinceChange := now - v.lastChange
    let hitShareTrigger := decide (v.retargetShares.toNat ≤ v.sharesSinceChange)
    if ¬ hitShareTrigger ∧ sinceChange < secs v.cfg.retargetIntervalSecs.toNat then (none, v)
    else
      let optimal := rate hitShareTrigger * v.cfg.targetShareTimeSecs.toNat
      let ratio := optimal / v.current.toNat
      if v.cfg.deadzoneLow < ratio ∧ ratio < v.cfg.deadzoneHigh then (none, v.openWindow now)
      else
        let current : ℚ := v.current.toNat
        let factor := v.cfg.maxRetargetFactor
        let newDiff := roundU64 (clampRat (clampRat optimal (current / factor) (current * factor))
          v.cfg.minDifficulty.toNat (v.ceiling networkDifficulty).toNat)
        -- the first share after a change resets the clock instead of easing the target
        if newDiff < v.current ∧ v.sharesSinceChange ≤ 1 then (none, { v with lastChange := now })
        else if newDiff = v.current then (none, v.openWindow now)
        else (some newDiff, { v with current := newDiff }.openWindow now)

end Vardiff

/-! ## The credit of a share -/

/-- Whether a session is credited at the difficulty it was assigned, and the evidence on it. -/
structure ShareCredit where
  floor : UInt64
  assigned : UInt64
  assignedAt : Instant
  belowAssigned : ℕ
  redeeming : ℕ
  honorsAssigned : Bool
deriving DecidableEq

namespace ShareCredit

/-- The low shares it takes to judge that the assigned difficulty is not honored. -/
def evidenceShares : ℕ := 3

/-- The good shares in a row that restore the trust. -/
def redeemShares : ℕ := 20

/-- The time after an assignment in which low shares are no evidence. -/
def retargetGrace : ℕ := secs 30

/-- A session that is trusted until there is evidence. -/
def new (floor : UInt64) (now : Instant) : ShareCredit where
  floor := max floor 1
  assigned := 0
  assignedAt := now
  belowAssigned := 0
  redeeming := 0
  honorsAssigned := true

/-- A change of the assigned difficulty opens a grace window. -/
def noteAssigned (c : ShareCredit) (assigned : UInt64) (now : Instant) : ShareCredit :=
  if assigned ≠ c.assigned then { c with assigned, assignedAt := now, belowAssigned := 0 } else c

/-- The verdict on the session after a share that meets the effective difficulty, or does not. -/
def judge (c : ShareCredit) (meetsEffective : Bool) (now : Instant) : ShareCredit :=
  if c.honorsAssigned then
    if ¬ meetsEffective ∧ retargetGrace < now - c.assignedAt then
      let c := { c with belowAssigned := c.belowAssigned + 1 }
      if evidenceShares ≤ c.belowAssigned then { c with honorsAssigned := false, redeeming := 0 }
      else c
    else c
  else if meetsEffective then
    let c := { c with redeeming := c.redeeming + 1 }
    if redeemShares ≤ c.redeeming then
      { c with honorsAssigned := true, belowAssigned := 0, assignedAt := now }
    else c
  else { c with redeeming := 0 }

/-- What an accepted share is worth: the difficulty it had to clear, or the floor while the session
is judged to ignore the difficulty it is told. -/
def credit (c : ShareCredit) (assigned jobDifficulty hashDifficulty : UInt64) (now : Instant) :
    UInt64 × ShareCredit :=
  let c := c.noteAssigned assigned now
  let effective := max (min c.assigned jobDifficulty) c.floor
  -- a share counts as below from one percent under the effective difficulty on
  let meetsEffective := decide (effective.toNat * 99 ≤ hashDifficulty.toNat * 100)
  let c := c.judge meetsEffective now
  (if c.honorsAssigned then effective else c.floor, c)

end ShareCredit

end BtcPool
