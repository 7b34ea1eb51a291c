import BtcPool.Stats.Writer
import Mathlib.Logic.Function.Basic

/-!
# The statistics in memory

What a running pool counts, and what it queues for the writer (`PoolStats.writes`, everything queued
since the process started). The round's share totals are kept as a base read from the file, this
process's counters and an offset taken at the last round reset; the round's work is a counter of its
own. Readings of the wall clock are arguments, one for each reading the source makes.

The meters behind the hashrate displays (`Meters`) and the accumulator of the share ledger
(`LedgerStage`) stand on their own; here the minutes the accumulator hands over are arguments.
-/

namespace BtcPool.Stats

open Rows Sqlite

/-- The statistics in memory, as far as the round and the blocks go, and what was queued. -/
structure PoolStats where
  sharesAccepted : ℕ
  sharesRejected : ℕ
  roundAcceptedBase : ℕ
  roundRejectedBase : ℕ
  roundOffsetAccepted : ℕ
  roundOffsetRejected : ℕ
  roundWork : ℕ
  roundEpoch : ℕ
  roundSinceTs : ℕ
  rejectReasons : RejectReason → ℕ
  roundRejectReasonsBase : RejectReason → ℕ
  roundOffsetRejectReasons : RejectReason → ℕ
  blocksFound : ℕ
  blocksInconclusive : ℕ
  blocksOrphaned : ℕ
  bestShareDifficulty : ℕ
  workerBestShares : List WorkerBestShare
  pendingBlocks : List PendingBlock
  writes : List StoreWrite

namespace PoolStats

variable (s : PoolStats)

/-- A write is queued. -/
def enqueue (write : StoreWrite) : PoolStats := { s with writes := s.writes ++ [write] }

/-! ## Shares -/

/-- An accepted share is counted for the pool. -/
def shareAccepted (credit hashDifficulty : ℕ) : PoolStats :=
  let s := { s with sharesAccepted := s.sharesAccepted + 1, roundWork := s.roundWork + credit }
  -- a share that raises the best of the round is persisted
  if s.bestShareDifficulty < hashDifficulty then
    enqueue { s with bestShareDifficulty := hashDifficulty } (.bestShare hashDifficulty)
  else s

/-- An accepted share is counted for its worker. -/
def workerShareAccepted (worker : Str) (difficulty : ℕ) : PoolStats :=
  let best := ((s.workerBestShares.find? fun r => r.worker = worker).map
    WorkerBestShare.bestShareDifficulty).getD 0
  let row : WorkerBestShare := { worker, bestShareDifficulty := max best difficulty }
  let s := { s with
    workerBestShares := upsert WorkerBestShare.worker (fun _ new => new) row s.workerBestShares }
  if best < difficulty then s.enqueue (.workerBestShare worker difficulty) else s

/-- A rejected share is counted. -/
def shareRejected (reason : RejectReason) : PoolStats :=
  { s with
    sharesRejected := s.sharesRejected + 1
    rejectReasons := Function.update s.rejectReasons reason (s.rejectReasons reason + 1) }

/-! ## The round -/

/-- The shares accepted in the round. -/
def roundSharesAccepted : ℕ := s.roundAcceptedBase + s.sharesAccepted - s.roundOffsetAccepted

/-- The shares rejected in the round. -/
def roundSharesRejected : ℕ := s.roundRejectedBase + s.sharesRejected - s.roundOffsetRejected

/-- The rejects of the round by reason; a reason that is absent counts zero. -/
def roundRejectReasons (reason : RejectReason) : ℕ :=
  s.roundRejectReasonsBase reason + s.rejectReasons reason - s.roundOffsetRejectReasons reason

/-- The round begins anew. -/
def roundReset (now : ℕ) : PoolStats :=
  let s := { s with
    roundOffsetAccepted := s.roundAcceptedBase + s.sharesAccepted
    roundOffsetRejected := s.roundRejectedBase + s.sharesRejected
    roundOffsetRejectReasons := fun reason =>
      s.roundRejectReasonsBase reason + s.rejectReasons reason
    roundWork := 0
    bestShareDifficulty := 0
    roundSinceTs := now
    workerBestShares := []
    roundEpoch := s.roundEpoch + 1 }
  s.enqueue (.roundReset s.roundEpoch now)

/-- The totals of the round as a snapshot carries them. -/
def snapshotWrite : SnapshotWrite where
  shareTotals := { accepted := s.roundSharesAccepted, rejected := s.roundSharesRejected }
  roundRejectReasons := s.roundRejectReasons
  roundWork := s.roundWork
  roundEpoch := s.roundEpoch

/-- Queue a minute of the share ledger, if there is one. -/
def persistLedgerMinute (closed : Option LedgerMinute) : PoolStats :=
  match closed with
  | none => s
  | some minute => s.enqueue (.ledger minute)

/-- A snapshot is queued, after the minute that was closed for it. -/
def recordHashrateSnapshot (closed : Option LedgerMinute) : PoolStats :=
  let s := s.persistLedgerMinute closed
  s.enqueue (.snapshot s.snapshotWrite)

/-- The last writes of a process: a snapshot, the minute in progress, and a flush. -/
def shutdownPersist (closed : Option LedgerMinute) (open_ : Option LedgerMinute) : PoolStats :=
  let s := s.recordHashrateSnapshot closed
  let s := s.persistLedgerMinute open_
  s.enqueue .flush

/-! ## Found blocks -/

/-- A block is counted as found, which begins a round. -/
def blockFound (now : ℕ) : PoolStats := roundReset { s with blocksFound := s.blocksFound + 1 } now

/-- A block is counted as inconclusive. -/
def blockInconclusive : PoolStats := { s with blocksInconclusive := s.blocksInconclusive + 1 }

/-- Whether a block with the hash awaits confirmation. -/
def isPending (hash : Str) : Bool := s.pendingBlocks.any fun b => b.hash = hash

/-- Enrol a block, unless one with its hash is awaiting confirmation already. -/
def enrollPendingBlock (block : PendingBlock) : PoolStats :=
  if s.isPending block.hash then s
  else
    enqueue { s with pendingBlocks := s.pendingBlocks ++ [block] } (.blockFound block)

/-- Put right what the verdict at submission got wrong: a win the chain disagrees with, or a block
that lost its height race and was promoted. -/
def correctVerdict (wonAtSubmit : Bool) (resolution : BlockResolution) (now : ℕ) : PoolStats :=
  match wonAtSubmit, resolution with
  | true, .orphaned =>
    { s with blocksOrphaned := s.blocksOrphaned + 1, blocksFound := s.blocksFound - 1 }
  | false, .confirmed => blockFound { s with blocksInconclusive := s.blocksInconclusive - 1 } now
  | _, _ => s

/-- Retire a pending block; false if it was retired before. -/
def resolveBlock (block : PendingBlock) (resolution : BlockResolution) (resetTs resolvedTs : ℕ) :
    Bool × PoolStats :=
  if s.isPending block.hash then
    let s := { s with pendingBlocks := s.pendingBlocks.filter fun b => b.hash ≠ block.hash }
    let s := s.correctVerdict block.wonAtSubmit resolution resetTs
    (true, s.enqueue (.blockResolved block.hash resolution resolvedTs))
  else (false, s)

end PoolStats

/-! ## Boot -/

/-- How a block was resolved; none while it is pending. -/
def FoundBlock.status (r : FoundBlock) : Option BlockResolution := r.resolved.map Prod.fst

/-- The blocks found, orphaned and inconclusive according to the table. -/
def loadBlockCounts (rows : List FoundBlock) : ℕ × ℕ × ℕ :=
  (rows.countP fun r => (r.wonAtSubmit = true ∧ r.status ≠ some .orphaned) ∨
      (r.wonAtSubmit = false ∧ r.status = some .confirmed),
    rows.countP fun r => r.wonAtSubmit = true ∧ r.status = some .orphaned,
    rows.countP fun r => r.wonAtSubmit = false ∧ r.status ≠ some .confirmed)

/-- The blocks of the table that are not resolved. -/
def loadPendingBlocks (rows : List FoundBlock) : List PendingBlock :=
  (rows.filter fun r => r.resolved = none).map FoundBlock.toPendingBlock

/-- The time of the last block that won at submission. -/
def lastWin (rows : List FoundBlock) : Option ℕ :=
  ((rows.filter fun r => r.wonAtSubmit).map fun r => r.foundTs).max?

/-- A round that a win in the table outlived is taken for one whose reset was lost, and is reset. -/
def reconcileRound (lastWin : Option ℕ) (sinceTs : ℕ) : Sql Database WriterState Unit :=
  match lastWin with
  | none => pure ()
  | some winTs => if sinceTs < winTs then applyRoundReset winTs else pure ()

/-- Opening a file that has its tables. -/
def openStore : Sql Database WriterState Unit := do
  let lastWin ← Sql.query fun db : Database => lastWin db.foundBlocks
  let sinceTs ← Sql.query fun db : Database => db.round.stats.sinceTs
  reconcileRound lastWin sinceTs
  pruneWorkerBestShares maxWorkerBestShares

/-- The statistics of a process that starts on a file it has opened. -/
def PoolStats.fromPersisted (db : Database) (wallNow : ℕ) : PoolStats where
  sharesAccepted := 0
  sharesRejected := 0
  roundAcceptedBase := db.round.stats.sharesAccepted
  roundRejectedBase := db.round.stats.sharesRejected
  roundOffsetAccepted := 0
  roundOffsetRejected := 0
  roundWork := db.round.stats.work
  roundEpoch := 0
  roundSinceTs := if db.round.stats.sinceTs = 0 then wallNow else db.round.stats.sinceTs
  rejectReasons := fun _ => 0
  roundRejectReasonsBase := db.round.rejectReasons
  roundOffsetRejectReasons := fun _ => 0
  blocksFound := (loadBlockCounts db.foundBlocks).1
  blocksInconclusive := (loadBlockCounts db.foundBlocks).2.2
  blocksOrphaned := (loadBlockCounts db.foundBlocks).2.1
  bestShareDifficulty := db.round.stats.bestShareDifficulty
  workerBestShares := db.round.workerBestShares
  pendingBlocks := loadPendingBlocks db.foundBlocks
  writes := []

end BtcPool.Stats
