import BtcPool.Foundations.Rows
import BtcPool.Foundations.Sqlite
import BtcPool.Mining.Identity
import Mathlib.Algebra.Order.Ring.Unbundled.Rat

/-!
# The statistics database

The tables of the stats file, the writes the pool hands to the writer thread (`StoreWrite`) and what
the writer does with each (`applyWrite`), statement by statement. Columns nothing reads back into
the pool's decisions are left out: the caches behind the short charts and the checkpoints of the
live meters, of whose statements only their failing is kept (`Sql.touch`).

A found block carries its resolution with the time of it or neither, so the check that ties the two
columns together is a matter of types; so is the grid of the ledger, which the writer's check
repeats.
-/

namespace BtcPool.Stats

open Rows Sqlite

/-- The rows the table of best shares is cut to. -/
def maxWorkerBestShares : ℕ := 512

/-- The seconds of an interval of the ledger. -/
def ledgerIntervalSecs : ℕ := 60

/-- How long the ledger keeps its minutes. -/
def ledgerFineRetentionSecs : ℕ := 8 * 86400

/-- The workers the ledger takes on. -/
def maxLedgerWorkers : ℕ := 10000

/-- The writes that can be parked. -/
def maxWriteBacklog : ℕ := 10000

/-! ## Rows -/

/-- A block that awaits its confirmation. -/
structure PendingBlock where
  hash : Str
  height : ℕ
  worker : Str
  payout : Str
  foundTs : ℕ
  wonAtSubmit : Bool
deriving DecidableEq

/-- How a block was decided. -/
inductive BlockResolution
  | confirmed
  | orphaned
  | abandoned
  deriving DecidableEq

/-- The name a resolution is stored under. -/
def BlockResolution.label : BlockResolution → String
  | confirmed => "confirmed"
  | orphaned => "orphaned"
  | abandoned => "abandoned"

/-- A row of `found_blocks`; a block with no resolution is pending. -/
structure FoundBlock extends PendingBlock where
  resolved : Option (BlockResolution × ℕ)
deriving DecidableEq

/-- The row of the round. -/
structure RoundStats where
  sharesAccepted : ℕ
  sharesRejected : ℕ
  work : ℕ
  sinceTs : ℕ
  bestShareDifficulty : ℕ
  bestHashrateHps : ℚ
deriving DecidableEq

/-- A row of the table of best shares. -/
structure WorkerBestShare where
  worker : Str
  bestShareDifficulty : ℕ
deriving DecidableEq

/-- A row of the table of payout addresses. -/
structure UserRow where
  id : ℕ
  payoutAddress : Str
  firstSeenTs : ℕ
deriving DecidableEq

/-- A row of the table of workers, each of an address. -/
structure WorkerRow where
  id : ℕ
  userId : ℕ
  label : Str
  firstSeenTs : ℕ
deriving DecidableEq

/-- The amounts the share ledger keeps. -/
structure LedgerPending where
  work : ℕ
  accepted : ℕ
  rejected : ℕ
deriving DecidableEq

/-- A row of `share_intervals` or `share_intervals_hourly`. -/
structure ShareInterval extends LedgerPending where
  workerId : ℕ
  ts : ℕ
deriving DecidableEq

/-- The state of the current round, cleared by every found block. -/
structure RoundTables where
  stats : RoundStats
  rejectReasons : RejectReason → ℕ
  workerBestShares : List WorkerBestShare

/-- The share ledger. -/
structure ShareLedger where
  users : List UserRow
  workers : List WorkerRow
  shareIntervals : List ShareInterval
  shareIntervalsHourly : List ShareInterval

/-- The tables of the file. -/
structure Database where
  round : RoundTables
  foundBlocks : List FoundBlock
  ledger : ShareLedger

/-- The round's tables as a round that began at a time leaves them. -/
def RoundTables.begun (sinceTs : ℕ) : RoundTables where
  stats := {
    sharesAccepted := 0
    sharesRejected := 0
    work := 0
    sinceTs
    bestShareDifficulty := 0
    bestHashrateHps := 0 }
  rejectReasons := fun _ => 0
  workerBestShares := []

/-- A ledger without rows. -/
def ShareLedger.empty : ShareLedger where
  users := []
  workers := []
  shareIntervals := []
  shareIntervalsHourly := []

/-- A file just created. -/
def Database.create (now : ℕ) : Database where
  round := .begun now
  foundBlocks := []
  ledger := .empty

/-! ## Writes -/

/-- The shares of a round, in a snapshot. -/
structure ShareTotals where
  accepted : ℕ
  rejected : ℕ
deriving DecidableEq

/-- The payout address and the label of a worker name. -/
def splitWorker (name : Str) : Str × Str := (splitOnce '.' name).getD (name, [])

/-- What a worker did in an interval. -/
structure LedgerEntry extends LedgerPending where
  worker : Str

/-- The row of an entry. -/
def LedgerEntry.row (entry : LedgerEntry) (workerId ts : ℕ) : ShareInterval :=
  { entry.toLedgerPending with workerId, ts }

/-- A closed minute of the share ledger. Its stamp is on the grid, and its workers are named by the
canonical names of miners, which start with an address. -/
structure LedgerMinute where
  minuteTs : ℕ
  entries : List LedgerEntry
  aligned : minuteTs % ledgerIntervalSecs = 0
  named : ∀ e ∈ entries, (splitWorker e.worker).1 ≠ []

/-- What a snapshot writes about the round. -/
structure SnapshotWrite where
  shareTotals : ShareTotals
  roundRejectReasons : RejectReason → ℕ
  roundWork : ℕ
  roundEpoch : ℕ

/-- A write for the writer. -/
inductive StoreWrite
  | bestShare (difficulty : ℕ)
  | bestHashrate (hps : ℚ)
  | workerBestShare (worker : Str) (difficulty : ℕ)
  | snapshot (snapshot : SnapshotWrite)
  | ledger (minute : LedgerMinute)
  | roundReset (epoch sinceTs : ℕ)
  | pruneWorkerBestShares (keep : ℕ)
  | blockFound (block : PendingBlock)
  | blockResolved (hash : Str) (resolution : BlockResolution) (resolvedTs : ℕ)
  | flush

/-- What the writer thread keeps between writes: the epoch of the last reset it applied, and the row
ids of the workers it has seen. -/
structure WriterState where
  roundEpoch : ℕ
  workerIds : List (Str × ℕ)

/-- The writer's memory when it starts. -/
def WriterState.default : WriterState where
  roundEpoch := 0
  workerIds := []

/-! ## Statements on the round's tables -/

namespace RoundTables

variable (round : RoundTables)

/-- The best share of the round is raised. -/
def raiseBestShare (difficulty : ℕ) : RoundTables :=
  if round.stats.bestShareDifficulty < difficulty then
    { round with stats.bestShareDifficulty := difficulty }
  else round

/-- The best hashrate of the round is raised. -/
def raiseBestHashrate (hps : ℚ) : RoundTables :=
  if round.stats.bestHashrateHps < hps then { round with stats.bestHashrateHps := hps } else round

/-- The best share of a worker is raised. -/
def raiseWorkerBestShare (worker : Str) (difficulty : ℕ) : RoundTables :=
  { round with
    workerBestShares := upsert WorkerBestShare.worker
      (fun old new => if old.bestShareDifficulty < new.bestShareDifficulty then new else old)
      { worker, bestShareDifficulty := difficulty } round.workerBestShares }

/-- Keep the rows of the highest difficulties. -/
def pruneWorkerBestShares (keep : ℕ) : RoundTables :=
  let ordered := round.workerBestShares.mergeSort fun a b =>
    decide (b.bestShareDifficulty ≤ a.bestShareDifficulty)
  let kept := (ordered.take keep).map WorkerBestShare.worker
  { round with workerBestShares := round.workerBestShares.filter fun r => r.worker ∈ kept }

/-- The row of the round begins anew. -/
def clearStats (sinceTs : ℕ) : RoundTables := { round with stats := (begun sinceTs).stats }

/-- The table of rejects begins anew. -/
def clearRejectReasons : RoundTables := { round with rejectReasons := fun _ => 0 }

/-- The table of best shares begins anew. -/
def clearWorkerBestShares : RoundTables := { round with workerBestShares := [] }

/-- The totals are raised to those of a snapshot. -/
def mergeTotals (snapshot : SnapshotWrite) : RoundTables :=
  { round with
    stats := { round.stats with
      sharesAccepted := max round.stats.sharesAccepted snapshot.shareTotals.accepted
      sharesRejected := max round.stats.sharesRejected snapshot.shareTotals.rejected
      work := max round.stats.work snapshot.roundWork } }

/-- The rejects are raised to those of a snapshot. -/
def mergeRejectReasons (snapshot : SnapshotWrite) : RoundTables :=
  { round with
    rejectReasons := fun reason =>
      max (round.rejectReasons reason) (snapshot.roundRejectReasons reason) }

/-- The round's tables with a snapshot merged in. -/
def merge (snapshot : SnapshotWrite) : RoundTables :=
  (round.mergeTotals snapshot).mergeRejectReasons snapshot

end RoundTables

/-! ## Statements on the found blocks -/

/-- A block gets a row, unless it has one. -/
def insertFoundBlock (block : PendingBlock) (rows : List FoundBlock) : List FoundBlock :=
  insertOrIgnore (fun r : FoundBlock => r.hash) { block with resolved := none } rows

/-- The pending row of a hash with its resolution. -/
def FoundBlock.resolve (hash : Str) (resolution : BlockResolution) (resolvedTs : ℕ)
    (r : FoundBlock) : FoundBlock :=
  if r.hash = hash ∧ r.resolved = none then { r with resolved := some (resolution, resolvedTs) }
  else r

/-- The row of a hash. -/
def findBlock (hash : Str) (rows : List FoundBlock) : Option FoundBlock :=
  rows.find? fun r => r.hash = hash

/-! ## Statements on the share ledger -/

namespace ShareLedger

variable (ledger : ShareLedger)

/-- The row of a worker, if it has one. -/
def selectWorkerId (address label : Str) : Option ℕ :=
  (ledger.workers.find? fun w =>
    w.label = label ∧ ∃ u ∈ ledger.users, u.id = w.userId ∧ u.payoutAddress = address).map
    WorkerRow.id

/-- The id SQLite gives to a new row. -/
def nextId (ids : List ℕ) : ℕ := ids.foldr max 0 + 1

/-- A user row for the address, unless there is one; an empty address breaks the table's check. -/
def insertUser (address : Str) (now : ℕ) : ShareLedger :=
  if address = [] then ledger
  else
    { ledger with
      users := insertOrIgnore UserRow.payoutAddress
        { id := nextId (ledger.users.map UserRow.id), payoutAddress := address, firstSeenTs := now }
        ledger.users }

/-- A worker row under the address, unless there is one; without a user row it breaks the table's
check. -/
def insertWorker (address label : Str) (now : ℕ) : ShareLedger :=
  match ledger.users.find? fun u => u.payoutAddress = address with
  | none => ledger
  | some user =>
    { ledger with
      workers := insertOrIgnore (fun w : WorkerRow => (w.userId, w.label))
        { id := nextId (ledger.workers.map WorkerRow.id)
          userId := user.id
          label
          firstSeenTs := now }
        ledger.workers }

/-- Add amounts to a worker's row of a time. -/
def addAmounts (old new : ShareInterval) : ShareInterval :=
  { old with
    work := old.work + new.work
    accepted := old.accepted + new.accepted
    rejected := old.rejected + new.rejected }

/-- What makes two intervals the same row. -/
def intervalKey (r : ShareInterval) : ℕ × ℕ := (r.workerId, r.ts)

/-- The amounts of an interval are added to its row. -/
def insertInterval (row : ShareInterval) : ShareLedger :=
  { ledger with shareIntervals := upsert intervalKey addAmounts row ledger.shareIntervals }

/-- The grid of the minute table and the reference to the worker's row. -/
def intervalAllowed (row : ShareInterval) : Bool :=
  row.ts % ledgerIntervalSecs = 0 && ledger.workers.any fun w => w.id = row.workerId

/-- The hour an interval lies in. -/
def toHour (r : ShareInterval) : ShareInterval := { r with ts := r.ts / 3600 * 3600 }

/-- The rows older than the cutoff, summed by worker and hour and added to the hourly table. -/
def addHourly (cutoff : ℕ) : ShareLedger :=
  let due := ledger.shareIntervals.filter fun r => r.ts < cutoff
  let hours := upsertAll intervalKey addAmounts (due.map toHour) []
  { ledger with
    shareIntervalsHourly := upsertAll intervalKey addAmounts hours ledger.shareIntervalsHourly }

/-- The minutes before a time are dropped. -/
def deleteMinutes (cutoff : ℕ) : ShareLedger :=
  { ledger with shareIntervals := ledger.shareIntervals.filter fun r => cutoff ≤ r.ts }

end ShareLedger

/-! ## What the writer does with a write -/

/-- A statement on the round's tables. -/
def onRound (f : RoundTables → RoundTables) : Sql Database WriterState Unit :=
  Sql.execute fun db => { db with round := f db.round }

/-- A statement on the share ledger. -/
def onLedger (f : ShareLedger → ShareLedger) : Sql Database WriterState Unit :=
  Sql.execute fun db => { db with ledger := f db.ledger }

/-- A reset of the round in the file. -/
def applyRoundReset (sinceTs : ℕ) : Sql Database WriterState Unit := Sql.transaction do
  onRound (·.clearStats sinceTs)
  onRound (·.clearRejectReasons)
  onRound (·.clearWorkerBestShares)

/-- The table of best shares is cut, if it can be. -/
def pruneWorkerBestShares (keep : ℕ) : Sql Database WriterState Unit :=
  (onRound (·.pruneWorkerBestShares keep)).ignore

/-- The round's part of a snapshot. -/
def mergeSnapshot (snapshot : SnapshotWrite) (staleRound : Bool) : Sql Database WriterState Unit :=
  if staleRound then pure ()
  else do
    onRound (·.mergeTotals snapshot)
    onRound (·.mergeRejectReasons snapshot)

/-- The transaction of a snapshot. -/
def commitSnapshot (snapshot : SnapshotWrite) (staleRound : Bool) :
    Sql Database WriterState Unit := Sql.transaction do
  -- hashrate_history, then worker_hashrate_state emptied and refilled
  Sql.touch
  Sql.touch
  Sql.touch
  mergeSnapshot snapshot staleRound
  -- share_rate_history and share_rate_state
  Sql.touch
  Sql.touch

/-- A snapshot is written; the round is left alone if it is a stale one. -/
def writeSnapshot (snapshot : SnapshotWrite) (staleRound : Bool) :
    Sql Database WriterState Unit := do
  commitSnapshot snapshot staleRound
  -- the two histories are pruned outside of the transaction
  Sql.touch
  Sql.touch

/-- The row of a worker, made if there is room for it. -/
def resolveWorkerId (name : Str) (now : ℕ) : Sql Database WriterState (Option ℕ) := do
  let (address, label) := splitWorker name
  let existing ← (Sql.queryRow fun db : Database =>
    db.ledger.selectWorkerId address label).optional
  match existing with
  | some id => return some id
  | none =>
    let workers ← Sql.query fun db : Database => db.ledger.workers.length
    if maxLedgerWorkers ≤ workers then return none
    else
      onLedger (·.insertUser address now)
      onLedger (·.insertWorker address label now)
      let id ← Sql.queryRow fun db : Database => db.ledger.selectWorkerId address label
      return some id

/-- The statement that adds to an interval. -/
def insertInterval (row : ShareInterval) : Sql Database WriterState Unit :=
  Sql.executeChecked (fun db => db.ledger.intervalAllowed row)
    fun db => { db with ledger := db.ledger.insertInterval row }

/-- The id of a worker, from the cache or the tables. -/
def cachedWorkerId (name : Str) (now : ℕ) : Sql Database WriterState (Option ℕ) := do
  let cached ← Sql.readMemory fun state : WriterState => state.workerIds.lookup name
  match cached with
  | some id => return some id
  | none =>
    let resolved ← resolveWorkerId name now
    match resolved with
    | none => return none
    | some id =>
      Sql.modifyMemory fun state => { state with workerIds := (name, id) :: state.workerIds }
      return some id

/-- The entries of a minute are written one after the other. -/
def writeEntries (minuteTs : ℕ) : List LedgerEntry → Sql Database WriterState Unit
  | [] => pure ()
  | entry :: entries => do
    let id ← cachedWorkerId entry.worker minuteTs
    match id with
    | none => writeEntries minuteTs entries
    | some workerId =>
      insertInterval (entry.row workerId minuteTs)
      writeEntries minuteTs entries

/-- A minute is written as a whole or not at all. -/
def writeLedgerMinute (minute : LedgerMinute) : Sql Database WriterState Unit :=
  if minute.entries.isEmpty then pure ()
  else Sql.transaction do
    -- the statement is prepared once
    Sql.touch
    writeEntries minute.minuteTs minute.entries

/-- The start of the first hour a rollup leaves alone. -/
def rollUpCutoff (now : ℕ) : ℕ := (now - ledgerFineRetentionSecs) / 3600 * 3600

/-- Fold the minutes of whole hours past the retention into the hourly table. -/
def rollUpLedger (now : ℕ) : Sql Database WriterState Unit := do
  let cutoff := rollUpCutoff now
  let due ← Sql.query fun db : Database =>
    db.ledger.shareIntervals.countP fun r => r.ts < cutoff
  if due = 0 then pure ()
  else Sql.transaction do
    onLedger (·.addHourly cutoff)
    onLedger (·.deleteMinutes cutoff)

/-- Resolve the row of a hash; a resolution that outran its block is an error. -/
def resolveFoundBlock (hash : Str) (resolution : BlockResolution) (resolvedTs : ℕ) :
    Sql Database WriterState Unit := do
  let updated ← Sql.update fun db : Database =>
    (db.foundBlocks.countP fun r => r.hash = hash ∧ r.resolved = none,
      { db with foundBlocks := db.foundBlocks.map (.resolve hash resolution resolvedTs) })
  if updated = 0 then
    let exist ← (Sql.queryRow fun db : Database => findBlock hash db.foundBlocks).optional
    if exist.isNone then Sql.throw .queryReturnedNoRows (by decide) else pure ()
  else pure ()

/-- What a write does to the file. -/
def applyWrite : StoreWrite → Sql Database WriterState Unit
  | .bestShare difficulty => onRound (·.raiseBestShare difficulty)
  | .bestHashrate hps => onRound (·.raiseBestHashrate hps)
  | .workerBestShare worker difficulty => onRound (·.raiseWorkerBestShare worker difficulty)
  | .pruneWorkerBestShares keep => pruneWorkerBestShares keep
  | .blockFound block =>
    Sql.execute fun db => { db with foundBlocks := insertFoundBlock block db.foundBlocks }
  | .blockResolved hash resolution resolvedTs => resolveFoundBlock hash resolution resolvedTs
  | .snapshot snapshot => do
    let roundEpoch ← Sql.readMemory fun state : WriterState => state.roundEpoch
    writeSnapshot snapshot (snapshot.roundEpoch ≠ roundEpoch)
  | .ledger minute => do
    -- a rollback may have taken rows whose ids were just cached
    (writeLedgerMinute minute).onError fun state => { state with workerIds := [] }
    (rollUpLedger minute.minuteTs).ignore
  | .roundReset epoch sinceTs => do
    applyRoundReset sinceTs
    Sql.modifyMemory fun state => { state with roundEpoch := max state.roundEpoch epoch }
  | .flush => pure ()

/-- Whether a failed write is retried: the records nothing can reconstruct. -/
def isDurable : StoreWrite → Bool
  | .ledger _ | .blockFound _ | .blockResolved .. | .roundReset .. => true
  | _ => false

end BtcPool.Stats
