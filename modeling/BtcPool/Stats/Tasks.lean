import BtcPool.Foundations.Tasks
import BtcPool.Stats.Round

/-!
# The statistics under concurrency

Shares are recorded, snapshots taken and rounds reset by tasks that run at the same time, and the
writer thread applies what they queue. Here each of them makes one atomic operation at a time on the
shared statistics: a load, a store or an addition of an atomic counter, a section under a lock, a
send into the queue. A step of `World` is one such operation, of any task, or one event of the
writer thread. What a task has read and not yet used is its own.

A task that runs alone does what its function does (`acceptedTask_alone`, `rejectedTask_alone`,
`resetTask_alone`, `snapshotTask_alone`). Resets run one at a time: a reset does not begin while
another is in progress.
-/

namespace BtcPool.Stats

open RetryQueue Tasks

/-! ## Recording a share -/

/-- How far the booking of a share has come. -/
inductive ShareStage
  | begun
  | counted
  | worked
  | raised

/-- A share that is being recorded. -/
structure ShareTask where
  share : Share
  hashDifficulty : ℕ
  stage : ShareStage

namespace ShareTask

/-- A share that is to be booked. -/
def begin (share : Share) (hashDifficulty : ℕ) : ShareTask where
  share := share
  hashDifficulty := hashDifficulty
  stage := .begun

/-- One access of the booking. -/
def step (s : PoolStats) (t : ShareTask) : PoolStats × Option ShareTask :=
  match t.share, t.stage with
  | .accepted _, .begun =>
    ({ s with sharesAccepted := s.sharesAccepted + 1 }, some { t with stage := .counted })
  | .accepted credit, .counted =>
    ({ s with roundWork := s.roundWork + credit }, some { t with stage := .worked })
  | .accepted _, .worked =>
    -- only the call that raised the best of the round persists it
    if s.bestShareDifficulty < t.hashDifficulty then
      ({ s with bestShareDifficulty := t.hashDifficulty }, some { t with stage := .raised })
    else (s, none)
  | .accepted _, .raised => (s.enqueue (.bestShare t.hashDifficulty), none)
  | .rejected _, .begun =>
    ({ s with sharesRejected := s.sharesRejected + 1 }, some { t with stage := .counted })
  | .rejected reason, .counted =>
    ({ s with
        rejectReasons := Function.update s.rejectReasons reason (s.rejectReasons reason + 1) },
      none)
  | .rejected _, _ => (s, none)

/-- What is still to be added to a quantity for the share. -/
def remaining (q : Quantity) (t : ShareTask) : ℕ :=
  match t.stage, q with
  | .begun, q => t.share.amount q
  | .counted, .work => t.share.amount .work
  | .counted, .reason reason => t.share.amount (.reason reason)
  | _, _ => 0

end ShareTask

theorem acceptedTask_alone (s : PoolStats) (credit hashDifficulty : ℕ) :
    alone ShareTask.step 4 s (.begin (.accepted credit) hashDifficulty) =
      (s.shareAccepted credit hashDifficulty, none) := by
  by_cases h : s.bestShareDifficulty < hashDifficulty
  · simp [alone, ShareTask.step, ShareTask.begin, PoolStats.shareAccepted, h]
  · simp [alone, ShareTask.step, ShareTask.begin, PoolStats.shareAccepted, h]

theorem rejectedTask_alone (s : PoolStats) (reason : RejectReason) (hashDifficulty : ℕ) :
    alone ShareTask.step 2 s (.begin (.rejected reason) hashDifficulty) =
      (s.shareRejected reason, none) := rfl

/-! ## Resetting the round -/

/-- How far a reset has come. -/
inductive ResetStage
  | loadAccepted
  | storeAccepted (offset : ℕ)
  | loadRejected
  | storeRejected (offset : ℕ)
  | reasons
  | work
  | bestShare
  | since
  | workers
  | epoch
  | enqueue (epoch : ℕ)

/-- A reset in progress. -/
structure ResetTask where
  now : ℕ
  stage : ResetStage

namespace ResetTask

/-- A reset that has just begun. -/
def begin (now : ℕ) : ResetTask where
  now := now
  stage := .loadAccepted

/-- One access of a reset. -/
def step (s : PoolStats) (t : ResetTask) : PoolStats × Option ResetTask :=
  match t.stage with
  | .loadAccepted =>
    (s, some { t with stage := .storeAccepted (s.roundAcceptedBase + s.sharesAccepted) })
  | .storeAccepted offset =>
    ({ s with roundOffsetAccepted := offset }, some { t with stage := .loadRejected })
  | .loadRejected =>
    (s, some { t with stage := .storeRejected (s.roundRejectedBase + s.sharesRejected) })
  | .storeRejected offset =>
    ({ s with roundOffsetRejected := offset }, some { t with stage := .reasons })
  | .reasons =>
    -- the counts are read while the lock of the offsets is held
    ({ s with
        roundOffsetRejectReasons := fun reason =>
          s.roundRejectReasonsBase reason + s.rejectReasons reason },
      some { t with stage := .work })
  | .work => ({ s with roundWork := 0 }, some { t with stage := .bestShare })
  | .bestShare => ({ s with bestShareDifficulty := 0 }, some { t with stage := .since })
  | .since => ({ s with roundSinceTs := t.now }, some { t with stage := .workers })
  | .workers => ({ s with workerBestShares := [] }, some { t with stage := .epoch })
  | .epoch =>
    ({ s with roundEpoch := s.roundEpoch + 1 },
      some { t with stage := .enqueue (s.roundEpoch + 1) })
  | .enqueue epoch => (s.enqueue (.roundReset epoch t.now), none)

end ResetTask

theorem resetTask_alone (s : PoolStats) (now : ℕ) :
    alone ResetTask.step 11 s (.begin now) = (s.roundReset now, none) := rfl

/-! ## Taking a snapshot -/

/-- How far a snapshot has come. -/
inductive SnapshotStage
  | epoch
  | loadAccepted
  | subAccepted
  | loadRejected
  | subRejected
  | loadReasons
  | subReasons
  | loadWork
  | enqueue

/-- A snapshot that has read nothing. -/
def SnapshotWrite.blank : SnapshotWrite where
  shareTotals := { accepted := 0, rejected := 0 }
  roundRejectReasons := fun _ => 0
  roundWork := 0
  roundEpoch := 0

/-- A snapshot that is being taken, with what was read for it so far. -/
structure SnapshotTask where
  draft : SnapshotWrite
  stage : SnapshotStage

namespace SnapshotTask

/-- A snapshot that has just begun. -/
def begin : SnapshotTask where
  draft := .blank
  stage := .epoch

/-- One access of a snapshot. -/
def step (s : PoolStats) (t : SnapshotTask) : PoolStats × Option SnapshotTask :=
  let draft := t.draft
  match t.stage with
  | .epoch =>
    -- the epoch is read before any total
    let blank := SnapshotWrite.blank
    (s, some { draft := { blank with roundEpoch := s.roundEpoch }, stage := .loadAccepted })
  | .loadAccepted =>
    let accepted := s.roundAcceptedBase + s.sharesAccepted
    (s, some { draft := { draft with shareTotals.accepted := accepted }, stage := .subAccepted })
  | .subAccepted =>
    let accepted := draft.shareTotals.accepted - s.roundOffsetAccepted
    (s, some { draft := { draft with shareTotals.accepted := accepted }, stage := .loadRejected })
  | .loadRejected =>
    let rejected := s.roundRejectedBase + s.sharesRejected
    (s, some { draft := { draft with shareTotals.rejected := rejected }, stage := .subRejected })
  | .subRejected =>
    let rejected := draft.shareTotals.rejected - s.roundOffsetRejected
    (s, some { draft := { draft with shareTotals.rejected := rejected }, stage := .loadReasons })
  | .loadReasons =>
    let merged := fun reason => s.roundRejectReasonsBase reason + s.rejectReasons reason
    (s, some { draft := { draft with roundRejectReasons := merged }, stage := .subReasons })
  | .subReasons =>
    let merged := fun reason => draft.roundRejectReasons reason - s.roundOffsetRejectReasons reason
    (s, some { draft := { draft with roundRejectReasons := merged }, stage := .loadWork })
  | .loadWork => (s, some { draft := { draft with roundWork := s.roundWork }, stage := .enqueue })
  | .enqueue => (s.enqueue (.snapshot draft), none)

end SnapshotTask

theorem snapshotTask_alone (s : PoolStats) :
    alone SnapshotTask.step 9 s .begin = (s.enqueue (.snapshot s.snapshotWrite), none) := rfl

/-! ## All together -/

/-- Only a reset queues resets and only a snapshot queues snapshots. -/
def isOther : StoreWrite → Bool
  | .snapshot _ | .roundReset .. => false
  | _ => true

/-- The shared statistics, the tasks in flight and the writer thread. -/
structure World where
  stats : PoolStats
  shares : List ShareTask
  reset : Option ResetTask
  snapshots : List SnapshotTask
  /-- How many of the queued writes the writer thread has taken. -/
  taken : ℕ
  writer : State StoreWrite Store

namespace World

/-- What happens next among the tasks and the writer. -/
inductive Event
  | beginShare (share : Share) (hashDifficulty : ℕ)
  | stepShare (i : ℕ)
  | beginReset (now : ℕ)
  | stepReset
  | beginSnapshot
  | stepSnapshot (i : ℕ)
  /-- Some other part of the pool queues a write. -/
  | other (write : { write : StoreWrite // isOther write })
  | retry (faults : List Bool)
  /-- The writer thread takes the next write. -/
  | handle (faults : List Bool)

/-- One operation. A move of a task that is not there, and a reset that would begin while another is
in progress, change nothing. -/
def step (w : World) : Event → World × List (Output StoreWrite)
  | .beginShare share hashDifficulty =>
    ({ w with shares := w.shares ++ [.begin share hashDifficulty] }, [])
  | .stepShare i =>
    match w.shares[i]? with
    | none => (w, [])
    | some t =>
      let (stats, t') := t.step w.stats
      ({ w with stats, shares := advance w.shares i t' }, [])
  | .beginReset now =>
    match w.reset with
    | none => ({ w with reset := some (.begin now) }, [])
    | some _ => (w, [])
  | .stepReset =>
    match w.reset with
    | none => (w, [])
    | some t =>
      let (stats, t') := t.step w.stats
      ({ w with stats, reset := t' }, [])
  | .beginSnapshot => ({ w with snapshots := w.snapshots ++ [.begin] }, [])
  | .stepSnapshot i =>
    match w.snapshots[i]? with
    | none => (w, [])
    | some t =>
      let (stats, t') := t.step w.stats
      ({ w with stats, snapshots := advance w.snapshots i t' }, [])
  | .other write => ({ w with stats := w.stats.enqueue write }, [])
  | .retry faults =>
    let out := Stats.writer.step w.writer (.retry faults)
    ({ w with writer := out.state }, out.outputs)
  | .handle faults =>
    match w.stats.writes[w.taken]? with
    | none => (w, [])
    | some write =>
      let out := Stats.writer.step w.writer (.handle write faults)
      ({ w with writer := out.state, taken := w.taken + 1 }, out.outputs)

/-- The tasks and the writer as a process. -/
def process : Process World Event (Output StoreWrite) where
  step w e := { state := (w.step e).1, outputs := (w.step e).2, live := true }

/-- A process that starts on a file it has opened. -/
def start (db : Database) (wallNow : ℕ) : World where
  stats := .fromPersisted db wallNow
  shares := []
  reset := none
  snapshots := []
  taken := 0
  writer := startWriter db

/-- The world after a sequence of events. -/
def run (w : World) (events : List Event) : World := (process.run w events).state

/-- What the writer thread did in the run. -/
def written (w : World) (events : List Event) : List (Output StoreWrite) :=
  (process.run w events).outputs

end World

end BtcPool.Stats
