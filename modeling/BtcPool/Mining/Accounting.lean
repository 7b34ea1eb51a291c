import BtcPool.Network.Effects
import BtcPool.Stats.PoolStats

/-!
# Accounting for shares and blocks

What a submitted share and a found block move, in the statistics and in the exported metrics. A
block is counted when the node answers for it (`recordBlockOutcome`) and again when the confirmation
pass decides it (`recordBlockResolution`); the pass works on copies of the pending blocks it has
taken earlier (`Accounts.swept`), which may be out of date by then.
-/

namespace BtcPool

namespace BlockSubmitOutcome

/-- The name an outcome is counted under. -/
def label : BlockSubmitOutcome → String
  | accepted => "accepted"
  | duplicate => "duplicate"
  | inconclusive => "inconclusive"

/-- Whether the block won its height. -/
def isWin : BlockSubmitOutcome → Bool
  | inconclusive => false
  | _ => true

end BlockSubmitOutcome

namespace Accounting

open Stats

/-- The metrics about blocks; those with a label have a series for each of its values. -/
structure Metrics where
  blockSubmissions : String → ℕ
  blocksFound : ℕ
  blocksOrphaned : ℕ
  blockConfirmations : String → ℕ

namespace Metrics

/-- The metrics of a process just started. -/
def zero : Metrics where
  blockSubmissions := fun _ => 0
  blocksFound := 0
  blocksOrphaned := 0
  blockConfirmations := fun _ => 0

variable (m : Metrics)

/-- Count a submission by its outcome. -/
def blockSubmissionOutcome (outcome : String) : Metrics :=
  { m with
    blockSubmissions :=
      Function.update m.blockSubmissions outcome (m.blockSubmissions outcome + 1) }

/-- Count a block found. -/
def blockFound : Metrics := { m with blocksFound := m.blocksFound + 1 }

/-- Count a block orphaned. -/
def blockOrphaned : Metrics := { m with blocksOrphaned := m.blocksOrphaned + 1 }

/-- Count a block by how it was resolved. -/
def blockConfirmation (result : String) : Metrics :=
  { m with
    blockConfirmations :=
      Function.update m.blockConfirmations result (m.blockConfirmations result + 1) }

end Metrics

/-- Book an accepted share, for the pool and for its worker. -/
def recordAccepted (s : PoolStats) (worker : Str) (credit hashDifficulty : ℕ) : PoolStats :=
  (s.shareAccepted credit hashDifficulty).workerShareAccepted worker hashDifficulty

/-- Book a rejected share. -/
def recordRejected (s : PoolStats) (reason : RejectReason) : PoolStats := s.shareRejected reason

/-- The statistics, the metrics, and the pending blocks the confirmation pass has in hand. -/
structure Accounts where
  stats : PoolStats
  metrics : Metrics
  swept : List PendingBlock

/-- The clock is read for the reset of the round, if there is one, and again for the block. -/
def recordBlockOutcome (a : Accounts) (outcome : BlockSubmitOutcome) (height : ℕ)
    (worker payout hashHex : Str) (resetTs foundTs : ℕ) : Accounts :=
  let metrics := a.metrics.blockSubmissionOutcome outcome.label
  let block : PendingBlock :=
    { hash := hashHex, height, worker, payout, foundTs, wonAtSubmit := outcome.isWin }
  if outcome.isWin then
    { a with
      metrics := metrics.blockFound
      stats := (a.stats.blockFound resetTs).enrollPendingBlock block }
  else { a with metrics, stats := a.stats.blockInconclusive.enrollPendingBlock block }

/-- The metrics of a block that was decided. -/
def Metrics.blockResolved (m : Metrics) (wonAtSubmit : Bool) (resolution : BlockResolution) :
    Metrics :=
  let m := m.blockConfirmation resolution.label
  match wonAtSubmit, resolution with
  | true, .orphaned => m.blockOrphaned
  | false, .confirmed => m.blockFound
  | _, _ => m

/-- Book how the confirmation pass decided a block, unless it was decided before. -/
def recordBlockResolution (a : Accounts) (block : PendingBlock) (resolution : BlockResolution)
    (resetTs resolvedTs : ℕ) : Accounts :=
  match a.stats.resolveBlock block resolution resetTs resolvedTs with
  | (false, _) => a
  | (true, stats) =>
    { a with stats, metrics := a.metrics.blockResolved block.wonAtSubmit resolution }

/-! ## Sequences of calls -/

/-- A call on the accounts, in the order they are made. -/
inductive Call
  /-- The node's answer for a block, with the readings of the clock. -/
  | outcome (outcome : BlockSubmitOutcome) (height : ℕ) (worker payout hashHex : Str)
      (resetTs foundTs : ℕ)
  /-- The confirmation pass takes the pending blocks. -/
  | sweep
  /-- The confirmation pass decides a block it has taken. -/
  | resolution (index : ℕ) (resolution : BlockResolution) (resetTs resolvedTs : ℕ)

/-- What a call does to the accounts. -/
def step (a : Accounts) : Call → Accounts
  | .outcome outcome height worker payout hashHex resetTs foundTs =>
    recordBlockOutcome a outcome height worker payout hashHex resetTs foundTs
  | .sweep => { a with swept := a.swept ++ a.stats.pendingBlocks }
  | .resolution index resolution resetTs resolvedTs =>
    match a.swept[index]? with
    | none => a
    | some block => recordBlockResolution a block resolution resetTs resolvedTs

/-- The accounts after a sequence of calls. -/
def run (a : Accounts) (calls : List Call) : Accounts := calls.foldl step a

/-- The accounts of a process just started on a file. -/
def start (db : Database) (wallNow : ℕ) : Accounts where
  stats := .fromPersisted db wallNow
  metrics := .zero
  swept := []

/-- The hash an outcome is about. -/
def Call.reported : Call → Option Str
  | .outcome _ _ _ _ hashHex _ _ => some hashHex
  | _ => none

/-- The hashes reported in a list of calls. -/
def reported (calls : List Call) : List Str := calls.filterMap Call.reported

/-- A property of the calls so far and the accounts, kept by every call, holds after all of them. -/
theorem run_induction {P : List Call → Accounts → Prop} {a : Accounts} {calls : List Call}
    (h0 : P [] a)
    (hstep : ∀ {past b call}, past ++ [call] <+: calls → P past b →
      P (past ++ [call]) (step b call)) :
    P calls (run a calls) := by
  induction calls using List.reverseRecOn with
  | nil => exact h0
  | append_singleton calls call ih =>
    rw [run, List.foldl_append]
    refine hstep (List.prefix_refl _) (ih fun hinit hP => ?_)
    exact hstep (hinit.trans (List.prefix_append _ _)) hP

end Accounting

end BtcPool
