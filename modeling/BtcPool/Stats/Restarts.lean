import BtcPool.Mining.BlockCounts
import BtcPool.Stats.Round

/-!
# Rounds across restarts

A process that shuts down queues a last snapshot and drains the queue; the next one loads the totals
and the start of the round from the file. Before it does, opening the file compares the start of the
round with the time of the last win and resets a round that a win outlived. The two times of one win
are two readings of the clock, so a second that passes between them costs the round its totals,
unless the round ends before the process does. A restart leaves the round as it was exactly where it
did not begin with such a win (`round_survives_restart_iff`).

The invariant (`Faithful`) compares memory with the tables as they will be once the queue is
drained: they agree on the epoch and the start of the round, and the totals in the tables are at
most those in memory, which the last snapshot then brings in line. It also says where the times in
the tables come from, and whether a win among them is later than the start of the round.
-/

namespace BtcPool.Stats

open Rows RetryQueue Accounting

/-! ## Memory and the queue -/

/-- The tables as they will be once what was queued is applied. -/
def viewed (v₀ : RoundView) (s : PoolStats) : RoundView := s.writes.foldl RoundView.after v₀

theorem viewed_enqueue (v₀ : RoundView) (s : PoolStats) (write : StoreWrite) :
    viewed v₀ (s.enqueue write) = (viewed v₀ s).after write := by
  rw [viewed, PoolStats.enqueue, List.foldl_append]
  rfl

/-- The tables will agree with memory on the round, up to totals that are yet to be merged. The
start of the round and the wins are of the given times, and `late` tells whether a win is later than
the start of the round. -/
structure Faithful (v₀ : RoundView) (s : PoolStats) (times : List ℕ) (late : Bool) : Prop where
  epoch : (viewed v₀ s).epoch = s.roundEpoch
  since : (viewed v₀ s).sinceTs = s.roundSinceTs
  total : ∀ q, (viewed v₀ s).total q ≤ s.roundTotal q
  offset : ∀ q, s.offset q ≤ s.recorded q
  since_mem : s.roundSinceTs ∈ times
  wins_mem : ∀ b ∈ (viewed v₀ s).blocks, b.wonAtSubmit → b.foundTs ∈ times
  late_iff : late ↔ ∃ b ∈ (viewed v₀ s).blocks, b.wonAtSubmit ∧ s.roundSinceTs < b.foundTs

/-- A block of this hash is neither pending nor, once the queue is applied, in the tables. -/
def isNew (v₀ : RoundView) (s : PoolStats) (hash : Str) : Bool :=
  !s.isPending hash && !(viewed v₀ s).blocks.any fun b => b.hash = hash

theorem isNew_iff {v₀ : RoundView} {s : PoolStats} {hash : Str} :
    isNew v₀ s hash = true ↔
      s.isPending hash = false ∧ hash ∉ (viewed v₀ s).blocks.map PendingBlock.hash := by
  simp [isNew]

namespace Faithful

variable {v₀ : RoundView} {s s' : PoolStats} {times times' : List ℕ} {late : Bool}

/-- Times may be added. -/
theorem mono (h : Faithful v₀ s times late) (hsub : times ⊆ times') : Faithful v₀ s times' late :=
  { h with
    since_mem := hsub h.since_mem
    wins_mem := fun b hb hwon => hsub (h.wins_mem b hb hwon) }

/-- A step that only records more. -/
theorem record (h : Faithful v₀ s times late) (hview : viewed v₀ s' = viewed v₀ s)
    (hepoch : s'.roundEpoch = s.roundEpoch) (hsince : s'.roundSinceTs = s.roundSinceTs)
    (hoffset : ∀ q, s'.offset q = s.offset q) (hrecorded : ∀ q, s.recorded q ≤ s'.recorded q) :
    Faithful v₀ s' times late := by
  refine ⟨?_, ?_, fun q => ?_, fun q => ?_, ?_, ?_, ?_⟩
  · rw [hview, hepoch]
    exact h.epoch
  · rw [hview, hsince]
    exact h.since
  · rw [hview, PoolStats.roundTotal, hoffset]
    have htotal := h.total q
    have hle := hrecorded q
    rw [PoolStats.roundTotal] at htotal
    omega
  · rw [hoffset]
    exact (h.offset q).trans (hrecorded q)
  · rw [hsince]
    exact h.since_mem
  · rw [hview]
    exact h.wins_mem
  · rw [hview, hsince]
    exact h.late_iff

/-- A write the round does not notice. -/
theorem enqueue (h : Faithful v₀ s times late) {write : StoreWrite}
    (hw : ∀ v : RoundView, v.after write = v) : Faithful v₀ (s.enqueue write) times late :=
  h.record ((viewed_enqueue v₀ s write).trans (hw _)) rfl rfl (fun _ => rfl) fun _ => le_rfl

theorem shareAccepted (h : Faithful v₀ s times late) (credit hashDifficulty : ℕ) :
    Faithful v₀ (s.shareAccepted credit hashDifficulty) times late := by
  have hcounted : Faithful v₀
      { s with sharesAccepted := s.sharesAccepted + 1, roundWork := s.roundWork + credit } times
      late := by
    refine h.record rfl rfl rfl (fun _ => rfl) fun q => ?_
    cases q <;> simp only [PoolStats.recorded] <;> omega
  unfold PoolStats.shareAccepted
  dsimp only
  split
  · refine Faithful.enqueue ?_ fun _ => rfl
    exact hcounted.record rfl rfl rfl (fun _ => rfl) fun _ => le_rfl
  · exact hcounted

theorem workerShareAccepted (h : Faithful v₀ s times late) (worker : Str) (difficulty : ℕ) :
    Faithful v₀ (s.workerShareAccepted worker difficulty) times late := by
  unfold PoolStats.workerShareAccepted
  dsimp only
  split
  · refine Faithful.enqueue ?_ fun _ => rfl
    exact h.record rfl rfl rfl (fun _ => rfl) fun _ => le_rfl
  · exact h.record rfl rfl rfl (fun _ => rfl) fun _ => le_rfl

theorem shareRejected (h : Faithful v₀ s times late) (reason : RejectReason) :
    Faithful v₀ (s.shareRejected reason) times late := by
  refine h.record rfl rfl rfl (fun _ => rfl) fun q => ?_
  rw [PoolStats.recorded_shareRejected]
  exact Nat.le_add_right _ _

/-- A new round starts from nothing, in memory and in the tables, and after every win in them. -/
theorem roundReset (h : Faithful v₀ s times late) {now : ℕ} (hnow : ∀ t ∈ times, t ≤ now) :
    Faithful v₀ (s.roundReset now) (times ++ [now]) false := by
  have hview : viewed v₀ (s.roundReset now) =
      (viewed v₀ s).after (.roundReset (s.roundEpoch + 1) now) :=
    viewed_enqueue v₀ _ _
  refine ⟨?_, ?_, fun q => ?_, fun q => ?_, ?_, ?_, ?_⟩
  · rw [hview]
    change max (viewed v₀ s).epoch (s.roundEpoch + 1) = s.roundEpoch + 1
    rw [h.epoch]
    omega
  · rw [hview]
    rfl
  · rw [hview]
    exact Nat.zero_le _
  · exact (PoolStats.recorded_roundReset s now q).ge
  · exact List.mem_append_right times List.mem_cons_self
  · rw [hview]
    exact fun b hb hwon => List.mem_append_left _ (h.wins_mem b hb hwon)
  · rw [hview]
    refine iff_of_false Bool.false_ne_true ?_
    rintro ⟨b, hb, hwon, hlt⟩
    exact absurd hlt (Nat.not_lt.mpr (hnow _ (h.wins_mem b hb hwon)))

theorem blockFound (h : Faithful v₀ s times late) {now : ℕ} (hnow : ∀ t ∈ times, t ≤ now) :
    Faithful v₀ (s.blockFound now) (times ++ [now]) false :=
  have hcounted : Faithful v₀ { s with blocksFound := s.blocksFound + 1 } times late :=
    h.record rfl rfl rfl (fun _ => rfl) fun _ => le_rfl
  hcounted.roundReset hnow

/-- Enrolling a block adds its time, and a win that is new can be later than the start of the
round. -/
theorem enrollPendingBlock (h : Faithful v₀ s times late) (block : PendingBlock) :
    Faithful v₀ (s.enrollPendingBlock block) (times ++ [block.foundTs])
      (late || (isNew v₀ s block.hash && block.wonAtSubmit &&
        decide (s.roundSinceTs < block.foundTs))) := by
  have hmore := h.mono (List.subset_append_left times [block.foundTs])
  rcases enrollPendingBlock_cases s block with ⟨hpending, heq⟩ | ⟨hpending, heq⟩
  · have hold : isNew v₀ s block.hash = false := by simp [isNew, hpending]
    rw [heq, hold, Bool.false_and, Bool.false_and, Bool.or_false]
    exact hmore
  have hview : viewed v₀ (s.enrollPendingBlock block) =
      (viewed v₀ s).after (.blockFound block) := by
    rw [heq]
    exact viewed_enqueue v₀ s _
  rcases insertOrIgnore_cases PendingBlock.hash block (viewed v₀ s).blocks with
    ⟨hmem, hblocks⟩ | ⟨hmem, hblocks⟩ <;> rw [RoundView.after, hblocks] at hview
  · have hold : isNew v₀ s block.hash = false :=
      Bool.eq_false_iff.mpr fun hnew => (isNew_iff.mp hnew).2 hmem
    rw [hold, Bool.false_and, Bool.false_and, Bool.or_false]
    rw [heq] at hview ⊢
    exact hmore.record hview rfl rfl (fun _ => rfl) fun _ => le_rfl
  · have hnew : isNew v₀ s block.hash = true :=
      isNew_iff.mpr ⟨Bool.eq_false_of_not_eq_true hpending, hmem⟩
    rw [hnew, Bool.true_and]
    rw [heq] at hview ⊢
    refine ⟨?_, ?_, fun q => ?_, h.offset, hmore.since_mem, ?_, ?_⟩ <;> rw [hview]
    · exact h.epoch
    · exact h.since
    · exact h.total q
    · intro b hb hwon
      rcases List.mem_append.mp hb with hb | hb
      · exact hmore.wins_mem b hb hwon
      · rw [List.mem_singleton.mp hb]
        exact List.mem_append_right times List.mem_cons_self
    · simp only [Bool.or_eq_true, Bool.and_eq_true, decide_eq_true_eq, List.mem_append,
        List.mem_singleton, or_and_right, exists_or, exists_eq_left, h.late_iff]

/-- A snapshot brings the totals of the tables in line. -/
theorem recordHashrateSnapshot (h : Faithful v₀ s times late) (closed : Option LedgerMinute) :
    Faithful v₀ (s.recordHashrateSnapshot closed) times late ∧
      (∀ q, (viewed v₀ (s.recordHashrateSnapshot closed)).total q = s.roundTotal q) := by
  have hclosed : Faithful v₀ (s.persistLedgerMinute closed) times late := by
    cases closed with
    | none => exact h
    | some minute => exact h.enqueue fun _ => rfl
  have hsame : ∀ q, (s.persistLedgerMinute closed).roundTotal q = s.roundTotal q := by
    cases closed <;> exact fun _ => rfl
  have hview : viewed v₀ (s.recordHashrateSnapshot closed) =
      { viewed v₀ (s.persistLedgerMinute closed) with
        total := fun q => max ((viewed v₀ (s.persistLedgerMinute closed)).total q)
          ((s.persistLedgerMinute closed).snapshotWrite.total q) } := by
    exact (viewed_enqueue v₀ _ _).trans (if_pos hclosed.epoch.symm)
  have htotal : ∀ q, (viewed v₀ (s.recordHashrateSnapshot closed)).total q = s.roundTotal q := by
    intro q
    rw [hview]
    dsimp only
    rw [PoolStats.total_snapshotWrite, max_eq_right (hclosed.total q), hsame]
  refine ⟨⟨?_, ?_, fun q => ?_, hclosed.offset, hclosed.since_mem, ?_, ?_⟩, htotal⟩
  · rw [hview]
    exact hclosed.epoch
  · rw [hview]
    exact hclosed.since
  · rw [htotal, ← hsame]
    exact le_rfl
  · rw [hview]
    exact hclosed.wins_mem
  · rw [hview]
    exact hclosed.late_iff

end Faithful

/-! ## Blocks -/

section Calls

variable {v₀ : RoundView} {a : Accounts} {times : List ℕ} {late : Bool}

theorem isNew_blockFound (s : PoolStats) (now : ℕ) (hash : Str) :
    isNew v₀ (s.blockFound now) hash = isNew v₀ s hash := by
  have hview : viewed v₀ (s.blockFound now) =
      (viewed v₀ s).after (.roundReset (s.roundEpoch + 1) now) :=
    viewed_enqueue v₀ _ _
  rw [isNew, hview]
  rfl

theorem Faithful.outcome (h : Faithful v₀ a.stats times late) (outcome : BlockSubmitOutcome)
    (height : ℕ) (worker payout hashHex : Str) {resetTs foundTs : ℕ}
    (hreset : ∀ t ∈ times, t ≤ resetTs) :
    Faithful v₀ (recordBlockOutcome a outcome height worker payout hashHex resetTs foundTs).stats
      (times ++ [resetTs, foundTs])
      (if outcome.isWin then isNew v₀ a.stats hashHex && decide (resetTs < foundTs) else late) := by
  rw [stats_recordBlockOutcome, counted]
  by_cases hw : outcome.isWin
  · have henrolled := (h.blockFound hreset).enrollPendingBlock
      (blockOf outcome height worker payout hashHex foundTs)
    rw [List.append_assoc, isNew_blockFound, Bool.false_or] at henrolled
    rw [if_pos hw, if_pos hw]
    have hwon : (blockOf outcome height worker payout hashHex foundTs).wonAtSubmit = true := hw
    rw [hwon, Bool.and_true] at henrolled
    exact henrolled
  · have hlost : Faithful v₀ a.stats.blockInconclusive times late :=
      h.record rfl rfl rfl (fun _ => rfl) fun _ => le_rfl
    have henrolled :=
      hlost.enrollPendingBlock (blockOf outcome height worker payout hashHex foundTs)
    have hwon : (blockOf outcome height worker payout hashHex foundTs).wonAtSubmit = false :=
      Bool.eq_false_of_not_eq_true hw
    rw [hwon, Bool.and_false, Bool.false_and, Bool.or_false] at henrolled
    rw [if_neg hw, if_neg hw]
    refine henrolled.mono ?_
    simp [blockOf]

/-- A block that lost its height race is confirmed after all, which begins a round. -/
def promotes (s : PoolStats) (block : PendingBlock) (resolution : BlockResolution) : Bool :=
  s.isPending block.hash && !block.wonAtSubmit && decide (resolution = .confirmed)

theorem Faithful.correctVerdict {s : PoolStats} (h : Faithful v₀ s times late) (wonAtSubmit : Bool)
    (resolution : BlockResolution) {now : ℕ} (hnow : ∀ t ∈ times, t ≤ now) :
    Faithful v₀ (s.correctVerdict wonAtSubmit resolution now) (times ++ [now])
      (late && !(!wonAtSubmit && decide (resolution = .confirmed))) := by
  have hkept : Faithful v₀ s (times ++ [now]) (late && true) := by
    rw [Bool.and_true]
    exact h.mono (List.subset_append_left times [now])
  cases wonAtSubmit with
  | true => cases resolution <;> exact hkept.record rfl rfl rfl (fun _ => rfl) fun _ => le_rfl
  | false =>
    cases resolution with
    | confirmed =>
      have hcounted : Faithful v₀ { s with blocksInconclusive := s.blocksInconclusive - 1 } times
          late :=
        h.record rfl rfl rfl (fun _ => rfl) fun _ => le_rfl
      have hbegun := hcounted.blockFound hnow
      rw [← Bool.and_false late] at hbegun
      exact hbegun
    | orphaned => exact hkept
    | abandoned => exact hkept

theorem Faithful.resolution (h : Faithful v₀ a.stats times late) (block : PendingBlock)
    (resolution : BlockResolution) {resetTs : ℕ} (resolvedTs : ℕ)
    (hreset : ∀ t ∈ times, t ≤ resetTs) :
    Faithful v₀ (recordBlockResolution a block resolution resetTs resolvedTs).stats
      (times ++ [resetTs, resolvedTs]) (late && !promotes a.stats block resolution) := by
  unfold recordBlockResolution PoolStats.resolveBlock promotes
  by_cases hp : a.stats.isPending block.hash
  · rw [if_pos hp, hp, Bool.true_and]
    have hretired : Faithful v₀ { a.stats with
        pendingBlocks := a.stats.pendingBlocks.filter fun b => b.hash ≠ block.hash } times late :=
      h.record rfl rfl rfl (fun _ => rfl) fun _ => le_rfl
    have hverdict := hretired.correctVerdict block.wonAtSubmit resolution hreset
    refine (hverdict.enqueue fun _ => rfl).mono ?_
    simp
  · rw [if_neg hp, Bool.eq_false_of_not_eq_true hp, Bool.false_and, Bool.false_and, Bool.not_false,
      Bool.and_true]
    exact h.mono (List.subset_append_left times _)

end Calls

/-! ## A pool and its restarts -/

/-- A process at work: the file as it was opened, and the accounts since. -/
structure Life where
  db : Database
  accounts : Accounts

/-- What a process does next. -/
inductive Move
  | accepted (worker : Str) (credit hashDifficulty : ℕ)
  | rejected (reason : RejectReason)
  /-- A call about a block. -/
  | call (call : Call)
  | snapshot (closed : Option LedgerMinute)
  | ledgerMinute (minute : LedgerMinute)
  | bestHashrate (hps : ℚ)
  | pruneIdleWorkers
  /-- The process shuts down and the next one starts on its file. -/
  | restart (closed open_ : Option LedgerMinute) (wallNow : ℕ)

namespace Life

/-- A process that starts on a file. -/
def boot (db : Database) (wallNow : ℕ) : Life where
  db := opened db
  accounts := start (opened db) wallNow

/-- The file once the last writes of the process are applied. -/
def shutdown (life : Life) (closed open_ : Option LedgerMinute) : Database :=
  let s := life.accounts.stats.shutdownPersist closed open_
  (writer.process.run (startWriter life.db) (failureFree s.writes)).state.store.db

/-- A change of the statistics. -/
def onStats (life : Life) (f : PoolStats → PoolStats) : Life :=
  { life with accounts.stats := f life.accounts.stats }

/-- A process after a move. -/
def step (life : Life) : Move → Life
  | .accepted worker credit hashDifficulty =>
    life.onStats (recordAccepted · worker credit hashDifficulty)
  | .rejected reason => life.onStats (recordRejected · reason)
  | .call call => { life with accounts := Accounting.step life.accounts call }
  | .snapshot closed => life.onStats (·.recordHashrateSnapshot closed)
  | .ledgerMinute minute => life.onStats (·.persistLedgerMinute (some minute))
  | .bestHashrate hps => life.onStats (·.enqueue (.bestHashrate hps))
  | .pruneIdleWorkers => life.onStats (·.enqueue (.pruneWorkerBestShares maxWorkerBestShares))
  | .restart closed open_ wallNow => boot (life.shutdown closed open_) wallNow

/-- A process after a sequence of moves. -/
def run (life : Life) (moves : List Move) : Life := moves.foldl step life

/-- The tables as they will be once the writes of the process are applied. -/
def tables (life : Life) : RoundView := view ⟨life.db, .default⟩

/-- Memory is faithful to the file it was loaded from. -/
def IsFaithful (life : Life) (times : List ℕ) (late : Bool) : Prop :=
  Faithful life.tables life.accounts.stats times late

/-- What the process leaves in its file: the round as it was in memory, and the wins. -/
theorem db_shutdown {life : Life} {times : List ℕ} {late : Bool} (h : life.IsFaithful times late)
    (closed open_ : Option LedgerMinute) :
    let db := life.shutdown closed open_
    (∀ q, db.round.total q = life.accounts.stats.roundTotal q) ∧
      db.round.stats.sinceTs = life.accounts.stats.roundSinceTs ∧
      (∀ r ∈ db.foundBlocks, r.wonAtSubmit → r.foundTs ∈ times) ∧
      (late ↔ ∃ r ∈ db.foundBlocks, r.wonAtSubmit ∧
        life.accounts.stats.roundSinceTs < r.foundTs) := by
  intro db
  obtain ⟨hsnap, htotal⟩ := h.recordHashrateSnapshot closed
  -- what is queued after the snapshot does not concern the round
  have hlast : viewed life.tables (life.accounts.stats.shutdownPersist closed open_) =
      viewed life.tables (life.accounts.stats.recordHashrateSnapshot closed) := by
    refine (viewed_enqueue _ _ _).trans ?_
    cases open_ with
    | none => rfl
    | some minute => exact viewed_enqueue _ _ _
  have hdrained := view_of_failureFree life.db
    (life.accounts.stats.shutdownPersist closed open_).writes
  rw [← tables, ← viewed, hlast] at hdrained
  have hsame : (life.accounts.stats.recordHashrateSnapshot closed).roundSinceTs =
      life.accounts.stats.roundSinceTs := by
    cases closed <;> rfl
  have hblocks : db.foundBlocks.map FoundBlock.toPendingBlock =
      (viewed life.tables (life.accounts.stats.recordHashrateSnapshot closed)).blocks :=
    congrArg RoundView.blocks hdrained
  refine ⟨fun q => ?_, ?_, fun r hr hwon => ?_, ?_⟩
  · rw [← htotal, ← hdrained]
    rfl
  · exact (congrArg RoundView.sinceTs hdrained).trans (hsnap.since.trans hsame)
  · refine hsnap.wins_mem r.toPendingBlock ?_ hwon
    rw [← hblocks]
    exact List.mem_map_of_mem hr
  · rw [hsnap.late_iff, ← hblocks, hsame]
    simp

theorem roundSinceTs_boot {db : Database} (wallNow : ℕ)
    (hsince : 0 < (opened db).round.stats.sinceTs) :
    (boot db wallNow).accounts.stats.roundSinceTs = (opened db).round.stats.sinceTs :=
  if_neg (by omega)

/-- A process is faithful to the file it has just opened. -/
theorem isFaithful_boot {db : Database} (wallNow : ℕ) {times : List ℕ} (hpos : ∀ t ∈ times, 0 < t)
    (hsince : (opened db).round.stats.sinceTs ∈ times)
    (hwins : ∀ r ∈ db.foundBlocks, r.wonAtSubmit → r.foundTs ∈ times) :
    (boot db wallNow).IsFaithful times false := by
  have hstart := roundSinceTs_boot wallNow (hpos _ hsince)
  obtain ⟨hround, hblocks⟩ := reconciled_opened db
  refine ⟨rfl, hstart.symm, fun q => ?_, fun q => ?_, ?_, fun b hb hwon => ?_, ?_⟩
  · cases q <;> exact le_rfl
  · cases q <;> exact Nat.zero_le _
  · rw [hstart]
    exact hsince
  · obtain ⟨r, hr, rfl⟩ := List.mem_map.mp hb
    exact hwins r (hblocks ▸ hr) hwon
  · refine iff_of_false Bool.false_ne_true ?_
    rintro ⟨b, hb, hwon, hlt⟩
    obtain ⟨r, hr, rfl⟩ := List.mem_map.mp hb
    rw [hstart] at hlt
    exact absurd hlt (Nat.not_lt.mpr (hround.wins r (hblocks ▸ hr) hwon))

end Life

/-! ## The clock -/

/-- The readings of the clock in a call. -/
def callReadings : Call → List ℕ
  | .outcome _ _ _ _ _ resetTs foundTs => [resetTs, foundTs]
  | .sweep => []
  | .resolution _ _ resetTs resolvedTs => [resetTs, resolvedTs]

/-- The readings of the clock in a move, in the order they are made. -/
def Move.readings : Move → List ℕ
  | .call c => callReadings c
  | .restart _ _ wallNow => [wallNow]
  | _ => []

/-- The readings of the clock in a run. -/
def readings (moves : List Move) : List ℕ := moves.flatMap Move.readings

namespace Life

/-- Whether after a move the round is one that a win began whose block is new and was enrolled in a
later second; `late` tells whether it was so before. A process that starts has reconciled the
two. -/
def lateAfter (life : Life) (late : Bool) : Move → Bool
  | .call (.outcome outcome _ _ _ hashHex resetTs foundTs) =>
    if outcome.isWin then
      isNew life.tables life.accounts.stats hashHex && decide (resetTs < foundTs)
    else late
  | .call (.resolution index resolution _ _) =>
    late && !(life.accounts.swept[index]?.any (promotes life.accounts.stats · resolution))
  | .restart _ _ _ => false
  | _ => late

/-- Whether at the end of a run the round is one that began so. -/
def beganLate (life : Life) (late : Bool) : List Move → Bool
  | [] => late
  | m :: moves => beganLate (life.step m) (life.lateAfter late m) moves

section Moves

variable {life : Life} {times : List ℕ} {late : Bool}

theorem isFaithful_call (h : life.IsFaithful times late) {call : Call}
    (hclock : ∀ t ∈ times, ∀ u ∈ callReadings call, t ≤ u) :
    Faithful life.tables (Accounting.step life.accounts call).stats (times ++ callReadings call)
      (life.lateAfter late (.call call)) := by
  cases call with
  | outcome o height worker payout hashHex resetTs foundTs =>
    exact h.outcome o height worker payout hashHex fun t ht => hclock t ht _ List.mem_cons_self
  | sweep => exact h.mono (List.subset_append_left times [])
  | resolution index resolution resetTs resolvedTs =>
    have hreset : ∀ t ∈ times, t ≤ resetTs := fun t ht => hclock t ht _ List.mem_cons_self
    unfold Accounting.step lateAfter
    dsimp only
    cases life.accounts.swept[index]? with
    | none =>
      rw [Option.any_none, Bool.not_false, Bool.and_true]
      exact h.mono (List.subset_append_left times _)
    | some block => exact h.resolution block resolution resolvedTs hreset

/-- A move keeps a process faithful, at the times read so far and in the move. -/
theorem isFaithful_step (h : life.IsFaithful times late) {m : Move} (hpos : ∀ t ∈ times, 0 < t)
    (hclock : ∀ t ∈ times, ∀ u ∈ m.readings, t ≤ u) :
    (life.step m).IsFaithful (times ++ m.readings) (life.lateAfter late m) := by
  have hquiet : times ⊆ times ++ [] := List.subset_append_left times []
  cases m with
  | accepted worker credit hashDifficulty =>
    exact ((h.shareAccepted credit hashDifficulty).workerShareAccepted worker hashDifficulty).mono
      hquiet
  | rejected reason => exact (h.shareRejected reason).mono hquiet
  | call call => exact isFaithful_call h hclock
  | snapshot closed => exact (h.recordHashrateSnapshot closed).1.mono hquiet
  | ledgerMinute minute => exact (h.enqueue fun _ => rfl).mono hquiet
  | bestHashrate hps => exact (h.enqueue fun _ => rfl).mono hquiet
  | pruneIdleWorkers => exact (h.enqueue fun _ => rfl).mono hquiet
  | restart closed open_ wallNow =>
    obtain ⟨-, hsince, hwins, -⟩ := db_shutdown h closed open_
    refine Faithful.mono (isFaithful_boot wallNow hpos ?_ hwins) (List.subset_append_left times _)
    rcases (reconciled_opened (life.shutdown closed open_)).1.since with heq |
      ⟨win, hmem, hwon, heq⟩
    · rw [heq, hsince]
      exact h.since_mem
    · rw [heq]
      exact hwins win hmem hwon

theorem isFaithful_run (h : life.IsFaithful times late) {moves : List Move}
    (hpos : ∀ t ∈ times ++ readings moves, 0 < t)
    (hclock : (times ++ readings moves).Pairwise (· ≤ ·)) :
    (life.run moves).IsFaithful (times ++ readings moves) (life.beganLate late moves) := by
  induction moves generalizing life times late with
  | nil => exact h.mono (List.subset_append_left times [])
  | cons m moves ih =>
    have hsplit : times ++ readings (m :: moves) = times ++ m.readings ++ readings moves := by
      rw [readings, List.flatMap_cons, List.append_assoc]
      rfl
    rw [hsplit] at hpos hclock ⊢
    have hnow := (List.pairwise_append.mp (List.pairwise_append.mp hclock).1).2.2
    have hstep := isFaithful_step h
      (fun t ht => hpos t (List.mem_append_left _ (List.mem_append_left _ ht))) hnow
    exact ih hstep hpos hclock

end Moves

/-- What the next process loads is the round of the last one, unless that began late. -/
theorem opened_shutdown_iff {life : Life} {times : List ℕ} {late : Bool}
    (h : life.IsFaithful times late) (closed open_ : Option LedgerMinute) :
    ((∀ q, (opened (life.shutdown closed open_)).round.total q =
        life.accounts.stats.roundTotal q) ∧
      (opened (life.shutdown closed open_)).round.stats.sinceTs =
        life.accounts.stats.roundSinceTs) ↔ late = false := by
  obtain ⟨htotal, hsince, -, hlate⟩ := db_shutdown h closed open_
  rw [← Bool.not_eq_true, hlate]
  cases (reconciled_opened (life.shutdown closed open_)).1 with
  | kept hwins htotal' hsince' =>
    refine iff_of_true ⟨fun q => ?_, hsince'.trans hsince⟩ ?_
    · rw [htotal']
      exact htotal q
    · rintro ⟨r, hr, hwon, hlt⟩
      exact absurd hlt (Nat.not_lt.mpr (hsince ▸ hwins r hr hwon))
  | @reset win hmem hwon hlt _ _ hsince' =>
    rw [hsince] at hlt
    refine iff_of_false ?_ (not_not.mpr ⟨win, hmem, hwon, hlt⟩)
    rintro ⟨-, heq⟩
    exact absurd (hsince'.symm.trans heq) hlt.ne'

/-- **When a round survives a restart.** The round that the next process loads is the round the last
one left, exactly if that round did not begin with a win whose block was enrolled, as a new one, in
a later second than the round was reset. -/
theorem round_survives_restart_iff {now wallNow : ℕ} (hpos : 0 < now) {moves : List Move}
    (hclock : (now :: wallNow :: readings moves).Pairwise (· ≤ ·))
    (closed open_ : Option LedgerMinute) :
    let life := (boot (.create now) wallNow).run moves
    let loaded := (opened (life.shutdown closed open_)).round
    (loaded.stats.sharesAccepted = life.accounts.stats.roundSharesAccepted ∧
      loaded.stats.sharesRejected = life.accounts.stats.roundSharesRejected ∧
      loaded.stats.work = life.accounts.stats.roundWork ∧
      loaded.rejectReasons = life.accounts.stats.roundRejectReasons ∧
      loaded.stats.sinceTs = life.accounts.stats.roundSinceTs) ↔
    (boot (.create now) wallNow).beganLate false moves = false := by
  intro life loaded
  have hall : ∀ t ∈ now :: wallNow :: readings moves, 0 < t := by
    intro t ht
    rcases List.mem_cons.mp ht with rfl | ht
    · exact hpos
    · exact hpos.trans_le ((List.pairwise_cons.mp hclock).1 t ht)
  have hboot : (boot (.create now) wallNow).IsFaithful [now, wallNow] false := by
    refine isFaithful_boot wallNow (fun t ht => hall t ?_) (List.mem_cons_self) fun r hr => ?_
    · exact List.mem_append_left (readings moves) ht
    · cases hr
  rw [← opened_shutdown_iff (isFaithful_run hboot hall hclock) closed open_]
  constructor
  · rintro ⟨haccepted, hrejected, hwork, hreasons, hsince⟩
    refine ⟨fun q => ?_, hsince⟩
    cases q with
    | accepted => exact haccepted
    | rejected => exact hrejected
    | work => exact hwork
    | reason reason => exact congrFun hreasons reason
  · rintro ⟨htotal, hsince⟩
    exact ⟨htotal .accepted, htotal .rejected, htotal .work,
      funext fun reason => htotal (.reason reason), hsince⟩

/-- A win and a share after it. -/
def regtestMoves (resetTs foundTs : ℕ) : List Move :=
  [.call (.outcome .accepted 101 "w".toList "w".toList "00".toList resetTs foundTs),
    .accepted "w".toList 5 6]

/-- A late win, a restart, and a win and a share of the next process. -/
def regtestHistory : List Move :=
  regtestMoves 10 11 ++ .restart none none 12 ::
    [.call (.outcome .accepted 102 "w".toList "w".toList "01".toList 20 20),
      .accepted "w".toList 5 6]

/-- The late win does not concern the round that the next one began. -/
theorem round_survives_restart_iff_regtest :
    let life := (boot (.create 1) 1).run regtestHistory
    let loaded := (opened (life.shutdown none none)).round
    life.accounts.stats.roundSharesAccepted = 1 ∧ life.accounts.stats.roundSinceTs = 20 ∧
      loaded.stats.sharesAccepted = life.accounts.stats.roundSharesAccepted ∧
      loaded.stats.sinceTs = life.accounts.stats.roundSinceTs := by
  have hclock : (1 :: 1 :: readings regtestHistory).Pairwise (· ≤ ·) := by decide
  have hprompt : (boot (.create 1) 1).beganLate false regtestHistory = false := by decide +kernel
  obtain ⟨haccepted, -, -, -, hsince⟩ :=
    (round_survives_restart_iff (by decide) hclock none none).mpr hprompt
  exact ⟨by decide +kernel, by decide +kernel, haccepted, hsince⟩

/-- A second that passes between the reset of the round and the enrolment of the block makes the
next process take the round for one whose reset was lost. -/
theorem round_wiped_by_restart :
    let life := (boot (.create 1) 1).run (regtestMoves 10 11)
    let loaded := (opened (life.shutdown none none)).round
    (1 :: 1 :: readings (regtestMoves 10 11)).Pairwise (· ≤ ·) ∧
      life.accounts.stats.roundSharesAccepted = 1 ∧ loaded.stats.sharesAccepted = 0 ∧
      life.accounts.stats.roundSinceTs = 10 ∧ loaded.stats.sinceTs = 11 :=
  ⟨by decide, rfl, by decide +kernel, rfl, by decide +kernel⟩

end Life

end BtcPool.Stats
