import BtcPool.Mining.Accounting

/-!
# Counting blocks

A block is counted in memory when its outcome is reported and enrolled in `found_blocks` through the
queue of writes. The two agree, and a restart changes no count, exactly when no block is reported
twice (`counts_persisted_iff`): a second report is counted in memory again, while the table ignores
it. The partition of the blocks found by their confirmations holds throughout exactly when every
block reported is a win (`partition_iff`), since a block that lost its height race is pending
without being counted as found.
-/

namespace BtcPool.Accounting

open Rows Stats RetryQueue

/-! ## The table the writes amount to -/

/-- The rows of `found_blocks` once writes are applied to an empty table. -/
def foundRows (writes : List StoreWrite) : List FoundBlock := writes.foldl rowsAfter []

theorem foundRows_concat (writes : List StoreWrite) (w : StoreWrite) :
    foundRows (writes ++ [w]) = rowsAfter (foundRows writes) w := by
  rw [foundRows, List.foldl_append]
  rfl

theorem nodup_foundRows (writes : List StoreWrite) :
    ((foundRows writes).map fun r => r.hash).Nodup := by
  induction writes using List.reverseRecOn with
  | nil => exact List.nodup_nil
  | append_singleton writes w ih =>
    rw [foundRows_concat]
    exact nodup_rowsAfter ih w

/-- No write but a resolution can be refused for want of its row, and each has its row. -/
def Drains (writes : List StoreWrite) : Prop :=
  ∀ ws w, ws ++ [w] <+: writes → (∀ minute, w ≠ .ledger minute) ∧
    ∀ hash resolution ts, w = .blockResolved hash resolution ts →
      ∃ r ∈ foundRows ws, r.hash = hash

theorem Drains.init {writes : List StoreWrite} {w : StoreWrite} (h : Drains (writes ++ [w])) :
    Drains writes :=
  fun ws v hinit => h ws v (hinit.trans (List.prefix_append _ _))

theorem Drains.concat {writes : List StoreWrite} (h : Drains writes) {w : StoreWrite}
    (hledger : ∀ minute, w ≠ .ledger minute)
    (hrow : ∀ hash resolution ts, w = .blockResolved hash resolution ts →
      ∃ r ∈ foundRows writes, r.hash = hash) : Drains (writes ++ [w]) := by
  intro ws v hinit
  rcases List.prefix_concat_iff.mp hinit with heq | hinit
  · obtain ⟨rfl, heq⟩ := List.append_inj' heq rfl
    obtain rfl : v = w := by simpa using heq
    exact ⟨hledger, hrow⟩
  · exact h ws v hinit

/-- Draining the queue leaves nothing parked and the rows its writes amount to. -/
theorem drained_foundBlocks (now : ℕ) {writes : List StoreWrite} (h : Drains writes) :
    let drained := (writer.process.run (startWriter (.create now)) (failureFree writes)).state
    drained.backlog = [] ∧ drained.store.db.foundBlocks = foundRows writes := by
  intro drained
  have hrun := Writer.applied_on_receipt (W := writer) (C := Healthy) (Q := Drains)
    (P := fun ins store => store.db.foundBlocks = foundRows ins) Drains.init ?_ rfl
    (meets_failureFree (startWriter (.create now)) writes) rfl (by rwa [received_failureFree])
  · rw [received_failureFree] at hrun
    exact ⟨hrun.1, hrun.2.2⟩
  · intro ins backlog w store f hf hdrains hP
    rcases ht : tryWrite w store f with ⟨_ | _, store', f'⟩
    · obtain ⟨hledger, hrow⟩ := hdrains ins w (List.prefix_refl _)
      obtain ⟨e, hrefused, he⟩ := refused_of_tryWrite ht
      have hne := he hf
      cases w with
      | ledger minute => exact absurd rfl (hledger minute)
      | blockResolved hash resolution ts =>
        obtain ⟨r, hr, hhash⟩ := hrow hash resolution ts rfl
        exact absurd hhash (hrefused.1.resolve_left hne r (hP ▸ hr))
      | flush => exact hrefused.elim
      | _ => exact absurd hrefused.1 hne
    · refine ⟨store', f', ht, ?_⟩
      rw [foundBlocks_of_applied (applied_of_tryWrite ht), hP, foundRows_concat]

/-! ## What the calls do -/

/-- The rows of the writes queued so far. -/
def rows (a : Accounts) : List FoundBlock := foundRows a.stats.writes

/-- The block of an outcome. -/
def blockOf (outcome : BlockSubmitOutcome) (height : ℕ) (worker payout hashHex : Str)
    (foundTs : ℕ) : PendingBlock :=
  { hash := hashHex, height, worker, payout, foundTs, wonAtSubmit := outcome.isWin }

/-- The triple of counts in memory. -/
def counts (s : PoolStats) : ℕ × ℕ × ℕ := (s.blocksFound, s.blocksOrphaned, s.blocksInconclusive)

/-- Enrolling a block that is not pending adds it to the pending blocks and to the queue. -/
theorem enrollPendingBlock_cases (s : PoolStats) (block : PendingBlock) :
    (s.isPending block.hash ∧ s.enrollPendingBlock block = s) ∨
      (¬ s.isPending block.hash ∧ s.enrollPendingBlock block =
        { s with
          pendingBlocks := s.pendingBlocks ++ [block]
          writes := s.writes ++ [.blockFound block] }) := by
  unfold PoolStats.enrollPendingBlock
  by_cases h : s.isPending block.hash
  · exact .inl ⟨h, if_pos h⟩
  · exact .inr ⟨h, if_neg h⟩

section Calls

variable (a : Accounts) (outcome : BlockSubmitOutcome) (height : ℕ) (worker payout hashHex : Str)
  (resetTs foundTs resolvedTs : ℕ) (block : PendingBlock) (resolution : BlockResolution)

/-- The statistics before the block of an outcome is enrolled: what was counted. -/
def counted : PoolStats :=
  if outcome.isWin then a.stats.blockFound resetTs else a.stats.blockInconclusive

theorem stats_recordBlockOutcome :
    (recordBlockOutcome a outcome height worker payout hashHex resetTs foundTs).stats =
      (counted a outcome resetTs).enrollPendingBlock
        (blockOf outcome height worker payout hashHex foundTs) := by
  unfold recordBlockOutcome counted blockOf
  by_cases hwin : outcome.isWin
  · simp only [if_pos hwin]
  · simp only [if_neg hwin]

theorem pendingBlocks_counted :
    (counted a outcome resetTs).pendingBlocks = a.stats.pendingBlocks := by
  unfold counted
  split <;> rfl

theorem isPending_counted (hash : Str) :
    (counted a outcome resetTs).isPending hash = a.stats.isPending hash := by
  rw [PoolStats.isPending, pendingBlocks_counted]
  rfl

/-- A win resets the round, which the table of the found blocks does not notice. -/
theorem foundRows_counted : foundRows (counted a outcome resetTs).writes = rows a := by
  unfold counted
  split
  · exact foundRows_concat _ _
  · rfl

theorem drains_counted (h : Drains a.stats.writes) : Drains (counted a outcome resetTs).writes := by
  unfold counted
  split
  · exact h.concat (by simp) (by simp)
  · exact h

theorem counts_counted : counts (counted a outcome resetTs) =
    if outcome.isWin then
      (a.stats.blocksFound + 1, a.stats.blocksOrphaned, a.stats.blocksInconclusive)
    else (a.stats.blocksFound, a.stats.blocksOrphaned, a.stats.blocksInconclusive + 1) := by
  unfold counted
  split <;> rfl

/-- What an outcome does: it is counted, and its block enrolled unless it is pending. -/
theorem recordBlockOutcome_cases :
    let a' := recordBlockOutcome a outcome height worker payout hashHex resetTs foundTs
    let block := blockOf outcome height worker payout hashHex foundTs
    a'.swept = a.swept ∧ counts a'.stats = counts (counted a outcome resetTs) ∧
      (Drains a.stats.writes → Drains a'.stats.writes) ∧
      ((a.stats.isPending hashHex ∧ a'.stats.pendingBlocks = a.stats.pendingBlocks ∧
          rows a' = rows a) ∨
        (¬ a.stats.isPending hashHex ∧ a'.stats.pendingBlocks = a.stats.pendingBlocks ++ [block] ∧
          rows a' = insertFoundBlock block (rows a))) := by
  intro a' block
  have hswept : a'.swept = a.swept := by
    change (recordBlockOutcome a outcome height worker payout hashHex resetTs foundTs).swept = _
    unfold recordBlockOutcome
    split <;> rfl
  have hstats : a'.stats = (counted a outcome resetTs).enrollPendingBlock block :=
    stats_recordBlockOutcome a outcome height worker payout hashHex resetTs foundTs
  have hpending := pendingBlocks_counted a outcome resetTs
  have hrows := foundRows_counted a outcome resetTs
  have hdrains := drains_counted a outcome resetTs
  rw [rows, hstats, ← isPending_counted a outcome resetTs hashHex]
  rcases enrollPendingBlock_cases (counted a outcome resetTs) block with ⟨hp, heq⟩ | ⟨hp, heq⟩
  · rw [heq]
    exact ⟨hswept, rfl, hdrains, .inl ⟨hp, hpending, hrows⟩⟩
  · rw [heq]
    refine ⟨hswept, rfl, fun h => (hdrains h).concat (by simp) (by simp),
      .inr ⟨hp, by rw [← hpending], ?_⟩⟩
    rw [foundRows_concat, hrows]
    rfl

/-- The counts once a block was decided. -/
def corrected (c : ℕ × ℕ × ℕ) (wonAtSubmit : Bool) (resolution : BlockResolution) : ℕ × ℕ × ℕ :=
  match wonAtSubmit, resolution with
  | true, .orphaned => (c.1 - 1, c.2.1 + 1, c.2.2)
  | false, .confirmed => (c.1 + 1, c.2.1, c.2.2 - 1)
  | _, _ => c

theorem correctVerdict_spec (s : PoolStats) (wonAtSubmit : Bool) :
    let s' := s.correctVerdict wonAtSubmit resolution resetTs
    s'.pendingBlocks = s.pendingBlocks ∧ foundRows s'.writes = foundRows s.writes ∧
      (Drains s.writes → Drains s'.writes) ∧
      counts s' = corrected (counts s) wonAtSubmit resolution := by
  unfold PoolStats.correctVerdict corrected
  cases wonAtSubmit <;> cases resolution <;>
    first
    | exact ⟨rfl, rfl, id, rfl⟩
    | exact ⟨rfl, foundRows_concat _ _, fun h => h.concat (by simp) (by simp), rfl⟩

/-- What a resolution does: nothing, or the block is retired and the counts are put right. -/
theorem recordBlockResolution_cases :
    let a' := recordBlockResolution a block resolution resetTs resolvedTs
    (¬ a.stats.isPending block.hash ∧ a' = a) ∨
      (a.stats.isPending block.hash ∧ a'.swept = a.swept ∧
        a'.metrics = a.metrics.blockResolved block.wonAtSubmit resolution ∧
        a'.stats.pendingBlocks = a.stats.pendingBlocks.filter (fun b => b.hash ≠ block.hash) ∧
        rows a' = (rows a).map (.resolve block.hash resolution resolvedTs) ∧
        counts a'.stats = corrected (counts a.stats) block.wonAtSubmit resolution ∧
        (Drains a.stats.writes → (∃ r ∈ rows a, r.hash = block.hash) →
          Drains a'.stats.writes)) := by
  unfold recordBlockResolution PoolStats.resolveBlock
  by_cases hp : a.stats.isPending block.hash
  · rw [if_pos hp]
    obtain ⟨hpending, hrows, hdrains, hcounts⟩ := correctVerdict_spec resetTs resolution
      { a.stats with
        pendingBlocks := a.stats.pendingBlocks.filter fun b => b.hash ≠ block.hash }
      block.wonAtSubmit
    refine .inr ⟨hp, rfl, rfl, hpending, ?_, hcounts, fun h hrow => ?_⟩
    · exact (foundRows_concat _ _).trans (congrArg (rowsAfter · _) hrows)
    · refine (hdrains h).concat (by simp) fun hash r t heq => ?_
      cases heq
      rw [hrows]
      exact hrow
  · rw [if_neg hp]
    exact .inl ⟨hp, rfl⟩

end Calls

/-! ## What holds of all calls -/

theorem reported_concat (past : List Call) (call : Call) :
    reported (past ++ [call]) = reported past ++ call.reported.toList := by
  cases h : call.reported <;> simp [reported, h]

theorem mem_reported_concat {past : List Call} {hash : Str} (call : Call)
    (h : hash ∈ reported past) : hash ∈ reported (past ++ [call]) := by
  rw [reported_concat]
  exact List.mem_append_left _ h

theorem isPending_iff {s : PoolStats} {hash : Str} :
    s.isPending hash ↔ ∃ b ∈ s.pendingBlocks, b.hash = hash := by
  simp [PoolStats.isPending]

/-- A pending block has its row, a row was reported, and every report was counted at least once. -/
structure Tracked (past : List Call) (a : Accounts) : Prop where
  drains : Drains a.stats.writes
  pending : ∀ b ∈ a.stats.pendingBlocks, ∃ r ∈ rows a, r.hash = b.hash
  nodup : (a.stats.pendingBlocks.map fun b => b.hash).Nodup
  rowsReported : ∀ r ∈ rows a, r.hash ∈ reported past
  reportsCounted : (reported past).length ≤
    (counts a.stats).1 + (counts a.stats).2.1 + (counts a.stats).2.2

theorem tracked_start (now wallNow : ℕ) : Tracked [] (start (.create now) wallNow) where
  drains ws w h := by
    have hnil := List.prefix_nil.mp h
    simp at hnil
  pending b hb := by cases hb
  nodup := List.nodup_nil
  rowsReported r hr := by cases hr
  reportsCounted := Nat.zero_le _

theorem mem_insertFoundBlock {block : PendingBlock} {rs : List FoundBlock} {r : FoundBlock}
    (h : r ∈ insertFoundBlock block rs) : r ∈ rs ∨ r.toPendingBlock = block := by
  rcases mem_upsert h with h | rfl | ⟨old, hold, -, rfl⟩
  · exact .inl h
  · exact .inr rfl
  · exact .inl hold

/-- After an insertion the old rows are there, and one of the block's hash. -/
theorem exists_mem_insertFoundBlock {block : PendingBlock} {rs : List FoundBlock} :
    (∀ r ∈ rs, r ∈ insertFoundBlock block rs) ∧
      ∃ r ∈ insertFoundBlock block rs, r.hash = block.hash := by
  rcases insertOrIgnore_cases (fun r : FoundBlock => r.hash) { block with resolved := none } rs
    with ⟨hmem, heq⟩ | ⟨-, heq⟩
  · obtain ⟨r, hr, hhash⟩ := List.mem_map.mp hmem
    rw [insertFoundBlock, heq]
    exact ⟨fun _ h => h, r, hr, hhash⟩
  · rw [insertFoundBlock, heq]
    exact ⟨fun _ h => List.mem_append_left _ h, _,
      List.mem_append_right _ (List.mem_singleton_self _), rfl⟩

section Step

variable {past : List Call} {a : Accounts}

theorem Tracked.outcome (h : Tracked past a) (outcome : BlockSubmitOutcome) (height : ℕ)
    (worker payout hashHex : Str) (resetTs foundTs : ℕ) :
    Tracked (past ++ [.outcome outcome height worker payout hashHex resetTs foundTs])
      (recordBlockOutcome a outcome height worker payout hashHex resetTs foundTs) := by
  obtain ⟨-, hcounts, hdrains, hblock⟩ :=
    recordBlockOutcome_cases a outcome height worker payout hashHex resetTs foundTs
  have hcounted : (reported past).length + 1 ≤ (counts (counted a outcome resetTs)).1 +
      (counts (counted a outcome resetTs)).2.1 + (counts (counted a outcome resetTs)).2.2 := by
    have hle := h.reportsCounted
    simp only [counts] at hle
    rw [counts_counted]
    split <;> dsimp only <;> omega
  have hlast : hashHex ∈ reported
      (past ++ [.outcome outcome height worker payout hashHex resetTs foundTs]) := by
    rw [reported_concat]
    exact List.mem_append_right _ (List.mem_singleton_self _)
  refine ⟨hdrains h.drains, ?_, ?_, ?_, ?_⟩
  · rcases hblock with ⟨-, hpending, hrows⟩ | ⟨-, hpending, hrows⟩
    · rw [hpending, hrows]
      exact h.pending
    · rw [hpending, hrows]
      intro b hb
      rcases List.mem_append.mp hb with hb | hb
      · obtain ⟨r, hr, hhash⟩ := h.pending b hb
        exact ⟨r, exists_mem_insertFoundBlock.1 r hr, hhash⟩
      · rw [List.mem_singleton.mp hb]
        exact exists_mem_insertFoundBlock.2
  · rcases hblock with ⟨-, hpending, -⟩ | ⟨hnew, hpending, -⟩
    · rw [hpending]
      exact h.nodup
    · rw [hpending, List.map_append, List.map_singleton, ← List.concat_eq_append]
      refine h.nodup.concat fun hmem => hnew (isPending_iff.mpr ?_)
      exact List.mem_map.mp hmem
  · intro r hr
    rcases hblock with ⟨-, -, hrows⟩ | ⟨-, -, hrows⟩ <;> rw [hrows] at hr
    · exact mem_reported_concat _ (h.rowsReported r hr)
    · rcases mem_insertFoundBlock hr with hr | hr
      · exact mem_reported_concat _ (h.rowsReported r hr)
      · exact (congrArg PendingBlock.hash hr) ▸ hlast
  · rw [hcounts, reported_concat, List.length_append]
    exact hcounted

theorem reported_quiet {call : Call} (hcall : call.reported = none) :
    reported (past ++ [call]) = reported past := by
  rw [reported_concat, hcall]
  exact List.append_nil _

/-- A call that leaves the statistics alone. -/
theorem Tracked.quiet (h : Tracked past a) {call : Call} (hcall : call.reported = none)
    {a' : Accounts} (hstats : a'.stats = a.stats) : Tracked (past ++ [call]) a' := by
  have hrows : rows a' = rows a := by rw [rows, rows, hstats]
  refine ⟨?_, ?_, ?_, ?_, ?_⟩ <;> simp only [hstats, hrows, reported_quiet hcall]
  · exact h.drains
  · exact h.pending
  · exact h.nodup
  · exact h.rowsReported
  · exact h.reportsCounted

theorem Tracked.resolution (h : Tracked past a) {call : Call} (hcall : call.reported = none)
    (block : PendingBlock) (resolution : BlockResolution) (resetTs resolvedTs : ℕ) :
    Tracked (past ++ [call]) (recordBlockResolution a block resolution resetTs resolvedTs) := by
  rcases recordBlockResolution_cases a resetTs resolvedTs block resolution with
    ⟨-, heq⟩ | ⟨hp, -, -, hpending, hrows, hcounts, hdrains⟩
  · exact h.quiet hcall (congrArg Accounts.stats heq)
  · obtain ⟨b, hb, hbhash⟩ := isPending_iff.mp hp
    refine ⟨hdrains h.drains ?_, ?_, ?_, ?_, ?_⟩
    · obtain ⟨r, hr, hhash⟩ := h.pending b hb
      exact ⟨r, hr, hhash.trans hbhash⟩
    · intro b hb
      rw [hpending] at hb
      obtain ⟨r, hr, hhash⟩ := h.pending b (List.mem_of_mem_filter hb)
      rw [hrows]
      exact ⟨_, List.mem_map_of_mem hr, (hash_resolve _ _ _ r).trans hhash⟩
    · rw [hpending]
      exact h.nodup.sublist (List.filter_sublist.map _)
    · intro r hr
      rw [hrows] at hr
      obtain ⟨r', hr', rfl⟩ := List.mem_map.mp hr
      rw [hash_resolve, reported_quiet hcall]
      exact h.rowsReported r' hr'
    · have hle := h.reportsCounted
      rw [hcounts, reported_quiet hcall]
      unfold corrected
      split
      · dsimp only
        omega
      · dsimp only
        omega
      · exact hle

/-- What a call does: an outcome is recorded, a block the pass has in hand is decided, or nothing
changes but what the pass has in hand. -/
theorem step_cases (a : Accounts) (call : Call) :
    (∃ o height worker payout hashHex resetTs foundTs,
      call = .outcome o height worker payout hashHex resetTs foundTs ∧
        step a call = recordBlockOutcome a o height worker payout hashHex resetTs foundTs) ∨
      (call.reported = none ∧ (step a call).stats = a.stats ∧
        (step a call).metrics = a.metrics ∧
        ∀ b ∈ (step a call).swept, b ∈ a.swept ∨ b ∈ a.stats.pendingBlocks) ∨
      (call.reported = none ∧ ∃ block ∈ a.swept, ∃ resolution resetTs resolvedTs,
        step a call = recordBlockResolution a block resolution resetTs resolvedTs) := by
  cases call with
  | outcome o height worker payout hashHex resetTs foundTs =>
    exact .inl ⟨o, height, worker, payout, hashHex, resetTs, foundTs, rfl, rfl⟩
  | sweep => exact .inr (.inl ⟨rfl, rfl, rfl, fun b hb => List.mem_append.mp hb⟩)
  | resolution index resolution resetTs resolvedTs =>
    cases hi : a.swept[index]? with
    | none =>
      have hstep : step a (.resolution index resolution resetTs resolvedTs) = a := by
        simp only [step, hi]
      exact .inr (.inl ⟨rfl, by rw [hstep], by rw [hstep], fun b hb => .inl (hstep ▸ hb)⟩)
    | some block =>
      refine .inr (.inr ⟨rfl, block, List.mem_of_getElem? hi, resolution, resetTs, resolvedTs, ?_⟩)
      simp only [step, hi]

theorem Tracked.step (h : Tracked past a) (call : Call) :
    Tracked (past ++ [call]) (step a call) := by
  rcases step_cases a call with ⟨o, height, worker, payout, hashHex, resetTs, foundTs, rfl, heq⟩ |
    ⟨hcall, hstats, -⟩ | ⟨hcall, block, -, resolution, resetTs, resolvedTs, heq⟩
  · rw [heq]
    exact h.outcome o height worker payout hashHex resetTs foundTs
  · exact h.quiet hcall hstats
  · rw [heq]
    exact h.resolution hcall block resolution resetTs resolvedTs

end Step

theorem tracked_run (now wallNow : ℕ) (calls : List Call) :
    Tracked calls (run (start (.create now) wallNow) calls) :=
  run_induction (tracked_start now wallNow) fun _ h => h.step _

/-! ## Blocks that are reported once -/

/-- The counts of a block as it was submitted. -/
def submitted (wonAtSubmit : Bool) : ℕ × ℕ × ℕ := if wonAtSubmit then (1, 0, 0) else (0, 0, 1)

theorem loadBlockCounts_pending {r : FoundBlock} (hr : r.resolved = none) :
    loadBlockCounts [r] = submitted r.wonAtSubmit := by
  obtain ⟨block, resolved⟩ := r
  obtain rfl : resolved = none := hr
  dsimp only
  cases hwon : block.wonAtSubmit <;>
    simp only [loadBlockCounts, submitted, hwon, FoundBlock.status, List.countP_singleton] <;> rfl

theorem loadBlockCounts_decided (r : FoundBlock) (resolution : BlockResolution) (ts : ℕ) :
    loadBlockCounts [{ r with resolved := some (resolution, ts) }] =
      corrected (submitted r.wonAtSubmit) r.wonAtSubmit resolution := by
  cases hwon : r.wonAtSubmit <;> cases resolution <;>
    simp only [loadBlockCounts, submitted, hwon, FoundBlock.status, List.countP_singleton] <;> rfl

theorem loadBlockCounts_append (rs rs' : List FoundBlock) :
    loadBlockCounts (rs ++ rs') = ((loadBlockCounts rs).1 + (loadBlockCounts rs').1,
      (loadBlockCounts rs).2.1 + (loadBlockCounts rs').2.1,
      (loadBlockCounts rs).2.2 + (loadBlockCounts rs').2.2) := by
  simp only [loadBlockCounts, List.countP_append]

/-- Each row is counted once. -/
theorem loadBlockCounts_sum (rs : List FoundBlock) :
    (loadBlockCounts rs).1 + (loadBlockCounts rs).2.1 + (loadBlockCounts rs).2.2 = rs.length := by
  induction rs with
  | nil => rfl
  | cons r rs ih =>
    have hrow : (loadBlockCounts [r]).1 + (loadBlockCounts [r]).2.1 + (loadBlockCounts [r]).2.2 =
        1 := by
      cases hr : r.resolved with
      | none =>
        rw [loadBlockCounts_pending hr]
        cases r.wonAtSubmit <;> rfl
      | some decided =>
        have hself : { r with resolved := some (decided.1, decided.2) } = r := by rw [← hr]
        rw [← hself, loadBlockCounts_decided]
        cases r.wonAtSubmit <;> cases decided.1 <;> rfl
    rw [← List.singleton_append, loadBlockCounts_append, List.length_append, List.length_singleton]
    dsimp only
    omega

/-- What memory holds is what the table holds. -/
structure Agrees (a : Accounts) : Prop where
  pending : a.stats.pendingBlocks = loadPendingBlocks (rows a)
  counts : counts a.stats = loadBlockCounts (rows a)
  swept : ∀ b ∈ a.swept, ∃ r ∈ rows a, r.toPendingBlock = b

theorem agrees_start (now wallNow : ℕ) : Agrees (start (.create now) wallNow) :=
  ⟨rfl, rfl, fun b hb => by cases hb⟩

theorem mem_loadPendingBlocks {rs : List FoundBlock} {b : PendingBlock}
    (h : b ∈ loadPendingBlocks rs) : ∃ r ∈ rs, r.resolved = none ∧ r.toPendingBlock = b := by
  obtain ⟨r, hr, rfl⟩ := List.mem_map.mp h
  exact ⟨r, List.mem_of_mem_filter hr, by simpa using List.of_mem_filter hr, rfl⟩

theorem loadPendingBlocks_append (rs rs' : List FoundBlock) :
    loadPendingBlocks (rs ++ rs') = loadPendingBlocks rs ++ loadPendingBlocks rs' := by
  rw [loadPendingBlocks, List.filter_append, List.map_append]
  rfl

/-- Rows of other hashes are not resolved. -/
theorem map_resolve_of_ne {rs : List FoundBlock} {hash : Str} (h : ∀ r ∈ rs, r.hash ≠ hash)
    (resolution : BlockResolution) (ts : ℕ) : rs.map (.resolve hash resolution ts) = rs := by
  refine (List.map_congr_left fun r hr => ?_).trans (List.map_id _)
  exact if_neg fun hp => h r hr hp.1

/-- The counts once the row of a block that was pending is resolved. -/
theorem loadBlockCounts_resolved {r : FoundBlock} (hr : r.resolved = none)
    (resolution : BlockResolution) (ts : ℕ) (rs rs' : List FoundBlock) :
    loadBlockCounts (rs ++ { r with resolved := some (resolution, ts) } :: rs') =
      corrected (loadBlockCounts (rs ++ r :: rs')) r.wonAtSubmit resolution := by
  rw [← List.singleton_append, ← List.singleton_append (l := rs'), loadBlockCounts_append,
    loadBlockCounts_append, loadBlockCounts_append rs, loadBlockCounts_append [r]]
  rw [loadBlockCounts_decided, loadBlockCounts_pending hr]
  generalize loadBlockCounts rs = c
  generalize loadBlockCounts rs' = c'
  cases r.wonAtSubmit <;> cases resolution <;>
    simp only [corrected, submitted, Prod.mk.injEq] <;> grind

section Agree

variable {past : List Call} {a : Accounts}

theorem Agrees.outcome (h : Agrees a) (ht : Tracked past a) (outcome : BlockSubmitOutcome)
    (height : ℕ) (worker payout hashHex : Str) (resetTs foundTs : ℕ)
    (hnew : hashHex ∉ reported past) :
    Agrees (recordBlockOutcome a outcome height worker payout hashHex resetTs foundTs) := by
  have hnotMem : hashHex ∉ (rows a).map fun r => r.hash := by
    intro hmem
    obtain ⟨r, hr, rfl⟩ := List.mem_map.mp hmem
    exact hnew (ht.rowsReported r hr)
  have hnotPending : ¬ a.stats.isPending hashHex := by
    intro hp
    obtain ⟨b, hb, rfl⟩ := isPending_iff.mp hp
    obtain ⟨r, hr, hhash⟩ := ht.pending b hb
    exact hnotMem (hhash ▸ List.mem_map_of_mem (f := fun r : FoundBlock => r.hash) hr)
  obtain ⟨hswept, hcounts, -, hblock⟩ :=
    recordBlockOutcome_cases a outcome height worker payout hashHex resetTs foundTs
  obtain ⟨-, hpending, hrows⟩ := hblock.resolve_left fun hp => hnotPending hp.1
  have hrows' : rows (recordBlockOutcome a outcome height worker payout hashHex resetTs foundTs) =
      rows a ++
        [{ blockOf outcome height worker payout hashHex foundTs with resolved := none }] := by
    rw [hrows]
    exact insertOrIgnore_of_notMem hnotMem
  refine ⟨?_, ?_, ?_⟩
  · rw [hpending, hrows', loadPendingBlocks_append, h.pending]
    rfl
  · have hc := h.counts
    rw [Accounting.counts] at hc
    rw [hcounts, hrows', loadBlockCounts_append, loadBlockCounts_pending rfl, ← hc, counts_counted]
    dsimp only [blockOf]
    cases outcome.isWin <;> rfl
  · rw [hswept, hrows']
    intro b hb
    obtain ⟨r, hr, hrb⟩ := h.swept b hb
    exact ⟨r, List.mem_append_left _ hr, hrb⟩

theorem Agrees.resolution (h : Agrees a) {block : PendingBlock} (hblock : block ∈ a.swept)
    (resolution : BlockResolution) (resetTs resolvedTs : ℕ) :
    Agrees (recordBlockResolution a block resolution resetTs resolvedTs) := by
  rcases recordBlockResolution_cases a resetTs resolvedTs block resolution with
    ⟨-, heq⟩ | ⟨hp, hswept, -, hpending, hrows, hcounts, -⟩
  · rw [heq]
    exact h
  · have hnodup : ((rows a).map fun r => r.hash).Nodup := nodup_foundRows _
    -- the block in hand is the one that is pending, and its row has no resolution
    obtain ⟨r, hr, hrb⟩ := h.swept block hblock
    have hnone : r.resolved = none := by
      obtain ⟨b, hb, hbhash⟩ := isPending_iff.mp hp
      rw [h.pending] at hb
      obtain ⟨r', hr', hnone, rfl⟩ := mem_loadPendingBlocks hb
      have hsame : r' = r := List.inj_on_of_nodup_map hnodup hr' hr
        (hbhash.trans (congrArg PendingBlock.hash hrb).symm)
      exact hsame ▸ hnone
    subst hrb
    obtain ⟨rs, rs', hsplit, hbefore, hafter⟩ := exists_split_of_nodup hnodup hr
    have hrows' : rows (recordBlockResolution a r.toPendingBlock resolution resetTs resolvedTs) =
        rs ++ { r with resolved := some (resolution, resolvedTs) } :: rs' := by
      rw [hrows, hsplit, List.map_append, List.map_cons, map_resolve_of_ne hbefore,
        map_resolve_of_ne hafter]
      congr 2
      exact if_pos ⟨rfl, hnone⟩
    refine ⟨?_, ?_, ?_⟩
    · have hfilter : ∀ qs : List FoundBlock, (∀ q ∈ qs, q.hash ≠ r.hash) →
          (loadPendingBlocks qs).filter (fun b => b.hash ≠ r.hash) = loadPendingBlocks qs := by
        intro qs hqs
        refine List.filter_eq_self.mpr fun b hb => ?_
        obtain ⟨q, hq, -, rfl⟩ := mem_loadPendingBlocks hb
        simpa using hqs q hq
      have hold : loadPendingBlocks (r :: rs') = r.toPendingBlock :: loadPendingBlocks rs' := by
        simp [loadPendingBlocks, hnone]
      have hnew : loadPendingBlocks
          ({ r with resolved := some (resolution, resolvedTs) } :: rs') =
            loadPendingBlocks rs' := by
        simp [loadPendingBlocks]
      rw [hpending, h.pending, hrows', hsplit, loadPendingBlocks_append, loadPendingBlocks_append,
        hold, hnew, List.filter_append, hfilter rs hbefore, List.filter_cons_of_neg (by simp),
        hfilter rs' hafter]
    · rw [hcounts, h.counts, hrows', hsplit, loadBlockCounts_resolved hnone]
    · rw [hswept, hrows]
      intro b hb
      obtain ⟨q, hq, rfl⟩ := h.swept b hb
      refine ⟨_, List.mem_map_of_mem hq, ?_⟩
      unfold FoundBlock.resolve
      split <;> rfl

theorem Agrees.step (h : Agrees a) (ht : Tracked past a) {call : Call}
    (hnodup : (reported (past ++ [call])).Nodup) : Agrees (step a call) := by
  rcases step_cases a call with ⟨o, height, worker, payout, hashHex, resetTs, foundTs, rfl, heq⟩ |
    ⟨-, hstats, -, hswept⟩ | ⟨-, block, hblock, resolution, resetTs, resolvedTs, heq⟩
  · rw [heq]
    refine h.outcome ht o height worker payout hashHex resetTs foundTs fun hmem => ?_
    rw [reported_concat] at hnodup
    exact List.disjoint_of_nodup_append hnodup hmem (List.mem_singleton_self _)
  · have hrows : rows (Accounting.step a call) = rows a := by rw [rows, rows, hstats]
    refine ⟨?_, ?_, fun b hb => ?_⟩
    · rw [hstats, hrows]
      exact h.pending
    · rw [hstats, hrows]
      exact h.counts
    · rw [hrows]
      rcases hswept b hb with hb | hb
      · exact h.swept b hb
      · rw [h.pending] at hb
        obtain ⟨r, hr, -, hrb⟩ := mem_loadPendingBlocks hb
        exact ⟨r, hr, hrb⟩
  · rw [heq]
    exact h.resolution hblock resolution resetTs resolvedTs

end Agree

theorem nodup_reported_of_past {past calls : List Call} (h : past <+: calls)
    (hnodup : (reported calls).Nodup) : (reported past).Nodup :=
  hnodup.sublist (h.sublist.filterMap _)

theorem agrees_run (now wallNow : ℕ) {calls : List Call} (h : (reported calls).Nodup) :
    Agrees (run (start (.create now) wallNow) calls) := by
  have hboth : Tracked calls (run (start (.create now) wallNow) calls) ∧
      Agrees (run (start (.create now) wallNow) calls) := by
    refine run_induction (P := fun past a => Tracked past a ∧ Agrees a)
      ⟨tracked_start now wallNow, agrees_start now wallNow⟩ ?_
    rintro past a call hinit ⟨ht, ha⟩
    exact ⟨ht.step call, ha.step ht (nodup_reported_of_past hinit h)⟩
  exact hboth.2

/-- The counts in memory are those the next process loads from the table, once the queue has been
drained, exactly when no block was reported twice. -/
theorem counts_persisted_iff (now wallNow : ℕ) (calls : List Call) :
    let s := (run (start (.create now) wallNow) calls).stats
    let drained := (writer.process.run (startWriter (.create now)) (failureFree s.writes)).state
    drained.backlog = [] ∧
      ((s.blocksFound, s.blocksOrphaned, s.blocksInconclusive) =
        loadBlockCounts drained.store.db.foundBlocks ↔ (reported calls).Nodup) := by
  intro s drained
  have ht := tracked_run now wallNow calls
  obtain ⟨hempty, hrows⟩ := drained_foundBlocks now ht.drains
  refine ⟨hempty, ?_⟩
  rw [show drained.store.db.foundBlocks = rows (run (start (.create now) wallNow) calls) from hrows]
  constructor
  · intro hcounts
    -- the rows are at least as many as the reports, and each is of a hash of its own
    have hsum := loadBlockCounts_sum (rows (run (start (.create now) wallNow) calls))
    rw [← hcounts] at hsum
    have hle : (reported calls).length ≤
        ((rows (run (start (.create now) wallNow) calls)).map fun r => r.hash).length := by
      rw [List.length_map, ← hsum]
      exact ht.reportsCounted
    have hnodup := nodup_foundRows s.writes
    have hsub : ((rows (run (start (.create now) wallNow) calls)).map fun r => r.hash).Subperm
        (reported calls) := by
      refine List.subperm_of_subset hnodup fun hash hmem => ?_
      obtain ⟨r, hr, rfl⟩ := List.mem_map.mp hmem
      exact ht.rowsReported r hr
    exact (hsub.perm_of_length_le hle).nodup_iff.mp hnodup
  · exact fun hnodup => (agrees_run now wallNow hnodup).counts

/-- The same block reported twice is counted twice in memory and has one row. -/
theorem counts_reported_twice :
    let report := Call.outcome .duplicate 101 "w".toList "w".toList "00".toList 7 7
    let s := (run (start (.create 0) 0) [report, report]).stats
    let drained := (writer.process.run (startWriter (.create 0)) (failureFree s.writes)).state
    (s.blocksFound, s.blocksOrphaned, s.blocksInconclusive) = (2, 0, 0) ∧
      loadBlockCounts drained.store.db.foundBlocks = (1, 0, 0) :=
  ⟨rfl, by decide +kernel⟩

/-! ## The partition of the blocks found -/

/-- The blocks decided, over all results. -/
def Metrics.confirmations (m : Metrics) : ℕ :=
  m.blockConfirmations BlockResolution.confirmed.label +
    m.blockConfirmations BlockResolution.orphaned.label +
    m.blockConfirmations BlockResolution.abandoned.label

/-- The blocks found are those decided and those pending. -/
def Partition (a : Accounts) : Prop :=
  a.metrics.blocksFound = a.metrics.confirmations + a.stats.pendingBlocks.length

instance (a : Accounts) : Decidable (Partition a) :=
  inferInstanceAs (Decidable (_ = _))

/-- The call reports no block that lost its height race. -/
def Call.wins : Call → Bool
  | .outcome o _ _ _ _ _ _ => o.isWin
  | _ => true

theorem confirmations_blockResolved (m : Metrics) (wonAtSubmit : Bool)
    (resolution : BlockResolution) :
    (m.blockResolved wonAtSubmit resolution).confirmations = m.confirmations + 1 := by
  cases wonAtSubmit <;> cases resolution <;>
    simp [Metrics.blockResolved, Metrics.confirmations, Metrics.blockConfirmation,
      Metrics.blockOrphaned, Metrics.blockFound, BlockResolution.label, Function.update] <;> omega

theorem blocksFound_blockResolved (m : Metrics) (resolution : BlockResolution) :
    (m.blockResolved true resolution).blocksFound = m.blocksFound := by
  cases resolution <;> rfl

theorem metrics_recordBlockOutcome (a : Accounts) (outcome : BlockSubmitOutcome) (height : ℕ)
    (worker payout hashHex : Str) (resetTs foundTs : ℕ) :
    let m := (recordBlockOutcome a outcome height worker payout hashHex resetTs foundTs).metrics
    m.blocksFound = a.metrics.blocksFound + (if outcome.isWin then 1 else 0) ∧
      m.confirmations = a.metrics.confirmations := by
  unfold recordBlockOutcome
  split <;> exact ⟨rfl, rfl⟩

/-- A pending block that is retired leaves one less. -/
theorem length_filter_pending {bs : List PendingBlock} (h : (bs.map fun b => b.hash).Nodup)
    {hash : Str} (hmem : ∃ b ∈ bs, b.hash = hash) :
    (bs.filter fun b => b.hash ≠ hash).length + 1 = bs.length := by
  obtain ⟨b, hb, rfl⟩ := hmem
  obtain ⟨before, after, rfl, hbefore, hafter⟩ := exists_split_of_nodup h hb
  rw [List.filter_append, List.filter_cons_of_neg (by simp),
    List.filter_eq_self.mpr fun q hq => by simpa using hbefore q hq,
    List.filter_eq_self.mpr fun q hq => by simpa using hafter q hq]
  simp only [List.length_append, List.length_cons]
  omega

/-- The partition, and the blocks at hand all won. -/
structure AllWon (a : Accounts) : Prop where
  partition : Partition a
  pending : ∀ b ∈ a.stats.pendingBlocks, b.wonAtSubmit
  swept : ∀ b ∈ a.swept, b.wonAtSubmit

section Won

variable {past : List Call} {a : Accounts}

theorem Tracked.not_isPending (ht : Tracked past a) {hash : Str} (hnew : hash ∉ reported past) :
    ¬ a.stats.isPending hash := by
  intro hp
  obtain ⟨b, hb, rfl⟩ := isPending_iff.mp hp
  obtain ⟨r, hr, hhash⟩ := ht.pending b hb
  exact hnew (hhash ▸ ht.rowsReported r hr)

/-- An outcome for a new hash is counted as found if it is a win, and is pending either way. -/
theorem partition_outcome (ht : Tracked past a) (hP : Partition a) (outcome : BlockSubmitOutcome)
    (height : ℕ) (worker payout hashHex : Str) (resetTs foundTs : ℕ)
    (hnew : hashHex ∉ reported past) :
    Partition (recordBlockOutcome a outcome height worker payout hashHex resetTs foundTs) ↔
      outcome.isWin := by
  obtain ⟨hfound, hconfirmed⟩ :=
    metrics_recordBlockOutcome a outcome height worker payout hashHex resetTs foundTs
  obtain ⟨-, -, -, hblock⟩ :=
    recordBlockOutcome_cases a outcome height worker payout hashHex resetTs foundTs
  obtain ⟨-, hpending, -⟩ := hblock.resolve_left fun hp => ht.not_isPending hnew hp.1
  unfold Partition at hP ⊢
  rw [hfound, hconfirmed, hpending, hP, List.length_append, List.length_singleton]
  cases outcome.isWin <;> simp [Nat.add_assoc]

theorem AllWon.resolution (h : AllWon a) (ht : Tracked past a) {block : PendingBlock}
    (hblock : block ∈ a.swept) (resolution : BlockResolution) (resetTs resolvedTs : ℕ) :
    AllWon (recordBlockResolution a block resolution resetTs resolvedTs) := by
  rcases recordBlockResolution_cases a resetTs resolvedTs block resolution with
    ⟨-, heq⟩ | ⟨hp, hswept, hmetrics, hpending, -⟩
  · rw [heq]
    exact h
  · refine ⟨?_, ?_, hswept ▸ h.swept⟩
    · have hlen := length_filter_pending ht.nodup (isPending_iff.mp hp)
      have hP := h.partition
      unfold Partition at hP ⊢
      rw [hmetrics, h.swept block hblock, blocksFound_blockResolved, confirmations_blockResolved,
        hpending]
      omega
    · rw [hpending]
      exact fun b hb => h.pending b (List.mem_of_mem_filter hb)

theorem AllWon.step (h : AllWon a) (ht : Tracked past a) {call : Call} (hwins : call.wins)
    (hnodup : (reported (past ++ [call])).Nodup) : AllWon (step a call) := by
  rcases step_cases a call with ⟨o, height, worker, payout, hashHex, resetTs, foundTs, rfl, heq⟩ |
    ⟨-, hstats, hmetrics, hswept⟩ | ⟨-, block, hblock, resolution, resetTs, resolvedTs, heq⟩
  · rw [heq]
    have hnew : hashHex ∉ reported past := fun hmem => by
      rw [reported_concat] at hnodup
      exact List.disjoint_of_nodup_append hnodup hmem (List.mem_singleton_self _)
    obtain ⟨hswept, -, -, hblock⟩ :=
      recordBlockOutcome_cases a o height worker payout hashHex resetTs foundTs
    obtain ⟨-, hpending, -⟩ := hblock.resolve_left fun hp => ht.not_isPending hnew hp.1
    refine ⟨(partition_outcome ht h.partition o height worker payout hashHex resetTs foundTs
      hnew).mpr hwins, ?_, hswept ▸ h.swept⟩
    rw [hpending]
    intro b hb
    rcases List.mem_append.mp hb with hb | hb
    · exact h.pending b hb
    · rw [List.mem_singleton.mp hb]
      exact hwins
  · refine ⟨?_, hstats ▸ h.pending, fun b hb => ?_⟩
    · rw [Partition, hstats, hmetrics]
      exact h.partition
    · rcases hswept b hb with hb | hb
      · exact h.swept b hb
      · exact h.pending b hb
  · rw [heq]
    exact h.resolution ht hblock resolution resetTs resolvedTs

end Won

/-- Where every block is reported once, the partition holds after every call exactly when every
block reported won its height. -/
theorem partition_iff (now wallNow : ℕ) {calls : List Call} (h : (reported calls).Nodup) :
    (∀ past, past <+: calls → Partition (run (start (.create now) wallNow) past)) ↔
      ∀ call ∈ calls, call.wins := by
  constructor
  · intro hP call hcall
    obtain ⟨before, after, rfl⟩ := List.append_of_mem hcall
    have hinit : before ++ [call] <+: before ++ call :: after := ⟨after, by simp⟩
    cases call with
    | outcome o height worker payout hashHex resetTs foundTs =>
      have hnew : hashHex ∉ reported before := fun hmem => by
        have hnodup := nodup_reported_of_past hinit h
        rw [reported_concat] at hnodup
        exact List.disjoint_of_nodup_append hnodup hmem (List.mem_singleton_self _)
      have hafter := hP _ hinit
      rw [run, List.foldl_append] at hafter
      exact (partition_outcome (tracked_run now wallNow before)
        (hP before ((List.prefix_append _ _).trans hinit)) o height worker payout hashHex resetTs
        foundTs hnew).mp hafter
    | _ => rfl
  · intro hwins past hpast
    have hboth : Tracked past (run (start (.create now) wallNow) past) ∧
        AllWon (run (start (.create now) wallNow) past) := by
      refine run_induction (P := fun past a => Tracked past a ∧ AllWon a)
        ⟨tracked_start now wallNow, rfl, fun b hb => (by cases hb), fun b hb => (by cases hb)⟩ ?_
      rintro past' a call hinit ⟨ht, ha⟩
      have hcalls := hinit.trans hpast
      exact ⟨ht.step call, ha.step ht (hwins call (hcalls.subset (by simp)))
        (nodup_reported_of_past hcalls h)⟩
    exact hboth.2.partition

theorem partition_iff_regtest :
    let report := Call.outcome .accepted 101 "w".toList "w".toList "00".toList 7 7
    let calls := [report, .sweep, .resolution 0 .orphaned 9 9]
    Partition (run (start (.create 0) 0) calls) := by
  intro report calls
  have hnodup : (reported calls).Nodup := by decide
  exact (partition_iff 0 0 hnodup).mpr (by decide) calls (List.prefix_refl _)

/-- A block that lost its height race is pending and was not counted as found. -/
theorem partition_inconclusive :
    let report := Call.outcome .inconclusive 101 "w".toList "w".toList "00".toList 7 7
    (reported [report]).Nodup ∧ ¬ Partition (run (start (.create 0) 0) [report]) :=
  ⟨by decide, by decide⟩

end BtcPool.Accounting
