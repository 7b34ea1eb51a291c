import BtcPool.Stats.PoolStats

/-!
# The totals of a round

A round has a total of each of several quantities (`Quantity`): shares accepted, shares rejected,
work, and rejects by reason. They are kept in memory, carried by snapshots and merged into the
tables, so that most statements are about one quantity at a time.

What the writes amount to for the round is a function of the tables (`RoundView`): applying a write
takes the view of the store to the view after the write (`view_of_applied`), and a loop that meets
no failure takes it through all of them (`view_of_failureFree`). Minutes of the ledger and
resolutions of blocks, which can be refused for reasons of their own, leave the view alone.
-/

namespace BtcPool.Stats

open Rows Sqlite RetryQueue

/-- What a round keeps totals of. -/
inductive Quantity
  | accepted
  | rejected
  | work
  | reason (reason : RejectReason)
  deriving DecidableEq

/-- A share, with what it is worth to the round. -/
inductive Share
  | accepted (credit : ℕ)
  | rejected (reason : RejectReason)
  deriving DecidableEq

/-- How much a share adds to a quantity. -/
def Share.amount : Share → Quantity → ℕ
  | .accepted _, .accepted => 1
  | .accepted credit, .work => credit
  | .rejected _, .rejected => 1
  | .rejected reason, .reason reason' => if reason' = reason then 1 else 0
  | _, _ => 0

/-- The total of a quantity in the tables. -/
def RoundTables.total (round : RoundTables) : Quantity → ℕ
  | .accepted => round.stats.sharesAccepted
  | .rejected => round.stats.sharesRejected
  | .work => round.stats.work
  | .reason reason => round.rejectReasons reason

/-- The total of a quantity in a snapshot. -/
def SnapshotWrite.total (snapshot : SnapshotWrite) : Quantity → ℕ
  | .accepted => snapshot.shareTotals.accepted
  | .rejected => snapshot.shareTotals.rejected
  | .work => snapshot.roundWork
  | .reason reason => snapshot.roundRejectReasons reason

theorem total_begun (sinceTs : ℕ) (q : Quantity) : (RoundTables.begun sinceTs).total q = 0 := by
  cases q <;> rfl

theorem total_merge (round : RoundTables) (snapshot : SnapshotWrite) (q : Quantity) :
    (round.merge snapshot).total q = max (round.total q) (snapshot.total q) := by
  cases q <;> rfl

/-! ## In memory -/

namespace PoolStats

/-- What was recorded of a quantity, before the offset of the round is taken off. -/
def recorded (s : PoolStats) : Quantity → ℕ
  | .accepted => s.roundAcceptedBase + s.sharesAccepted
  | .rejected => s.roundRejectedBase + s.sharesRejected
  | .work => s.roundWork
  | .reason reason => s.roundRejectReasonsBase reason + s.rejectReasons reason

/-- What was recorded of a quantity when the round began; the work is counted from zero. -/
def offset (s : PoolStats) : Quantity → ℕ
  | .accepted => s.roundOffsetAccepted
  | .rejected => s.roundOffsetRejected
  | .work => 0
  | .reason reason => s.roundOffsetRejectReasons reason

/-- The total of a quantity in the round. -/
def roundTotal (s : PoolStats) (q : Quantity) : ℕ := s.recorded q - s.offset q

theorem total_snapshotWrite (s : PoolStats) (q : Quantity) :
    s.snapshotWrite.total q = s.roundTotal q := by
  cases q <;> rfl

theorem recorded_shareRejected (s : PoolStats) (reason : RejectReason) (q : Quantity) :
    (s.shareRejected reason).recorded q = s.recorded q + (Share.rejected reason).amount q := by
  cases q with
  | reason reason' =>
    by_cases h : reason' = reason
    · subst h
      simp [recorded, shareRejected, Share.amount, Nat.add_assoc]
    · simp [recorded, shareRejected, Share.amount, h]
  | _ => rfl

/-- A round that was just reset has recorded nothing. -/
theorem recorded_roundReset (s : PoolStats) (now : ℕ) (q : Quantity) :
    (s.roundReset now).recorded q = (s.roundReset now).offset q := by
  cases q <;> rfl

end PoolStats

/-! ## In the tables -/

/-- What the tables hold about the round, the epoch of the last reset, and the blocks found. -/
structure RoundView where
  total : Quantity → ℕ
  sinceTs : ℕ
  epoch : ℕ
  blocks : List PendingBlock

/-- The view after a write. -/
def RoundView.after (v : RoundView) : StoreWrite → RoundView
  | .roundReset epoch sinceTs =>
    { v with total := fun _ => 0, sinceTs, epoch := max v.epoch epoch }
  | .snapshot snapshot =>
    if snapshot.roundEpoch = v.epoch then
      { v with total := fun q => max (v.total q) (snapshot.total q) }
    else v
  | .blockFound block => { v with blocks := insertOrIgnore PendingBlock.hash block v.blocks }
  | _ => v

/-- What a store holds about the round. -/
def view (store : Store) : RoundView where
  total := store.db.round.total
  sinceTs := store.db.round.stats.sinceTs
  epoch := store.state.roundEpoch
  blocks := store.db.foundBlocks.map FoundBlock.toPendingBlock

theorem map_toPendingBlock_insertFoundBlock (block : PendingBlock) (rows : List FoundBlock) :
    (insertFoundBlock block rows).map FoundBlock.toPendingBlock =
      insertOrIgnore PendingBlock.hash block (rows.map FoundBlock.toPendingBlock) := by
  unfold insertFoundBlock insertOrIgnore
  induction rows with
  | nil => rfl
  | cons r rows ih =>
    rw [List.map_cons, upsert, upsert]
    split
    · rfl
    · exact congrArg (r.toPendingBlock :: ·) ih

theorem toPendingBlock_resolve (hash : Str) (resolution : BlockResolution) (ts : ℕ)
    (r : FoundBlock) : (r.resolve hash resolution ts).toPendingBlock = r.toPendingBlock := by
  unfold FoundBlock.resolve
  split <;> rfl

theorem view_of_applied {store store' : Store} {write : StoreWrite}
    (h : Applied store.db store.state store'.db store'.state write) :
    view store' = (view store).after write := by
  cases write with
  | bestShare d =>
    simp only [view, h.1, h.2, RoundTables.raiseBestShare, RoundView.after]
    split <;> rfl
  | bestHashrate d =>
    simp only [view, h.1, h.2, RoundTables.raiseBestHashrate, RoundView.after]
    split <;> rfl
  | workerBestShare w d => simp only [view, h.1, h.2]; rfl
  | snapshot snapshot =>
    obtain ⟨hdb, hstate⟩ := h
    by_cases he : snapshot.roundEpoch = store.state.roundEpoch
    · rw [if_pos he] at hdb
      rw [RoundView.after, if_pos (show snapshot.roundEpoch = (view store).epoch from he), view,
        hdb, hstate, show (store.db.round.merge snapshot).total =
          fun q => max (store.db.round.total q) (snapshot.total q) from
          funext fun q => total_merge _ _ q]
      rfl
    · rw [if_neg he] at hdb
      rw [RoundView.after, if_neg (show ¬ snapshot.roundEpoch = (view store).epoch from he), view,
        hdb, hstate]
      rfl
  | ledger m =>
    obtain ⟨⟨ledger, hdb⟩, hstate⟩ := h
    simp only [view, hdb, hstate]
    rfl
  | roundReset e t =>
    simp only [view, h.1, h.2, RoundView.after, RoundView.mk.injEq, and_true]
    exact ⟨funext fun q => total_begun t q, rfl⟩
  | pruneWorkerBestShares k =>
    obtain ⟨hdb, hstate⟩ := h
    rcases hdb with hdb | hdb <;> simp only [view, hdb, hstate] <;> rfl
  | blockFound b =>
    simp only [view, h.1, h.2, map_toPendingBlock_insertFoundBlock]
    rfl
  | blockResolved hash r t =>
    simp only [view, h.2.1, h.2.2, List.map_map, Function.comp_def, toPendingBlock_resolve]
    rfl
  | flush => simp only [view, h.1, h.2]; rfl

/-! ## A loop that meets no failure -/

/-- The writes that can be refused without a failure of the disk. -/
def isQuiet : StoreWrite → Bool
  | .ledger _ | .blockResolved .. => true
  | _ => false

theorem after_of_isQuiet {write : StoreWrite} (hw : isQuiet write) (v : RoundView) :
    v.after write = v := by
  cases write <;> first | rfl | cases hw

section Refused

variable {store store' : Store} {write : StoreWrite} {faults faults' : List Bool}

theorem view_of_refused (hw : isQuiet write)
    (h : tryWrite write store faults = (false, store', faults')) : view store' = view store := by
  have hd : isDurable write := by cases write <;> first | rfl | cases hw
  obtain ⟨hdb, hepoch⟩ := db_of_failed hd h
  rw [view, view, hdb, hepoch]

theorem isQuiet_of_refused (hf : true ∉ faults)
    (h : tryWrite write store faults = (false, store', faults')) : isQuiet write := by
  obtain ⟨e, hrefused, he⟩ := refused_of_tryWrite h
  cases write with
  | ledger _ => rfl
  | blockResolved _ _ _ => rfl
  | flush => exact hrefused.elim
  | _ => exact absurd hrefused.1 (he hf)

end Refused

/-- Without failures the writes are applied in the order of the queue, as far as the round can
tell. -/
theorem view_of_failureFree (db : Database) (writes : List StoreWrite) :
    view (writer.process.run (startWriter db) (failureFree writes)).state.store =
      writes.foldl RoundView.after (view ⟨db, .default⟩) := by
  have hrule : writer.Rule Healthy fun ins _ backlog store =>
      view store = ins.foldl RoundView.after (view ⟨db, .default⟩) ∧
        ∀ w ∈ backlog, isQuiet w := by
    refine ⟨?_, ?_, ?_, ?_, ?_⟩
    · rintro ins outs w rest store f store' f' ⟨hview, hquiet⟩ ht
      refine ⟨?_, fun v hv => hquiet v (by simp [hv])⟩
      rw [view_of_applied (applied_of_tryWrite ht), after_of_isQuiet (hquiet w (by simp)), hview]
    · rintro ins outs w rest store f store' f' ⟨hview, hquiet⟩ ht
      exact ⟨(view_of_refused (hquiet w (by simp)) ht).trans hview, hquiet⟩
    · rintro ins outs w backlog store f store' f' - ⟨hview, hquiet⟩ ht
      rw [List.foldl_append, ← hview]
      exact ⟨view_of_applied (applied_of_tryWrite ht), hquiet⟩
    · rintro ins outs w backlog store f store' f' hf ⟨hview, hquiet⟩ ht -
      have hw := isQuiet_of_refused hf ht
      rw [List.foldl_append, ← hview]
      refine ⟨(view_of_refused hw ht).trans (after_of_isQuiet hw _).symm, fun v hv => ?_⟩
      rcases List.mem_append.mp hv with hv | hv
      · split at hv
        · exact hquiet v (List.mem_of_mem_tail hv)
        · exact hquiet v hv
      · rw [List.mem_singleton.mp hv]
        exact hw
    · rintro ins outs w backlog store f store' f' hf - ht hd
      have hw := isQuiet_of_refused hf ht
      exact absurd (by cases w <;> first | rfl | cases hw) hd
  have h := (hrule.run (meets_failureFree (startWriter db) writes) ⟨rfl, by simp [startWriter]⟩).1
  rwa [received_failureFree] at h

/-! ## Opening the file -/

/-- The file as it is once it was opened, without a failure. -/
def opened (db : Database) : Database := (openStore.run ⟨db, .default, []⟩).2.db

theorem lastWin_eq_none {rows : List FoundBlock} (h : lastWin rows = none) :
    ∀ r ∈ rows, ¬ r.wonAtSubmit := by
  rw [lastWin, List.max?_eq_none_iff, List.map_eq_nil_iff, List.filter_eq_nil_iff] at h
  exact h

theorem lastWin_eq_some {rows : List FoundBlock} {winTs : ℕ} (h : lastWin rows = some winTs) :
    (∃ win ∈ rows, win.wonAtSubmit ∧ win.foundTs = winTs) ∧
      ∀ r ∈ rows, r.wonAtSubmit → r.foundTs ≤ winTs := by
  obtain ⟨hmem, hmax⟩ := List.max?_eq_some_iff.mp h
  obtain ⟨win, hwin, hts⟩ := List.mem_map.mp hmem
  obtain ⟨hrow, hwon⟩ := List.mem_filter.mp hwin
  refine ⟨⟨win, hrow, hwon, hts⟩, fun r hr hwon => hmax _ ?_⟩
  exact List.mem_map.mpr ⟨r, List.mem_filter.mpr ⟨hr, hwon⟩, rfl⟩

/-- What opening a file does to its round: nothing if no win is later than the start of the round,
and otherwise it lets the round begin anew at the last win. -/
inductive Reconciled (db : Database) (total : Quantity → ℕ) (sinceTs : ℕ) : Prop
  | kept (hwins : ∀ r ∈ db.foundBlocks, r.wonAtSubmit → r.foundTs ≤ db.round.stats.sinceTs)
      (htotal : total = db.round.total) (hsince : sinceTs = db.round.stats.sinceTs)
  | reset {win : FoundBlock} (hmem : win ∈ db.foundBlocks) (hwon : win.wonAtSubmit)
      (hlate : db.round.stats.sinceTs < win.foundTs)
      (hlast : ∀ r ∈ db.foundBlocks, r.wonAtSubmit → r.foundTs ≤ win.foundTs)
      (htotal : total = fun _ => 0) (hsince : sinceTs = win.foundTs)

/-- An opened file holds no win later than the start of its round. -/
theorem Reconciled.wins {db : Database} {total : Quantity → ℕ} {sinceTs : ℕ}
    (h : Reconciled db total sinceTs) :
    ∀ r ∈ db.foundBlocks, r.wonAtSubmit → r.foundTs ≤ sinceTs := by
  cases h with
  | kept hwins _ hsince => exact hsince ▸ hwins
  | reset _ _ _ hlast _ hsince => exact hsince ▸ hlast

/-- The round of an opened file begins when it did before or when a block was won. -/
theorem Reconciled.since {db : Database} {total : Quantity → ℕ} {sinceTs : ℕ}
    (h : Reconciled db total sinceTs) :
    sinceTs = db.round.stats.sinceTs ∨
      ∃ win ∈ db.foundBlocks, win.wonAtSubmit ∧ sinceTs = win.foundTs := by
  cases h with
  | kept _ _ hsince => exact .inl hsince
  | @reset win hmem hwon _ _ _ hsince => exact .inr ⟨win, hmem, hwon, hsince⟩

theorem reconcileRound_ends (db : Database) :
    (reconcileRound (lastWin db.foundBlocks) db.round.stats.sinceTs).Ends db WriterState.default
      (fun _ db' _ => Reconciled db db'.round.total db'.round.stats.sinceTs ∧
        db'.foundBlocks = db.foundBlocks)
      (fun e _ _ => e = .failure) := by
  unfold reconcileRound
  cases hlast : lastWin db.foundBlocks with
  | none =>
    refine .pure ⟨.kept (fun r hr hwon => ?_) rfl rfl, rfl⟩
    exact absurd hwon (lastWin_eq_none hlast r hr)
  | some winTs =>
    obtain ⟨⟨win, hmem, hwon, rfl⟩, hmax⟩ := lastWin_eq_some hlast
    dsimp only
    split
    · rename_i hlate
      refine (applyRoundReset_ends win.foundTs).mono ?_ fun _ _ _ h => h.1
      rintro _ _ _ ⟨rfl, -⟩
      exact ⟨.reset hmem hwon hlate hmax (funext (total_begun win.foundTs)) rfl, rfl⟩
    · rename_i hearly
      exact .pure ⟨.kept (fun r hr h => (hmax r hr h).trans (by omega)) rfl rfl, rfl⟩

/-- Opening a file reconciles its round with the wins, and the worker rows it prunes are not part of
the totals. -/
theorem reconciled_opened (db : Database) :
    Reconciled db (opened db).round.total (opened db).round.stats.sinceTs ∧
      (opened db).foundBlocks = db.foundBlocks := by
  have hopen : openStore.Ends db .default
      (fun _ db' _ => Reconciled db db'.round.total db'.round.stats.sinceTs ∧
        db'.foundBlocks = db.foundBlocks)
      (fun e _ _ => e = .failure) := by
    refine .bind (.query rfl (.bind (.query rfl (.bind ?_))))
    refine (reconcileRound_ends db).mono ?_ fun _ _ _ he => he
    intro _ db' _ h
    exact .ignore (.execute h h)
  have hmet := hopen []
  have hne := openStore.ne_failure (c := ⟨db, .default, []⟩) List.not_mem_nil
  unfold opened
  rcases hrun : openStore.run ⟨db, .default, []⟩ with ⟨e | a, c⟩ <;> rw [hrun] at hmet hne
  · exact absurd (congrArg Except.error hmet) hne
  · exact hmet

end BtcPool.Stats
