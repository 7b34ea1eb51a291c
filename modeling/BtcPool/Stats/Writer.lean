import BtcPool.Foundations.RetryQueue
import BtcPool.Stats.Store

/-!
# The writer thread

The writer owns the write connection and applies what it receives one write at a time, parking the
durable ones that fail. Its loop makes a pass over the backlog before each write it receives and
whenever none has come for a while (`Turn.events`); the two halves, `retry_backlog` and
`handle_write`, are the events of the writer as a process.

What a write does to the tables is said once, in `applyWrite_ends`: `Applied` where it succeeds,
`Refused` where it fails. A durable write that fails has changed nothing; a snapshot that fails
after its transaction was committed has been merged all the same.
-/

namespace BtcPool.Stats

open Rows Sqlite RetryQueue

/-! ## What a write does -/

/-- What a write that succeeded did. -/
def Applied (db : Database) (state : WriterState) (db' : Database) (state' : WriterState) :
    StoreWrite → Prop
  | .bestShare difficulty =>
    db' = { db with round := db.round.raiseBestShare difficulty } ∧ state' = state
  | .bestHashrate hps => db' = { db with round := db.round.raiseBestHashrate hps } ∧ state' = state
  | .workerBestShare worker difficulty =>
    db' = { db with round := db.round.raiseWorkerBestShare worker difficulty } ∧ state' = state
  | .pruneWorkerBestShares keep =>
    (db' = db ∨ db' = { db with round := db.round.pruneWorkerBestShares keep }) ∧ state' = state
  | .blockFound block =>
    db' = { db with foundBlocks := insertFoundBlock block db.foundBlocks } ∧ state' = state
  | .blockResolved hash resolution resolvedTs =>
    (∃ r ∈ db.foundBlocks, r.hash = hash) ∧
      db' = { db with foundBlocks := db.foundBlocks.map (.resolve hash resolution resolvedTs) } ∧
      state' = state
  | .snapshot snapshot =>
    db' = (if snapshot.roundEpoch = state.roundEpoch then
      { db with round := db.round.merge snapshot } else db) ∧ state' = state
  | .ledger _ => (∃ ledger, db' = { db with ledger }) ∧ state'.roundEpoch = state.roundEpoch
  | .roundReset epoch sinceTs =>
    db' = { db with round := .begun sinceTs } ∧
      state' = { state with roundEpoch := max state.roundEpoch epoch }
  | .flush => db' = db ∧ state' = state

/-- What a write that failed did, and with which errors it can fail. -/
def Refused (db : Database) (state : WriterState) (e : Error) (db' : Database)
    (state' : WriterState) : StoreWrite → Prop
  | .snapshot snapshot =>
    e = .failure ∧ (db' = db ∨ (snapshot.roundEpoch = state.roundEpoch ∧
      db' = { db with round := db.round.merge snapshot })) ∧ state' = state
  | .blockResolved hash _ _ =>
    (e = .failure ∨ ∀ r ∈ db.foundBlocks, r.hash ≠ hash) ∧ db' = db ∧ state' = state
  | .ledger _ => db' = db ∧ state'.roundEpoch = state.roundEpoch
  | .flush => False
  | _ => e = .failure ∧ db' = db ∧ state' = state

variable {db : Database} {state : WriterState}

theorem onRound_ends {f : RoundTables → RoundTables} {Q : Unit → Database → WriterState → Prop}
    {E : Error → Database → WriterState → Prop} (hfail : E .failure db state)
    (hok : Q () { db with round := f db.round } state) : (onRound f).Ends db state Q E :=
  .execute hfail hok

theorem applyRoundReset_ends (sinceTs : ℕ) :
    (applyRoundReset sinceTs).Ends db state
      (fun _ db' state' => db' = { db with round := .begun sinceTs } ∧ state' = state)
      (fun e db' state' => e = .failure ∧ db' = db ∧ state' = state) := by
  refine .transaction ⟨rfl, rfl, rfl⟩ (.bind (onRound_ends ⟨rfl, rfl, rfl⟩ ?_))
  refine .bind (onRound_ends ⟨rfl, rfl, rfl⟩ (onRound_ends ⟨rfl, rfl, rfl⟩ ?_))
  exact ⟨⟨rfl, rfl⟩, rfl, rfl, rfl⟩

theorem mergeSnapshot_ends (snapshot : SnapshotWrite) {staleRound : Bool}
    {Q : Unit → Database → WriterState → Prop} {E : Error → Database → WriterState → Prop}
    (hfail : ∀ round, E .failure { db with round } state)
    (hok : Q () (if staleRound then db else { db with round := db.round.merge snapshot }) state) :
    (mergeSnapshot snapshot staleRound).Ends db state Q E := by
  unfold mergeSnapshot
  cases staleRound with
  | true => exact .pure hok
  | false => exact .bind (onRound_ends (hfail _) (onRound_ends (hfail _) hok))

/-- The round's tables after the transaction of a snapshot. -/
theorem commitSnapshot_ends (snapshot : SnapshotWrite) (staleRound : Bool) :
    (commitSnapshot snapshot staleRound).Ends db state
      (fun _ db' state' => db' = (if staleRound then db else
        { db with round := db.round.merge snapshot }) ∧ state' = state)
      (fun e db' state' => e = .failure ∧ db' = db ∧ state' = state) := by
  refine .transaction ⟨rfl, rfl, rfl⟩ (.bind (.touch ⟨rfl, rfl, rfl⟩ ?_))
  refine .bind (.touch ⟨rfl, rfl, rfl⟩ (.bind (.touch ⟨rfl, rfl, rfl⟩ ?_)))
  refine .bind (mergeSnapshot_ends snapshot (fun _ => ⟨rfl, rfl, rfl⟩) ?_)
  refine .bind (.touch ⟨rfl, rfl, rfl⟩ (.touch ⟨rfl, rfl, rfl⟩ ?_))
  exact ⟨⟨rfl, rfl⟩, rfl, rfl, rfl⟩

theorem snapshot_ends (snapshot : SnapshotWrite) :
    (applyWrite (.snapshot snapshot)).Ends db state
      (fun _ db' state' => Applied db state db' state' (.snapshot snapshot))
      (fun e db' state' => Refused db state e db' state' (.snapshot snapshot)) := by
  refine .bind (.readMemory (.bind ?_))
  have hmerged : (if decide (snapshot.roundEpoch ≠ state.roundEpoch) then db else
        { db with round := db.round.merge snapshot }) =
      if snapshot.roundEpoch = state.roundEpoch then
        { db with round := db.round.merge snapshot } else db := by
    by_cases h : snapshot.roundEpoch = state.roundEpoch <;> simp [h]
  refine (commitSnapshot_ends snapshot _).mono ?_ fun e db' state' h => ⟨h.1, .inl h.2.1, h.2.2⟩
  rintro _ db' state' ⟨rfl, rfl⟩
  rw [hmerged]
  -- the transaction is committed; pruning the histories can still fail
  have hpruned : Refused db state' .failure (if snapshot.roundEpoch = state'.roundEpoch then
      { db with round := db.round.merge snapshot } else db) state' (.snapshot snapshot) := by
    refine ⟨rfl, ?_, rfl⟩
    by_cases h : snapshot.roundEpoch = state'.roundEpoch <;> simp [h]
  exact .bind (.touch hpruned (.touch hpruned ⟨rfl, rfl⟩))

/-- With no pending row of the hash a resolution changes nothing. -/
theorem map_resolve_of_countP_eq_zero {rows : List FoundBlock} {hash : Str}
    {resolution : BlockResolution} {resolvedTs : ℕ}
    (h : rows.countP (fun r => r.hash = hash ∧ r.resolved = none) = 0) :
    rows.map (.resolve hash resolution resolvedTs) = rows := by
  rw [List.countP_eq_zero] at h
  refine (List.map_congr_left fun r hr => ?_).trans (List.map_id _)
  exact if_neg (by simpa using h r hr)

theorem findBlock_eq_none {rows : List FoundBlock} {hash : Str} :
    findBlock hash rows = none ↔ ∀ r ∈ rows, r.hash ≠ hash := by
  simp [findBlock, List.find?_eq_none]

theorem exists_of_findBlock {rows : List FoundBlock} {hash : Str} (h : findBlock hash rows ≠ none) :
    ∃ r ∈ rows, r.hash = hash := by
  simpa [findBlock_eq_none] using h

theorem resolveFoundBlock_ends (hash : Str) (resolution : BlockResolution) (resolvedTs : ℕ) :
    (applyWrite (.blockResolved hash resolution resolvedTs)).Ends db state
      (fun _ db' state' => Applied db state db' state' (.blockResolved hash resolution resolvedTs))
      (fun e db' state' => Refused db state e db' state'
        (.blockResolved hash resolution resolvedTs)) := by
  refine .bind (.update ⟨.inl rfl, rfl, rfl⟩ ?_)
  by_cases hzero : db.foundBlocks.countP (fun r => r.hash = hash ∧ r.resolved = none) = 0
  · simp only [hzero, map_resolve_of_countP_eq_zero hzero, if_true]
    refine .bind (.optional (.queryRow ?_ (fun {r} hr => ?_) fun hnone => ?_))
    · exact ⟨.inl rfl, rfl, rfl⟩
    · refine .pure ⟨exists_of_findBlock (by simp [hr]), ?_, rfl⟩
      rw [map_resolve_of_countP_eq_zero hzero]
    · exact .throw (by decide) ⟨.inr (findBlock_eq_none.mp hnone), rfl, rfl⟩
  · rw [if_neg hzero]
    have hsome : ∃ r ∈ db.foundBlocks, r.hash = hash := by
      obtain ⟨r, hr, hp⟩ := List.countP_pos_iff.mp (Nat.pos_of_ne_zero hzero)
      exact ⟨r, hr, by simp at hp; exact hp.1⟩
    exact .pure ⟨hsome, rfl, rfl⟩

/-! ## Writes of the ledger -/

/-- Only the ledger and the ids cached for it differ. -/
def Near (db : Database) (state : WriterState) (db' : Database) (state' : WriterState) : Prop :=
  (∃ ledger, db' = { db with ledger }) ∧ state'.roundEpoch = state.roundEpoch

theorem Near.refl (db : Database) (state : WriterState) : Near db state db state :=
  ⟨⟨db.ledger, rfl⟩, rfl⟩

theorem Near.trans {db db' db'' : Database} {state state' state'' : WriterState}
    (h : Near db state db' state') (h' : Near db' state' db'' state'') :
    Near db state db'' state'' := by
  obtain ⟨⟨ledger, rfl⟩, hstate⟩ := h
  obtain ⟨⟨ledger', rfl⟩, hstate'⟩ := h'
  exact ⟨⟨ledger', rfl⟩, hstate'.trans hstate⟩

/-- The program touches nothing but the ledger and the ids cached for it. -/
def LedgerOnly {α : Type} (x : Sql Database WriterState α) : Prop :=
  ∀ db state, x.Ends db state (fun _ => Near db state) fun _ => Near db state

namespace LedgerOnly

variable {α β : Type} {x : Sql Database WriterState α}

theorem pure (a : α) : LedgerOnly (Pure.pure a : Sql Database WriterState α) :=
  fun db state => .pure (.refl db state)

theorem bind {f : α → Sql Database WriterState β} (hx : LedgerOnly x) (hf : ∀ a, LedgerOnly (f a)) :
    LedgerOnly (x >>= f) := by
  intro db state
  refine .bind ((hx db state).mono (fun a db' state' h => ?_) fun _ _ _ h => h)
  exact (hf a db' state').mono (fun _ _ _ h' => h.trans h') fun _ _ _ h' => h.trans h'

theorem query (g : Database → α) : LedgerOnly (Sql.query g) :=
  fun db state => .query (.refl db state) (.refl db state)

theorem queryRow (g : Database → Option α) : LedgerOnly (Sql.queryRow g) :=
  fun db state => .queryRow (.refl db state) (fun _ => .refl db state) fun _ => .refl db state

theorem optional (hx : LedgerOnly x) : LedgerOnly x.optional := by
  intro db state
  refine .optional ((hx db state).mono (fun _ _ _ h => h) fun e db' state' h => ?_)
  by_cases he : e = .queryReturnedNoRows <;> simpa [he] using h

theorem touch : LedgerOnly Sql.touch := fun db state => .touch (.refl db state) (.refl db state)

theorem onLedger (f : ShareLedger → ShareLedger) : LedgerOnly (onLedger f) :=
  fun db state => .execute (.refl db state) ⟨⟨_, rfl⟩, rfl⟩

theorem insertInterval (row : ShareInterval) : LedgerOnly (insertInterval row) :=
  fun db state => .executeChecked (.refl db state) (fun _ => ⟨⟨_, rfl⟩, rfl⟩) fun _ =>
    .refl db state

theorem ignore {y : Sql Database WriterState Unit} (hy : LedgerOnly y) : LedgerOnly y.ignore :=
  fun db state => .ignore (hy db state)

theorem transaction (hx : LedgerOnly x) : LedgerOnly x.transaction := by
  intro db state
  refine .transaction (.refl db state)
    ((hx db state).mono (fun _ _ _ h => ⟨h, ?_⟩) fun _ _ _ h => ?_)
  · exact ⟨⟨db.ledger, rfl⟩, h.2⟩
  · exact ⟨⟨db.ledger, rfl⟩, h.2⟩

end LedgerOnly

theorem ledgerOnly_resolveWorkerId (name : Str) (now : ℕ) :
    LedgerOnly (resolveWorkerId name now) := by
  refine (LedgerOnly.queryRow _).optional.bind fun existing => ?_
  cases existing with
  | some id => exact .pure _
  | none =>
    refine (LedgerOnly.query _).bind fun workers => ?_
    by_cases hcap : maxLedgerWorkers ≤ workers
    · simpa [hcap] using LedgerOnly.pure _
    · simp only [if_neg hcap]
      exact (LedgerOnly.onLedger _).bind fun _ => (LedgerOnly.onLedger _).bind fun _ =>
        (LedgerOnly.queryRow _).bind fun id => .pure _

theorem ledgerOnly_cachedWorkerId (name : Str) (now : ℕ) :
    LedgerOnly (cachedWorkerId name now) := by
  have hread : LedgerOnly (Sql.readMemory fun s : WriterState => s.workerIds.lookup name) :=
    fun db state => .readMemory (.refl db state)
  refine hread.bind fun cached => ?_
  cases cached with
  | some id => exact .pure _
  | none =>
    refine (ledgerOnly_resolveWorkerId name now).bind fun resolved => ?_
    cases resolved with
    | none => exact .pure _
    | some id =>
      have hcache : LedgerOnly (Sql.modifyMemory fun s : WriterState =>
          { s with workerIds := (name, id) :: s.workerIds }) :=
        fun db state => .modifyMemory ⟨⟨db.ledger, rfl⟩, rfl⟩
      exact hcache.bind fun _ => .pure _

theorem ledgerOnly_writeEntries (minuteTs : ℕ) (entries : List LedgerEntry) :
    LedgerOnly (writeEntries minuteTs entries) := by
  induction entries with
  | nil => exact .pure _
  | cons entry entries ih =>
    refine (ledgerOnly_cachedWorkerId entry.worker minuteTs).bind fun id => ?_
    cases id with
    | none => exact ih
    | some workerId => exact (LedgerOnly.insertInterval _).bind fun _ => ih

theorem ledgerOnly_rollUpLedger (now : ℕ) : LedgerOnly (rollUpLedger now) := by
  refine (LedgerOnly.query _).bind fun due => ?_
  by_cases hdue : due = 0
  · simpa [hdue] using LedgerOnly.pure _
  · simp only [if_neg hdue]
    exact ((LedgerOnly.onLedger _).bind fun _ => LedgerOnly.onLedger _).transaction

/-- A minute that could not be written was rolled back. -/
theorem writeLedgerMinute_ends (minute : LedgerMinute) :
    (writeLedgerMinute minute).Ends db state (fun _ => Near db state)
      (fun _ db' state' => db' = db ∧ state'.roundEpoch = state.roundEpoch) := by
  unfold writeLedgerMinute
  by_cases hempty : minute.entries.isEmpty
  · rw [if_pos hempty]
    exact .pure (.refl db state)
  · rw [if_neg hempty]
    have hbody := LedgerOnly.touch.bind fun _ =>
      ledgerOnly_writeEntries minute.minuteTs minute.entries
    exact .transaction ⟨rfl, rfl⟩ ((hbody db state).mono (fun _ _ _ h => ⟨h, rfl, h.2⟩)
      fun _ _ _ h => ⟨rfl, h.2⟩)

theorem ledger_ends (minute : LedgerMinute) :
    (applyWrite (.ledger minute)).Ends db state
      (fun _ db' state' => Applied db state db' state' (.ledger minute))
      (fun e db' state' => Refused db state e db' state' (.ledger minute)) := by
  refine .bind (.onError ((writeLedgerMinute_ends minute).mono (fun _ db' state' h => ?_) ?_))
  · refine .ignore ((ledgerOnly_rollUpLedger minute.minuteTs db' state').mono ?_ ?_)
    · exact fun _ _ _ h' => h.trans h'
    · exact fun _ _ _ h' => h.trans h'
  · exact fun _ _ _ h => h

/-- What a write did, whatever the faults it met. -/
theorem applyWrite_ends (write : StoreWrite) (db : Database) (state : WriterState) :
    (applyWrite write).Ends db state (fun _ db' state' => Applied db state db' state' write)
      (fun e db' state' => Refused db state e db' state' write) := by
  cases write with
  | bestShare _ => exact .execute ⟨rfl, rfl, rfl⟩ ⟨rfl, rfl⟩
  | bestHashrate _ => exact .execute ⟨rfl, rfl, rfl⟩ ⟨rfl, rfl⟩
  | workerBestShare _ _ => exact .execute ⟨rfl, rfl, rfl⟩ ⟨rfl, rfl⟩
  | pruneWorkerBestShares _ => exact .ignore (onRound_ends ⟨.inl rfl, rfl⟩ ⟨.inr rfl, rfl⟩)
  | blockFound _ => exact .execute ⟨rfl, rfl, rfl⟩ ⟨rfl, rfl⟩
  | blockResolved hash resolution resolvedTs => exact resolveFoundBlock_ends hash _ _
  | snapshot snapshot => exact snapshot_ends snapshot
  | ledger minute => exact ledger_ends minute
  | roundReset epoch sinceTs =>
    refine .bind ((applyRoundReset_ends sinceTs).mono ?_ fun _ _ _ h => h)
    rintro _ _ _ ⟨rfl, rfl⟩
    exact .modifyMemory ⟨rfl, rfl⟩
  | flush => exact .pure ⟨rfl, rfl⟩

/-! ## The found blocks after a write -/

/-- The rows of `found_blocks` after a write. -/
def rowsAfter (rows : List FoundBlock) : StoreWrite → List FoundBlock
  | .blockFound block => insertFoundBlock block rows
  | .blockResolved hash resolution resolvedTs => rows.map (.resolve hash resolution resolvedTs)
  | _ => rows

theorem foundBlocks_of_applied {db' : Database} {state' : WriterState} {write : StoreWrite}
    (h : Applied db state db' state' write) :
    db'.foundBlocks = rowsAfter db.foundBlocks write := by
  cases write with
  | snapshot s =>
    rw [h.1]
    split <;> rfl
  | ledger m => obtain ⟨⟨ledger, rfl⟩, -⟩ := h; rfl
  | pruneWorkerBestShares k => rcases h with ⟨rfl | rfl, -⟩ <;> rfl
  | blockResolved hash r t => rw [h.2.1]; rfl
  | _ => rw [h.1]; rfl

theorem hash_resolve (hash : Str) (resolution : BlockResolution) (ts : ℕ) (r : FoundBlock) :
    (r.resolve hash resolution ts).hash = r.hash := by
  unfold FoundBlock.resolve
  split <;> rfl

/-- Hashes stay unique. -/
theorem nodup_rowsAfter {rows : List FoundBlock} (h : (rows.map fun r => r.hash).Nodup)
    (write : StoreWrite) : ((rowsAfter rows write).map fun r => r.hash).Nodup := by
  cases write with
  | blockFound block => exact nodup_insertOrIgnore h
  | blockResolved hash resolution ts =>
    rw [rowsAfter, List.map_map]
    simpa only [Function.comp_def, hash_resolve] using h
  | _ => exact h

/-! ## The loop -/

/-- What the writer works on. -/
structure Store where
  db : Database
  state : WriterState

/-- One attempt of a write. -/
def tryWrite (write : StoreWrite) (store : Store) (faults : List Bool) :
    Bool × Store × List Bool :=
  match (applyWrite write).run ⟨store.db, store.state, faults⟩ with
  | (.ok _, c) => (true, ⟨c.db, c.memory⟩, c.faults)
  | (.error _, c) => (false, ⟨c.db, c.memory⟩, c.faults)

/-- The writer: its step on a pass is `retry_backlog`, its step on a write `handle_write`. A flush
is acknowledged by being applied. -/
def writer : RetryQueue.Writer StoreWrite Store (List Bool) where
  attempt := tryWrite
  durable := isDurable
  cap := maxWriteBacklog

/-- What the writer turns to next, with the failures it meets. -/
abbrev WriterEvent := RetryQueue.Event StoreWrite (List Bool)

/-- A turn of the loop: a write was received, or the wait for one timed out. -/
structure Turn where
  next : Option StoreWrite
  retryFaults : List Bool
  writeFaults : List Bool

/-- A pass over the backlog, then the write received. -/
def Turn.events (turn : Turn) : List WriterEvent :=
  .retry turn.retryFaults :: (turn.next.map fun write => .handle write turn.writeFaults).toList

/-- The writer of a process just started on a database. -/
def startWriter (db : Database) : RetryQueue.State StoreWrite Store where
  backlog := []
  store := { db, state := .default }

/-! ## The loop without failures -/

/-- The turns of the loop when nothing fails. -/
def failureFree (writes : List StoreWrite) : List WriterEvent :=
  writes.flatMap fun write => Turn.events ⟨some write, [], []⟩

theorem received_failureFree (writes : List StoreWrite) :
    received (failureFree writes) = writes := by
  induction writes with
  | nil => rfl
  | cons w ws ih =>
    rw [failureFree, List.flatMap_cons, received_append]
    exact congrArg (w :: ·) ih

/-- The event meets no failure. -/
def Healthy (_ : State StoreWrite Store) : WriterEvent → Prop
  | .retry faults | .handle _ faults => true ∉ faults

theorem meets_failureFree (s : State StoreWrite Store) (writes : List StoreWrite) :
    writer.process.Meets Healthy s (failureFree writes) := by
  refine Process.meets_of_forall (fun e he s => ?_) s
  obtain ⟨w, -, he⟩ := List.mem_flatMap.mp he
  simp only [Turn.events, Option.map_some, Option.toList_some, List.mem_cons, List.not_mem_nil,
    or_false] at he
  rcases he with rfl | rfl <;> simp [Healthy]

/-- A block found in regtest. -/
def regtestBlock (hash : Str) (foundTs : ℕ) (wonAtSubmit : Bool) : PendingBlock where
  hash
  height := 101
  worker := "w".toList
  payout := "w".toList
  foundTs
  wonAtSubmit

variable {write : StoreWrite} {store store' : Store} {faults faults' : List Bool}

/-- What is known of how a write ends is known of an attempt that succeeds. -/
theorem ends_of_tryWrite {Q : Unit → Database → WriterState → Prop}
    {E : Error → Database → WriterState → Prop}
    (hends : (applyWrite write).Ends store.db store.state Q E)
    (h : tryWrite write store faults = (true, store', faults')) :
    Q () store'.db store'.state ∧ (true ∉ faults → true ∉ faults') := by
  have hmet := hends faults
  have hleft := (applyWrite write).notMem_faults (c := ⟨store.db, store.state, faults⟩)
  unfold tryWrite at h
  rcases hrun : (applyWrite write).run ⟨store.db, store.state, faults⟩ with ⟨e | a, c⟩ <;>
    rw [hrun] at h hmet hleft <;> cases h
  exact ⟨hmet, hleft⟩

/-- And of one that fails, which without a fault has failed by an error of its own. -/
theorem ends_of_tryWrite_failed {Q : Unit → Database → WriterState → Prop}
    {E : Error → Database → WriterState → Prop}
    (hends : (applyWrite write).Ends store.db store.state Q E)
    (h : tryWrite write store faults = (false, store', faults')) :
    ∃ e, E e store'.db store'.state ∧ (true ∉ faults → e ≠ .failure) := by
  have hmet := hends faults
  have hne := (applyWrite write).ne_failure (c := ⟨store.db, store.state, faults⟩)
  unfold tryWrite at h
  rcases hrun : (applyWrite write).run ⟨store.db, store.state, faults⟩ with ⟨e | a, c⟩ <;>
    rw [hrun] at h hmet hne <;> cases h
  refine ⟨e, hmet, ?_⟩
  rintro hfaults rfl
  exact hne hfaults rfl

theorem applied_of_tryWrite (h : tryWrite write store faults = (true, store', faults')) :
    Applied store.db store.state store'.db store'.state write :=
  (ends_of_tryWrite (applyWrite_ends write store.db store.state) h).1

theorem refused_of_tryWrite (h : tryWrite write store faults = (false, store', faults')) :
    ∃ e, Refused store.db store.state e store'.db store'.state write ∧
      (true ∉ faults → e ≠ .failure) :=
  ends_of_tryWrite_failed (applyWrite_ends write store.db store.state) h

/-- A durable write that fails has changed nothing in the database. -/
theorem db_of_failed (hd : isDurable write)
    (h : tryWrite write store faults = (false, store', faults')) :
    store'.db = store.db ∧ store'.state.roundEpoch = store.state.roundEpoch := by
  obtain ⟨e, hr, -⟩ := refused_of_tryWrite h
  cases write with
  | ledger _ => exact hr
  | blockFound _ => exact ⟨hr.2.1, by rw [hr.2.2]⟩
  | blockResolved _ _ _ => exact ⟨hr.2.1, by rw [hr.2.2]⟩
  | roundReset _ _ => exact ⟨hr.2.1, by rw [hr.2.2]⟩
  | _ => cases hd

end BtcPool.Stats
