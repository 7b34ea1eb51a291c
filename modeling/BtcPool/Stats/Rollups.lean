import BtcPool.Stats.Ledger

/-!
# Rollups of the share ledger

A rollup moves the minutes of hours past the retention into the hourly table, in one transaction:
either it did that and nothing else, or it left the file alone (`rollUpLedger_rolledUp`). What the
ledger holds for a worker in an hour, both tables together, is the same before and after.

Minutes may be written late, into hours that were rolled up before, and rollups may run at any time.
Writing a minute reads the rows of users and workers and the ids the writer has cached, and no
interval. Two files with the same such rows and the same amounts in every hour (`SameBooks`)
therefore take a minute alike and have the same amounts after it, so that rollups in between do not
show. The argument is made once for any relation that the statements of a minute do not break
(`Unbroken`).
-/

namespace BtcPool.Stats

open Rows Sqlite

namespace ShareLedger

variable {ledger : ShareLedger} {cutoff : ℕ}

theorem mem_shareIntervals_rolledUp {r : ShareInterval} :
    r ∈ (ledger.rolledUp cutoff).shareIntervals ↔ r ∈ ledger.shareIntervals ∧ cutoff ≤ r.ts := by
  simp only [rolledUp, deleteMinutes, addHourly, List.mem_filter, decide_eq_true_eq]

theorem filter_shareIntervals_rolledUp :
    (ledger.rolledUp cutoff).shareIntervals.filter (fun r => cutoff ≤ r.ts) =
      ledger.shareIntervals.filter fun r => cutoff ≤ r.ts := by
  simp only [rolledUp, deleteMinutes, addHourly, List.filter_filter, Bool.and_self]

theorem rolledUp_rolledUp : (ledger.rolledUp cutoff).rolledUp cutoff = ledger.rolledUp cutoff :=
  rolledUp_of_le fun _ hr => (mem_shareIntervals_rolledUp.mp hr).2

theorem total_insertUser (ledger : ShareLedger) (address : Str) (now : ℕ) :
    (ledger.insertUser address now).total = ledger.total := by
  funext id hour
  rw [total, total, shareIntervals_insertUser, shareIntervalsHourly_insertUser]

theorem users_insertWorker (ledger : ShareLedger) (address label : Str) (now : ℕ) :
    (ledger.insertWorker address label now).users = ledger.users := by
  unfold insertWorker
  split <;> rfl

theorem total_insertWorker (ledger : ShareLedger) (address label : Str) (now : ℕ) :
    (ledger.insertWorker address label now).total = ledger.total := by
  unfold insertWorker
  split <;> rfl

end ShareLedger

/-! ## Files that cannot be told apart by writing to them -/

/-- The files have the same rows of users and workers, and the same amounts of each worker in each
hour. -/
structure SameBooks (db db' : Database) : Prop where
  users : db.ledger.users = db'.ledger.users
  workers : db.ledger.workers = db'.ledger.workers
  total : db.ledger.total = db'.ledger.total

namespace SameBooks

variable {db db' db'' : Database}

theorem refl (db : Database) : SameBooks db db := ⟨rfl, rfl, rfl⟩

theorem trans (h : SameBooks db db') (h' : SameBooks db' db'') : SameBooks db db'' :=
  ⟨h.users.trans h'.users, h.workers.trans h'.workers, h.total.trans h'.total⟩

theorem selectWorkerId (h : SameBooks db db') (address label : Str) :
    db.ledger.selectWorkerId address label = db'.ledger.selectWorkerId address label := by
  unfold ShareLedger.selectWorkerId
  rw [h.users, h.workers]

theorem insertUser (h : SameBooks db db') (address : Str) (now : ℕ) :
    SameBooks { db with ledger := db.ledger.insertUser address now }
      { db' with ledger := db'.ledger.insertUser address now } := by
  refine ⟨?_, ?_, ?_⟩
  · unfold ShareLedger.insertUser
    split
    · exact h.users
    · simp only [h.users]
  · simp only [ShareLedger.workers_insertUser, h.workers]
  · simp only [ShareLedger.total_insertUser, h.total]

theorem insertWorker (h : SameBooks db db') (address label : Str) (now : ℕ) :
    SameBooks { db with ledger := db.ledger.insertWorker address label now }
      { db' with ledger := db'.ledger.insertWorker address label now } := by
  refine ⟨?_, ?_, ?_⟩
  · simp only [ShareLedger.users_insertWorker, h.users]
  · unfold ShareLedger.insertWorker
    rw [h.users]
    split
    · exact h.workers
    · simp only [h.workers]
  · simp only [ShareLedger.total_insertWorker, h.total]

theorem insertInterval (h : SameBooks db db') (row : ShareInterval) :
    SameBooks { db with ledger := db.ledger.insertInterval row }
      { db' with ledger := db'.ledger.insertInterval row } := by
  refine ⟨h.users, h.workers, ?_⟩
  funext id hour
  rw [ShareLedger.total_insertInterval, ShareLedger.total_insertInterval, h.total]

theorem rolledUp (db : Database) (cutoff : ℕ) :
    SameBooks { db with ledger := db.ledger.rolledUp cutoff } db := by
  refine ⟨rfl, rfl, ?_⟩
  funext id hour
  exact ShareLedger.total_rollUp _ _ _ _

end SameBooks

/-! ## Writing a minute on two files -/

/-- A relation of files that the statements of writing a minute cannot break, and under which they
say the same. -/
structure Unbroken (S : Database → Database → Prop) : Prop where
  selectWorkerId : ∀ {db db'}, S db db' → ∀ address label,
    db.ledger.selectWorkerId address label = db'.ledger.selectWorkerId address label
  workers : ∀ {db db'}, S db db' → db.ledger.workers = db'.ledger.workers
  insertUser : ∀ {db db'}, S db db' → ∀ name now,
    S { db with ledger := db.ledger.insertUser (splitWorker name).1 now }
      { db' with ledger := db'.ledger.insertUser (splitWorker name).1 now }
  insertWorker : ∀ {db db'}, S db db' → ∀ address label now,
    S { db with ledger := db.ledger.insertWorker address label now }
      { db' with ledger := db'.ledger.insertWorker address label now }
  insertInterval : ∀ {db db'}, S db db' → ∀ row, db'.ledger.intervalAllowed row →
    S { db with ledger := db.ledger.insertInterval row }
      { db' with ledger := db'.ledger.insertInterval row }

theorem SameBooks.unbroken : Unbroken SameBooks where
  selectWorkerId h := h.selectWorkerId
  workers h := h.workers
  insertUser h name now := h.insertUser (splitWorker name).1 now
  insertWorker h := h.insertWorker
  insertInterval h row _ := h.insertInterval row

/-- Writing a minute whose stamp and names are whatever they are; off the grid, or without an
address, it is refused by the tables. -/
def writeMinute (minuteTs : ℕ) (entries : List LedgerEntry) : Sql Database WriterState Unit :=
  if entries.isEmpty then pure ()
  else Sql.transaction do
    Sql.touch
    writeEntries minuteTs entries

/-- The minutes the pool closes are among these. -/
theorem writeLedgerMinute_eq (minute : LedgerMinute) :
    writeLedgerMinute minute = writeMinute minute.minuteTs minute.entries := rfl

namespace Unbroken

variable {S : Database → Database → Prop} (hS : Unbroken S)

include hS

theorem resolveWorkerId (name : Str) (now : ℕ) : (resolveWorkerId name now).Respects S := by
  refine .bind (.optional (.queryRow fun _ _ h => hS.selectWorkerId h _ _)) fun existing => ?_
  cases existing with
  | some id => exact .pure _
  | none =>
    refine .bind (.query fun _ _ h => congrArg List.length (hS.workers h)) fun workers => ?_
    split
    · exact .pure _
    · refine .bind (.execute fun _ _ h => hS.insertUser h name now) fun _ => ?_
      refine .bind (.execute fun _ _ h => hS.insertWorker h _ _ _) fun _ => ?_
      exact .bind (.queryRow fun _ _ h => hS.selectWorkerId h _ _) fun _ => .pure _

theorem cachedWorkerId (name : Str) (now : ℕ) : (cachedWorkerId name now).Respects S := by
  refine .bind (.readMemory _) fun cached => ?_
  cases cached with
  | some id => exact .pure _
  | none =>
    refine .bind (hS.resolveWorkerId name now) fun resolved => ?_
    cases resolved with
    | none => exact .pure _
    | some id => exact .bind (.modifyMemory _) fun _ => .pure _

theorem writeEntries (minuteTs : ℕ) (entries : List LedgerEntry) :
    (writeEntries minuteTs entries).Respects S := by
  induction entries with
  | nil => exact .pure ()
  | cons entry entries ih =>
    refine .bind (hS.cachedWorkerId entry.worker minuteTs) fun id => ?_
    cases id with
    | none => exact ih
    | some workerId =>
      refine .bind (.executeChecked (fun _ _ h => ?_) fun _ _ h => hS.insertInterval h _) fun _ =>
        ih
      rw [ShareLedger.intervalAllowed, ShareLedger.intervalAllowed, hS.workers h]

theorem writeMinute (minuteTs : ℕ) (entries : List LedgerEntry) :
    (writeMinute minuteTs entries).Respects S := by
  unfold BtcPool.Stats.writeMinute
  split
  · exact .pure ()
  · exact .transaction (.bind .touch fun _ => hS.writeEntries _ _)

end Unbroken

/-! ## Schedules -/

/-- A minute to write, or a rollup at a time. -/
inductive LedgerTask
  | minute (minuteTs : ℕ) (entries : List LedgerEntry)
  | rollUp (now : ℕ)

namespace LedgerTask

/-- Whether a task writes a minute. -/
def isMinute : LedgerTask → Bool
  | .minute .. => true
  | .rollUp _ => false

/-- The statements of a task. -/
def program : LedgerTask → Sql Database WriterState Unit
  | .minute minuteTs entries =>
    -- a minute that failed takes the cached ids with it
    (writeMinute minuteTs entries).onError fun state => { state with workerIds := [] }
  | .rollUp now => rollUpLedger now

/-- One task, with the faults its statements meet. -/
def perform (store : Store) (task : LedgerTask × List Bool) : Except Error Unit × Store :=
  let r := task.1.program.run ⟨store.db, store.state, task.2⟩
  (r.1, ⟨r.2.db, r.2.memory⟩)

/-- The tasks one after the other: what each minute came to, and the store in the end. -/
def performAll (store : Store) : List (LedgerTask × List Bool) → List (Except Error Unit) × Store
  | [] => ([], store)
  | task :: tasks =>
    let (result, store) := perform store task
    let (results, store) := performAll store tasks
    (if task.1.isMinute then result :: results else results, store)

/-- Stores in which writing goes alike. -/
def SameStore (store store' : Store) : Prop :=
  SameBooks store.db store'.db ∧ store.state = store'.state

variable {store store' : Store}

theorem perform_minute (h : SameStore store store') (minuteTs : ℕ) (entries : List LedgerEntry)
    (faults : List Bool) :
    let task : LedgerTask × List Bool := (.minute minuteTs entries, faults)
    (perform store task).1 = (perform store' task).1 ∧
      SameStore (perform store task).2 (perform store' task).2 := by
  have halike := (SameBooks.unbroken.writeMinute minuteTs entries).onError
    (fun state => { state with workerIds := [] })
    ⟨store.db, store.state, faults⟩ ⟨store'.db, store'.state, faults⟩ h.1 h.2 rfl
  exact ⟨halike.result, halike.db, halike.memory⟩

theorem perform_rollUp (h : SameStore store store') (now : ℕ) (faults : List Bool) :
    SameStore (perform store (.rollUp now, faults)).2 store' := by
  have hends := rollUpLedger_rolledUp store.db store.state now faults
  unfold perform program
  dsimp only
  rcases hrun : (rollUpLedger now).run ⟨store.db, store.state, faults⟩ with ⟨e | u, c⟩ <;>
    rw [hrun] at hends
  · obtain ⟨-, hdb, hstate⟩ := hends
    exact ⟨hdb ▸ h.1, hstate.trans h.2⟩
  · obtain ⟨hdb, hstate⟩ := hends
    exact ⟨hdb ▸ (SameBooks.rolledUp _ _).trans h.1, hstate.trans h.2⟩

/-- Leaving out the rollups changes neither what the minutes come to nor the books. -/
theorem performAll_filter (h : SameStore store store') (tasks : List (LedgerTask × List Bool)) :
    (performAll store tasks).1 =
        (performAll store' (tasks.filter fun task => task.1.isMinute)).1 ∧
      SameStore (performAll store tasks).2
        (performAll store' (tasks.filter fun task => task.1.isMinute)).2 := by
  induction tasks generalizing store store' with
  | nil => exact ⟨rfl, h⟩
  | cons task tasks ih =>
    obtain ⟨task, faults⟩ := task
    cases task with
    | minute minuteTs entries =>
      obtain ⟨hresult, hstore⟩ := perform_minute h minuteTs entries faults
      obtain ⟨hresults, hfinal⟩ := ih hstore
      exact ⟨congrArg₂ List.cons hresult hresults, hfinal⟩
    | rollUp now => exact ih (perform_rollUp h now faults)

end LedgerTask

/-- A rollup of rolled up minutes changes nothing, whether it fails or not. -/
theorem db_rollUpLedger_rolledUp (db : Database) (state : WriterState) (now : ℕ)
    (faults : List Bool) :
    let db' := { db with ledger := db.ledger.rolledUp (rollUpCutoff now) }
    ((rollUpLedger now).run ⟨db', state, faults⟩).2.db = db' := by
  intro db'
  have hends := rollUpLedger_rolledUp db' state now faults
  rcases hrun : (rollUpLedger now).run ⟨db', state, faults⟩ with ⟨e | u, c⟩ <;> rw [hrun] at hends
  · exact hends.2.1
  · refine hends.1.trans ?_
    simp only [db', ShareLedger.rolledUp_rolledUp]

/-- A rollup moves amounts and loses none, leaves nothing below its cutoff and what is above it
alone, and has nothing left to do when it is repeated. And whatever rollups run between the minutes
that are written, at whatever times, the minutes come to the same and the amounts of every worker
and hour are those of writing the minutes alone. -/
theorem rollUps_lossless (db : Database) (state : WriterState) (now : ℕ) (faults : List Bool)
    (store : Store) (tasks : List (LedgerTask × List Bool)) :
    let r := (rollUpLedger now).run ⟨db, state, faults⟩
    let cutoff := rollUpCutoff now
    let minutes := tasks.filter fun task => task.1.isMinute
    ((∀ id hour, r.2.db.ledger.total id hour = db.ledger.total id hour) ∧
      (r.2.db.ledger.shareIntervals.filter fun row => cutoff ≤ row.ts) =
        (db.ledger.shareIntervals.filter fun row => cutoff ≤ row.ts) ∧
      (r.1 = .ok () → (∀ row ∈ r.2.db.ledger.shareIntervals, cutoff ≤ row.ts) ∧
        ∀ state' faults', ((rollUpLedger now).run ⟨r.2.db, state', faults'⟩).2.db = r.2.db) ∧
      (r.1 ≠ .ok () → r.2.db = db) ∧
      (true ∉ faults → r.1 = .ok ())) ∧
    (LedgerTask.performAll store tasks).1 = (LedgerTask.performAll store minutes).1 ∧
      SameBooks (LedgerTask.performAll store tasks).2.db
        (LedgerTask.performAll store minutes).2.db := by
  intro r cutoff minutes
  have hsame : LedgerTask.SameStore store store := ⟨.refl store.db, rfl⟩
  obtain ⟨hresults, hbooks, -⟩ := LedgerTask.performAll_filter hsame tasks
  refine ⟨?_, hresults, hbooks⟩
  have hends : Sql.Met _ _ r := rollUpLedger_rolledUp db state now faults
  have hfailure : true ∉ faults → r.1 ≠ .error .failure := fun h => (rollUpLedger now).ne_failure h
  rcases r with ⟨e | u, c⟩
  · obtain ⟨rfl, hdb, -⟩ := hends
    refine ⟨?_, ?_, ?_, fun _ => hdb, fun h => absurd rfl (hfailure h)⟩
    · exact fun id hour => by rw [hdb]
    · rw [hdb]
    · exact fun h => by cases h
  · obtain ⟨hdb, -⟩ := hends
    refine ⟨?_, ?_, fun _ => ⟨?_, ?_⟩, fun h => absurd rfl h, fun _ => rfl⟩
    · exact fun id hour => by rw [hdb]; exact ShareLedger.total_rollUp _ _ _ _
    · rw [hdb]
      exact ShareLedger.filter_shareIntervals_rolledUp
    · rw [hdb]
      exact fun row hrow => (ShareLedger.mem_shareIntervals_rolledUp.mp hrow).2
    · rw [hdb]
      exact fun state' faults' => db_rollUpLedger_rolledUp db state' now faults'

end BtcPool.Stats
