import BtcPool.Network.Effects
import BtcPool.Stats.LedgerStage
import BtcPool.Stats.PoolStats
import BtcPool.Stats.WorkerTable

/-!
# Shares on their way to the disk

A share a session reports passes through five places: the accumulator of the open minute, the hands
of the task that closed the minute and has yet to send it, the channel to the writer thread, the
writer's backlog of failed writes, and the tables. The tasks take the accumulator's lock one at a
time but send what they closed in any order; the writer meets failures of the disk; and the process
can be stopped at any moment and started again on the file, with all that was not in the tables
gone.

`Books` is the five places together, and `Books.step` any one move of any one party. The amounts
filed are, at every moment and for every worker that is admitted to the table of workers, those in
the tables, those on their way, and those lost to a stop of the process or to an overflow of the
backlog (`Books.shares_accounted`): no share is counted twice or under another hour, and none is
lost otherwise.
-/

namespace BtcPool

/-- The call on the ledger that recording an event of a session makes. `known` says whether the
worker is one of those that authorized. -/
def StatsEvent.ledgerCall (known : Bool) (now : ℕ) : StatsEvent → Option Stats.LedgerCall
  | .accepted _ worker credit _ => some (.recordLedger known worker ⟨credit.toNat, 1, 0⟩ now)
  | .rejected worker _ => some (.recordLedger known worker ⟨0, 0, 1⟩ now)
  | _ => none

namespace Stats

open Rows Sqlite RetryQueue

/-! ## Filings -/

/-- An entry and the minute it is filed under. -/
abbrev Filing := ℕ × LedgerEntry

/-- The amounts of filings that count for a name, taken apart, and an hour. -/
def filedAmounts (key : Str × Str) (hour : ℕ) (filings : List Filing) : LedgerPending :=
  (filings.map fun f => entryAmounts f.1 key hour f.2).sum

/-- The filings a write brings to the tables. -/
def StoreWrite.filings : StoreWrite → List Filing
  | .ledger minute => minute.entries.map (minute.minuteTs, ·)
  | _ => []

section Amounts

variable {key : Str × Str} {hour : ℕ} {filings filings' : List Filing}

@[simp] theorem filedAmounts_nil : filedAmounts key hour [] = 0 := rfl

@[simp] theorem filedAmounts_append : filedAmounts key hour (filings ++ filings') =
    filedAmounts key hour filings + filedAmounts key hour filings' := by
  simp [filedAmounts]

theorem filedAmounts_perm (h : filings.Perm filings') :
    filedAmounts key hour filings = filedAmounts key hour filings' :=
  (h.map _).sum_eq

theorem amountsOfWrite_eq (write : StoreWrite) :
    amountsOfWrite key hour write = filedAmounts key hour write.filings := by
  cases write with
  | ledger minute =>
    change (minute.entries.map _).sum = ((minute.entries.map _).map _).sum
    rw [List.map_map]
    rfl
  | _ => rfl

theorem sum_amountsOfWrite (writes : List StoreWrite) :
    (writes.map (amountsOfWrite key hour)).sum =
      filedAmounts key hour (writes.flatMap StoreWrite.filings) := by
  induction writes with
  | nil => rfl
  | cons write writes ih =>
    rw [List.map_cons, List.sum_cons, List.flatMap_cons, filedAmounts_append, ih, amountsOfWrite_eq]

end Amounts

/-- Where an entry went: into the accumulator, or out of the process's memory and nowhere else. -/
inductive Movement
  | filed (filing : Filing)
  | lost (filing : Filing)

/-- The entry of a movement that files it. -/
def Movement.filing? : Movement → Option Filing
  | .filed filing => some filing
  | .lost _ => none

/-- The entry of a movement that loses it. -/
def Movement.loss? : Movement → Option Filing
  | .filed _ => none
  | .lost filing => some filing

/-- The entries that were filed. -/
def filedIn (moves : List Movement) : List Filing := moves.filterMap Movement.filing?

/-- The entries that were lost. -/
def lostIn (moves : List Movement) : List Filing := moves.filterMap Movement.loss?

@[simp] theorem filedIn_append (moves moves' : List Movement) :
    filedIn (moves ++ moves') = filedIn moves ++ filedIn moves' := List.filterMap_append

@[simp] theorem lostIn_append (moves moves' : List Movement) :
    lostIn (moves ++ moves') = lostIn moves ++ lostIn moves' := List.filterMap_append

@[simp] theorem filedIn_lost (filings : List Filing) : filedIn (filings.map .lost) = [] := by
  rw [filedIn, List.filterMap_map]
  exact List.filterMap_eq_nil_iff.mpr fun _ _ => rfl

@[simp] theorem lostIn_lost (filings : List Filing) : lostIn (filings.map .lost) = filings := by
  rw [lostIn, List.filterMap_map]
  exact List.filterMap_some

@[simp] theorem filedIn_filed (filing : Option Filing) :
    filedIn (filing.map Movement.filed).toList = filing.toList := by
  cases filing <;> rfl

@[simp] theorem lostIn_filed (filing : Option Filing) :
    lostIn (filing.map Movement.filed).toList = [] := by
  cases filing <;> rfl

/-! ## The five places -/

theorem LedgerStage.Written.new (wallNow : ℕ) : (LedgerStage.new wallNow).Written :=
  ⟨minuteOf_mod wallNow, nofun, nofun⟩

/-- A batch as the writer takes it. -/
def LedgerStage.Written.minute {stage : LedgerStage} (h : stage.Written)
    {batch : ℕ × List LedgerEntry} (hbatch : batch ∈ stage.batches) : LedgerMinute where
  minuteTs := batch.1
  entries := batch.2
  aligned := by
    obtain ⟨minute, hts, -⟩ := h.batches batch hbatch
    exact hts ▸ minute.aligned
  named := by
    obtain ⟨minute, -, hentries⟩ := h.batches batch hbatch
    exact hentries ▸ minute.named

/-- The ledger's state, in the memory of the process and on the disk. The batches of the stage are
minutes that were closed and are yet to be sent. -/
structure Books where
  up : Bool
  stage : LedgerStage
  written : stage.Written
  channel : List StoreWrite
  writerLoop : State StoreWrite Store

namespace Books

/-- The ledger in the file. -/
def ledger (books : Books) : ShareLedger := books.writerLoop.store.db.ledger

/-- The filings in the memory of the process. -/
def held (books : Books) : List Filing :=
  books.stage.stamped ++ (books.channel ++ books.writerLoop.backlog).flatMap StoreWrite.filings

/-- A file that no process has open. -/
def down (db : Database) : Books where
  up := false
  stage := .new 0
  written := .new 0
  channel := []
  writerLoop := startWriter db

/-- A move of a process that is up. -/
inductive Service
  /-- A session reports an event under the accumulator's lock; a worker that authorized has a payout
  address for a name. -/
  | report (event : StatsEvent) (known : Bool) (now : ℕ)
    (named : ∀ call ∈ event.ledgerCall known now, ∀ e ∈ call.entry, (splitWorker e.worker).1 ≠ [])
  | flushLedgerAt (now : ℕ)
  | flushLedgerPartial
  /-- The task that closed a minute sends it. -/
  | recordLedgerMinute (i : ℕ)
  /-- Any other write is sent. -/
  | enqueue (write : StoreWrite) (other : ∀ minute, write ≠ .ledger minute)
  /-- A turn of the writer's loop, with a write received or with the wait for one timed out. -/
  | turn (receive : Bool) (retryFaults writeFaults : List Bool)

/-- What happens to the books. -/
inductive Event
  | serve (service : Service)
  /-- The process is stopped, and started again on the file, which it may fail to open. -/
  | restart (wallNow : ℕ) (faults : List Bool)

variable (books : Books)

/-- Nothing happens. -/
def idle : Outcome Books Movement where
  state := books
  outputs := []
  live := true

/-- A call on the stage. -/
def call (call : LedgerCall) (named : ∀ e ∈ call.entry, (splitWorker e.worker).1 ≠ []) :
    Outcome Books Movement where
  state := { books with
    stage := call.step books.stage
    written := call.step_written books.written named }
  outputs := ((call.entry.map ((call.step books.stage).accum.minuteTs, ·)).map .filed).toList
  live := true

/-- A call on the stage, if there is one. -/
def report : (call : Option LedgerCall) →
    (∀ c ∈ call, ∀ e ∈ c.entry, (splitWorker e.worker).1 ≠ []) → Outcome Books Movement
  | none, _ => books.idle
  | some c, named => books.call c (named c rfl)

/-- A batch is queued for the writer. -/
def recordLedgerMinute (i : ℕ) : Outcome Books Movement :=
  if h : i < books.stage.batches.length then
    { state := { books with
        stage := { books.stage with batches := books.stage.batches.eraseIdx i }
        written := ⟨books.written.aligned, books.written.named,
          fun batch hbatch => books.written.batches batch (List.mem_of_mem_eraseIdx hbatch)⟩
        channel := books.channel ++ [.ledger (books.written.minute (List.getElem_mem h))] }
      outputs := []
      live := true }
  else books.idle

/-- Another write is queued. -/
def enqueue (write : StoreWrite) : Outcome Books Movement where
  state := { books with channel := books.channel ++ [write] }
  outputs := []
  live := true

/-- A turn of the writer. -/
def turn (receive : Bool) (retryFaults writeFaults : List Bool) : Outcome Books Movement :=
  let next := if receive then books.channel.head? else none
  let events := Turn.events { next, retryFaults, writeFaults }
  { state := { books with
      channel := if receive then books.channel.tail else books.channel
      writerLoop := (writer.process.run books.writerLoop events).state }
    outputs := ((writer.process.collect writer.overflow books.writerLoop events).flatMap
      StoreWrite.filings).map .lost
    live := true }

/-- A stats DB that does not open stops the boot. -/
def restart (wallNow : ℕ) (faults : List Bool) : Outcome Books Movement :=
  let opened := openStore.run ⟨books.writerLoop.store.db, .default, faults⟩
  { state :=
      { up := opened.1.isOk
        stage := .new wallNow
        written := .new wallNow
        channel := []
        writerLoop := startWriter opened.2.db }
    outputs := books.held.map .lost
    live := true }

/-- What a service does. -/
def serve : Service → Outcome Books Movement
  | .report event known now named => books.report (event.ledgerCall known now) named
  | .flushLedgerAt now => books.call (.flushLedgerAt now) nofun
  | .flushLedgerPartial => books.call .flushLedgerPartial nofun
  | .recordLedgerMinute i => books.recordLedgerMinute i
  | .enqueue write _ => books.enqueue write
  | .turn receive retryFaults writeFaults => books.turn receive retryFaults writeFaults

/-- What an event does; a process that is down does nothing. -/
def step : Event → Outcome Books Movement
  | .serve service => if books.up then books.serve service else books.idle
  | .restart wallNow faults => books.restart wallNow faults

/-- The books as a process. -/
def process : Process Books Event Movement where
  step := step

/-! ## The accumulator -/

end Books

/-- A share adds its amounts to those of the names that meet a condition, unless they no longer
fit. -/
theorem LedgerAccum.sum_add {accum : LedgerAccum} {worker : Str} {amounts : LedgerPending}
    (h : (amountsOf worker accum.pending + amounts).Fits) (p : Str → Prop) [DecidablePred p] :
    ((accum.add worker amounts).pending.map fun e => if p e.worker then e.toLedgerPending
      else 0).sum =
      (accum.pending.map fun e => if p e.worker then e.toLedgerPending else 0).sum +
        if p worker then amounts else 0 := by
  have hnew : LedgerPending.saturatingAdd 0 amounts = amounts := by
    have hfits : (0 + amounts).Fits := by
      rw [zero_add]
      rw [add_comm] at h
      exact h.of_add
    rw [hfits.saturatingAdd, zero_add]
  unfold LedgerAccum.add
  rw [hnew, sum_upsert]
  intro e he hworker
  change e.worker = worker at hworker
  have hsum : e.toLedgerPending.saturatingAdd amounts = e.toLedgerPending + amounts := by
    obtain ⟨rest, hrest⟩ := exists_amountsOf_eq he
    rw [hworker] at hrest
    rw [hrest, add_right_comm] at h
    exact h.of_add.saturatingAdd
  by_cases hp : p worker
  · simp only [hworker, hp, if_true]
    exact hsum
  · simp only [hworker, hp, if_false]
    rfl

namespace LedgerStage

variable {stage stage' : LedgerStage}

theorem Flushed.pending (h : stage.Flushed stage') :
    stage'.accum.pending = stage.accum.pending ∨ stage'.accum.pending = [] := by
  cases h with
  | moved | kept => exact .inl rfl
  | handed => exact .inr rfl

theorem Flushed.exists_pending (h : stage.Flushed stage') (worker : Str) :
    ∃ gone, amountsOf worker stage'.accum.pending + gone =
      amountsOf worker stage.accum.pending := by
  rcases h.pending with hsame | hnone
  · exact ⟨0, by rw [hsame, add_zero]⟩
  · exact ⟨_, by rw [hnone, amountsOf_nil, zero_add]⟩

/-- A share is filed under the open minute, among the filings of the stage. -/
theorem filedAmounts_add {worker : Str} {amounts : LedgerPending}
    (h : (amountsOf worker stage.accum.pending + amounts).Fits) (key : Str × Str) (hour : ℕ) :
    filedAmounts key hour
        { stage with accum := stage.accum.add worker amounts : LedgerStage }.stamped =
      filedAmounts key hour stage.stamped +
        filedAmounts key hour [(stage.accum.minuteTs, { amounts with worker })] := by
  have hpending : ∀ pending : List LedgerEntry,
      filedAmounts key hour (pending.map (stage.accum.minuteTs, ·)) =
        (pending.map fun e => if key = splitWorker e.worker ∧
          stage.accum.minuteTs / 3600 = hour then
          e.toLedgerPending else 0).sum := by
    intro pending
    rw [filedAmounts, List.map_map]
    rfl
  have hadd := LedgerAccum.sum_add h
    fun name => key = splitWorker name ∧ stage.accum.minuteTs / 3600 = hour
  rw [← hpending, ← hpending] at hadd
  rw [stamped, stamped, filedAmounts_append, filedAmounts_append, add_assoc]
  refine congrArg (filedAmounts key hour _ + ·) (hadd.trans (congrArg (_ + ·) ?_))
  rw [filedAmounts, List.map_singleton, List.sum_singleton]
  rfl

end LedgerStage

/-- A call moves amounts within the stage, and files its share there. -/
theorem LedgerCall.step_filed (call : LedgerCall) (stage : LedgerStage)
    (hfits : ∀ worker,
      (amountsOf worker stage.accum.pending + amountsOf worker call.entry.toList).Fits) :
    (∀ worker, ∃ gone, amountsOf worker (call.step stage).accum.pending + gone =
      amountsOf worker stage.accum.pending + amountsOf worker call.entry.toList) ∧
    ∀ key hour, filedAmounts key hour (call.step stage).stamped =
      filedAmounts key hour stage.stamped +
        filedAmounts key hour (call.entry.map ((call.step stage).accum.minuteTs, ·)).toList := by
  -- a flush files nothing
  have hflush : ∀ {stage'}, stage.Flushed stage' → (∀ worker, ∃ gone,
      amountsOf worker stage'.accum.pending + gone = amountsOf worker stage.accum.pending + 0) ∧
      ∀ key hour, filedAmounts key hour stage'.stamped =
        filedAmounts key hour stage.stamped + 0 := by
    intro stage' hflushed
    refine ⟨fun worker => ?_, fun key hour => ?_⟩
    · rw [add_zero]
      exact hflushed.exists_pending worker
    · rw [hflushed.stamped_eq, add_zero]
  cases call with
  | flushLedgerPartial => exact hflush stage.flushed_flushLedgerPartial.1
  | flushLedgerAt now => exact hflush (stage.flushed_flushLedgerAt now).1
  | recordLedger known worker amounts now =>
    cases known with
    | false => exact hflush .kept
    | true =>
      obtain ⟨hflushed, -⟩ := stage.flushed_flushLedgerAt now
      have hentry : (LedgerCall.recordLedger true worker amounts now).entry.toList =
          [{ amounts with worker }] := rfl
      rw [hentry] at hfits ⊢
      have hroom : (amountsOf worker (stage.flushLedgerAt now).accum.pending + amounts).Fits := by
        obtain ⟨gone, hgone⟩ := hflushed.exists_pending worker
        have hall := hfits worker
        rw [amountsOf_cons, if_pos rfl, amountsOf_nil, add_zero, ← hgone, add_right_comm] at hall
        exact hall.of_add
      refine ⟨fun other => ?_, fun key hour => ?_⟩
      · obtain ⟨gone, hgone⟩ := hflushed.exists_pending other
        refine ⟨gone, ?_⟩
        have hadd := LedgerAccum.amountsOf_add hroom other
        rw [← hgone, add_right_comm, ← hadd]
        rfl
      · rw [← hflushed.stamped_eq]
        exact LedgerStage.filedAmounts_add hroom key hour

/-! ## What a move does to the amounts -/

namespace Books

variable {books books' : Books} {moves : List Movement}

/-- A move keeps the ledger sound and the amounts where they can be accounted for: what the tables
have been given, what is held and what was lost make up what was held and what was filed. -/
structure Balanced (books books' : Books) (moves : List Movement) : Prop where
  kept : LedgerKept books'.writerLoop.store
  posted : ∃ posted, books.ledger.Counts books'.ledger posted ∧ ∀ key hour,
    posted key hour + filedAmounts key hour books'.held + filedAmounts key hour (lostIn moves) =
      filedAmounts key hour books.held + filedAmounts key hour (filedIn moves)

/-- A move that leaves the tables alone. -/
theorem Balanced.of_ledger_eq (h : LedgerKept books.writerLoop.store)
    (hledger : books'.ledger = books.ledger)
    (hcache : books'.writerLoop.store.state.workerIds = books.writerLoop.store.state.workerIds ∨
      books'.writerLoop.store.state.workerIds = [])
    (hamounts : ∀ key hour,
      filedAmounts key hour books'.held + filedAmounts key hour (lostIn moves) =
        filedAmounts key hour books.held + filedAmounts key hour (filedIn moves)) :
    Balanced books books' moves := by
  refine ⟨⟨?_, ?_⟩, 0, ?_, fun key hour => ?_⟩
  · change books'.ledger.Sound
    rw [hledger]
    exact h.sound
  · intro name id hlookup
    change books'.ledger.selectWorkerId _ _ = some id
    rw [hledger]
    rcases hcache with hcache | hcache <;> rw [hcache] at hlookup
    · exact h.cached name id hlookup
    · cases hlookup
  · rw [hledger]
    exact .refl _
  · have hzero : (0 : Str × Str → ℕ → LedgerPending) key hour = 0 := rfl
    rw [hzero, zero_add]
    exact hamounts key hour

theorem balanced_idle (h : LedgerKept books.writerLoop.store) :
    Balanced books books.idle.state [] :=
  .of_ledger_eq h rfl (.inl rfl) fun _ _ => rfl

theorem balanced_call (h : LedgerKept books.writerLoop.store) {call : LedgerCall}
    (named : ∀ e ∈ call.entry, (splitWorker e.worker).1 ≠ [])
    (hfits : ∀ worker,
      (amountsOf worker books.stage.accum.pending + amountsOf worker call.entry.toList).Fits) :
    Balanced books (books.call call named).state (books.call call named).outputs := by
  refine .of_ledger_eq h rfl (.inl rfl) fun key hour => ?_
  have hfiled := (call.step_filed books.stage hfits).2 key hour
  rw [Books.call, lostIn_filed, filedIn_filed, filedAmounts_nil, add_zero, held, held,
    filedAmounts_append, filedAmounts_append, hfiled, add_right_comm]

theorem balanced_recordLedgerMinute (h : LedgerKept books.writerLoop.store) (i : ℕ) :
    Balanced books (books.recordLedgerMinute i).state (books.recordLedgerMinute i).outputs := by
  unfold recordLedgerMinute
  split
  · rename_i hi
    refine .of_ledger_eq h rfl (.inl rfl) fun key hour => congrArg (· + _) ?_
    -- the batch taken out of the stage is now at the end of the channel
    have hbatch : filedAmounts key hour
          (books.stage.batches.flatMap fun batch => batch.2.map (batch.1, ·)) =
        filedAmounts key hour (books.stage.batches[i].2.map (books.stage.batches[i].1, ·)) +
          filedAmounts key hour
            ((books.stage.batches.eraseIdx i).flatMap fun batch => batch.2.map (batch.1, ·)) := by
      rw [← filedAmounts_append]
      exact filedAmounts_perm ((List.getElem_cons_eraseIdx_perm hi).symm.flatMap_right _)
    simp only [held, LedgerStage.stamped, List.flatMap_append, List.flatMap_singleton,
      filedAmounts_append, hbatch, StoreWrite.filings, LedgerStage.Written.minute]
    abel
  · exact balanced_idle h

theorem balanced_enqueue (h : LedgerKept books.writerLoop.store) {write : StoreWrite}
    (hother : ∀ minute, write ≠ .ledger minute) :
    Balanced books (books.enqueue write).state (books.enqueue write).outputs := by
  refine .of_ledger_eq h rfl (.inl rfl) fun key hour => congrArg (· + _) ?_
  have hnothing : write.filings = [] := by
    cases write with
    | ledger minute => exact absurd rfl (hother minute)
    | _ => rfl
  simp [held, enqueue, hnothing]

theorem counts_attempt {ledger : ShareLedger} {outs : List StoreWrite} {w : StoreWrite}
    {store store' : Store} {f f' : List Bool} {b : Bool}
    (h : LedgerKept store ∧
      ledger.Counts store.db.ledger fun key hour => (outs.map (amountsOfWrite key hour)).sum)
    (ht : tryWrite w store f = (b, store', f')) :
    LedgerKept store' ∧ ledger.Counts store'.db.ledger fun key hour =>
      ((outs ++ if b then [w] else []).map (amountsOfWrite key hour)).sum := by
  obtain ⟨hkept, hwrite⟩ := tryWrite_counts h.1 ht
  refine ⟨hkept, (h.2.trans hwrite).congr fun key hour => ?_⟩
  rw [List.map_append, List.sum_append, Pi.add_apply, Pi.add_apply]
  cases b <;> simp

/-- The tables count what the writer applies. -/
theorem counts_rule (ledger : ShareLedger) :
    writer.Rule (fun _ _ => True) fun _ outs _ store => LedgerKept store ∧
      ledger.Counts store.db.ledger fun key hour => (outs.map (amountsOfWrite key hour)).sum where
  recovered h ht := counts_attempt h ht
  refused h ht := by simpa using counts_attempt h ht
  applied _ h ht := counts_attempt h ht
  parked _ h ht _ := by simpa using counts_attempt h ht
  dropped _ h ht _ := by simpa using counts_attempt h ht

theorem amountsOfWrite_of_not_durable {key : Str × Str} {hour : ℕ} {w : StoreWrite}
    (hw : ¬ writer.durable w) : amountsOfWrite key hour w = 0 := by
  cases w with
  | ledger minute => exact absurd rfl hw
  | _ => rfl

/-- The writer goes on with a part of the channel. -/
theorem balanced_run (h : LedgerKept books.writerLoop.store) {events : List WriterEvent}
    {channel : List StoreWrite} (hchannel : received events ++ channel = books.channel) :
    Balanced books
      { books with channel, writerLoop := (writer.process.run books.writerLoop events).state }
      (((writer.process.collect writer.overflow books.writerLoop events).flatMap
        StoreWrite.filings).map .lost) := by
  have hany : writer.process.Meets (fun _ _ => True) books.writerLoop events :=
    Process.meets_of_forall (fun _ _ _ => trivial) _
  obtain ⟨hkept, hcounts⟩ := (counts_rule books.ledger).run hany ⟨h, .refl _⟩
  refine ⟨hkept, _, hcounts, fun key hour => ?_⟩
  have hsum := Writer.sum_run (m := amountsOfWrite key hour)
    (fun w => amountsOfWrite_of_not_durable) books.writerLoop events
  simp only [sum_amountsOfWrite] at hsum
  simp only [sum_amountsOfWrite, held, ← hchannel, lostIn_lost, filedIn_lost, filedAmounts_nil,
    List.flatMap_append, filedAmounts_append, add_zero]
  generalize filedAmounts key hour (List.flatMap _ channel) = sent at *
  generalize filedAmounts key hour (List.flatMap _ (received events)) = taken at *
  calc _ = filedAmounts key hour books.stage.stamped + sent + (_ + _ + _) := ?_
    _ = filedAmounts key hour books.stage.stamped + sent + (_ + taken) := congrArg (_ + ·) hsum
    _ = _ := ?_
  · abel
  · abel

theorem received_turn (turn : Turn) : received turn.events = turn.next.toList := by
  cases hnext : turn.next <;> simp [Turn.events, hnext]

theorem head?_append_tail (receive : Bool) (channel : List StoreWrite) :
    (if receive then channel.head? else none).toList ++
      (if receive then channel.tail else channel) = channel := by
  cases receive with
  | false => rfl
  | true => cases channel <;> rfl

theorem balanced_turn (h : LedgerKept books.writerLoop.store) (receive : Bool)
    (retryFaults writeFaults : List Bool) :
    Balanced books (books.turn receive retryFaults writeFaults).state
      (books.turn receive retryFaults writeFaults).outputs := by
  refine balanced_run h ?_
  rw [received_turn]
  exact head?_append_tail receive books.channel

/-- Opening a file touches the tables of the round only. -/
theorem openStore_ledger (db : Database) (faults : List Bool) :
    (openStore.run ⟨db, .default, faults⟩).2.db.ledger = db.ledger := by
  have hopen : openStore.Ends db .default (fun _ db' _ => db'.ledger = db.ledger)
      (fun _ db' _ => db'.ledger = db.ledger) := by
    refine .bind (.query rfl (.bind (.query rfl (.bind ?_))))
    have hreconciled : (reconcileRound (lastWin db.foundBlocks) db.round.stats.sinceTs).Ends db
        WriterState.default (fun _ db' _ => db'.ledger = db.ledger)
        (fun _ db' _ => db'.ledger = db.ledger) := by
      unfold reconcileRound
      cases lastWin db.foundBlocks with
      | none => exact .pure rfl
      | some winTs =>
        dsimp only
        split
        · refine (applyRoundReset_ends winTs).mono ?_ ?_
          · rintro _ _ _ ⟨rfl, -⟩
            rfl
          · rintro _ _ _ ⟨-, rfl, -⟩
            rfl
        · exact .pure rfl
    refine hreconciled.mono ?_ fun _ _ _ he => he
    intro _ db' _ hdb'
    exact .ignore (.execute hdb' hdb')
  have hmet := hopen faults
  rcases hrun : openStore.run ⟨db, .default, faults⟩ with ⟨e | a, c⟩ <;> rw [hrun] at hmet
  · exact hmet
  · exact hmet

theorem balanced_restart (h : LedgerKept books.writerLoop.store) (wallNow : ℕ)
    (faults : List Bool) :
    Balanced books (books.restart wallNow faults).state (books.restart wallNow faults).outputs := by
  refine .of_ledger_eq h (openStore_ledger _ faults) (.inr rfl) fun key hour => ?_
  have hempty : (books.restart wallNow faults).state.held = [] := rfl
  have hlost : (books.restart wallNow faults).outputs = books.held.map .lost := rfl
  rw [hempty, hlost, lostIn_lost, filedIn_lost, filedAmounts_nil, zero_add, add_zero]

/-! ## One move -/

/-- What is pending is a part of what was filed. -/
def Staged (books : Books) (filed : List Filing) : Prop :=
  ∀ worker, ∃ rest, amountsOf worker books.stage.accum.pending + rest =
    amountsOf worker (filed.map Prod.snd)

/-- No worker's amounts exceed the machine's numbers. -/
def AllFit (filed : List Filing) : Prop :=
  ∀ worker, (amountsOf worker (filed.map Prod.snd)).Fits

theorem AllFit.of_append {filed filed' : List Filing} (h : AllFit (filed ++ filed')) :
    AllFit filed := by
  intro worker
  have hall := h worker
  rw [List.map_append, amountsOf_append] at hall
  exact hall.of_add

theorem step_call {filed : List Filing} (h : LedgerKept books.writerLoop.store)
    (hstaged : books.Staged filed) (call : LedgerCall)
    (named : ∀ e ∈ call.entry, (splitWorker e.worker).1 ≠ [])
    (hfits : AllFit (filed ++ filedIn (books.call call named).outputs)) :
    (books.call call named).state.Staged (filed ++ filedIn (books.call call named).outputs) ∧
      Balanced books (books.call call named).state (books.call call named).outputs := by
  have hfiled : (filedIn (books.call call named).outputs).map Prod.snd = call.entry.toList := by
    rw [Books.call, filedIn_filed]
    cases call.entry <;> rfl
  have hroom : ∀ worker,
      (amountsOf worker books.stage.accum.pending + amountsOf worker call.entry.toList).Fits := by
    intro worker
    obtain ⟨rest, hrest⟩ := hstaged worker
    have hall := hfits worker
    rw [List.map_append, amountsOf_append, hfiled, ← hrest, add_right_comm] at hall
    exact hall.of_add
  refine ⟨fun worker => ?_, balanced_call h named hroom⟩
  obtain ⟨gone, hgone⟩ := (call.step_filed books.stage hroom).1 worker
  obtain ⟨rest, hrest⟩ := hstaged worker
  refine ⟨gone + rest, ?_⟩
  rw [List.map_append, amountsOf_append, hfiled, ← hrest, ← add_assoc,
    add_right_comm _ rest, ← hgone]
  rfl

/-- Where the accumulator is left alone. -/
theorem Staged.of_pending {filed filed' : List Filing} (h : books.Staged filed)
    (hpending : books'.stage.accum.pending = books.stage.accum.pending ∨
      books'.stage.accum.pending = []) : books'.Staged (filed ++ filed') := by
  intro worker
  obtain ⟨rest, hrest⟩ := h worker
  rw [List.map_append, amountsOf_append]
  rcases hpending with hsame | hnone
  · refine ⟨rest + amountsOf worker (filed'.map Prod.snd), ?_⟩
    rw [hsame, ← add_assoc, hrest]
  · rw [hnone, amountsOf_nil]
    exact ⟨_, zero_add _⟩

theorem step_balanced {filed : List Filing} (h : LedgerKept books.writerLoop.store)
    (hstaged : books.Staged filed) (event : Event)
    (hfits : AllFit (filed ++ filedIn (books.step event).outputs)) :
    (books.step event).state.Staged (filed ++ filedIn (books.step event).outputs) ∧
      Balanced books (books.step event).state (books.step event).outputs := by
  have hidle : books.idle.state.Staged (filed ++ filedIn books.idle.outputs) ∧
      Balanced books books.idle.state books.idle.outputs :=
    ⟨hstaged.of_pending (.inl rfl), balanced_idle h⟩
  cases event with
  | restart wallNow faults =>
    exact ⟨hstaged.of_pending (.inr rfl), balanced_restart h wallNow faults⟩
  | serve service =>
    rw [step] at hfits ⊢
    by_cases hup : books.up
    · rw [if_pos hup] at hfits ⊢
      cases service with
      | report event known now named =>
        rw [serve] at hfits ⊢
        generalize event.ledgerCall known now = call at named hfits ⊢
        cases call with
        | none => exact hidle
        | some call => exact step_call h hstaged call (named call rfl) hfits
      | flushLedgerAt now => exact step_call h hstaged (.flushLedgerAt now) nofun hfits
      | flushLedgerPartial => exact step_call h hstaged .flushLedgerPartial nofun hfits
      | recordLedgerMinute i =>
        refine ⟨hstaged.of_pending (.inl ?_), balanced_recordLedgerMinute h i⟩
        rw [serve, recordLedgerMinute]
        split <;> rfl
      | enqueue write other => exact ⟨hstaged.of_pending (.inl rfl), balanced_enqueue h other⟩
      | turn receive retryFaults writeFaults =>
        exact ⟨hstaged.of_pending (.inl rfl), balanced_turn h receive retryFaults writeFaults⟩
    · rw [if_neg hup] at hfits ⊢
      exact hidle

/-! ## Whole runs -/

theorem live_step (event : Event) : (books.step event).live := by
  cases event with
  | restart wallNow faults => rfl
  | serve service =>
    rw [step]
    split
    · cases service with
      | report event known now named =>
        rw [serve]
        generalize event.ledgerCall known now = call at named
        cases call <;> rfl
      | recordLedgerMinute i =>
        rw [serve, recordLedgerMinute]
        split <;> rfl
      | _ => rfl
    · rfl

/-- The account of a run that began with a file no process had open. -/
structure Accounted (ledger : ShareLedger) (moves : List Movement) (books : Books) : Prop where
  staged : books.Staged (filedIn moves)
  kept : LedgerKept books.writerLoop.store
  posted : ∃ posted, ledger.Counts books.ledger posted ∧ ∀ key hour,
    posted key hour + filedAmounts key hour books.held + filedAmounts key hour (lostIn moves) =
      filedAmounts key hour (filedIn moves)

theorem Accounted.step {ledger : ShareLedger} (h : Accounted ledger moves books) (event : Event)
    (hfits : AllFit (filedIn (moves ++ (books.step event).outputs))) :
    Accounted ledger (moves ++ (books.step event).outputs) (books.step event).state := by
  rw [filedIn_append] at hfits
  obtain ⟨hstaged, hkept, posted', hcounts', hamounts'⟩ := step_balanced h.kept h.staged event hfits
  obtain ⟨posted, hcounts, hamounts⟩ := h.posted
  refine ⟨?_, hkept, _, hcounts.trans hcounts', fun key hour => ?_⟩
  · rw [filedIn_append]
    exact hstaged
  · have hnow := hamounts' key hour
    have hpast := hamounts key hour
    rw [filedIn_append, lostIn_append, filedAmounts_append, filedAmounts_append, ← hpast,
      Pi.add_apply, Pi.add_apply]
    calc _ = posted key hour + filedAmounts key hour (lostIn moves) + (_ + _ + _) := ?_
      _ = posted key hour + filedAmounts key hour (lostIn moves) + (_ + _) :=
        congrArg (_ + ·) hnow
      _ = _ := ?_
    · abel
    · abel

theorem accounted_run {db : Database} (hdb : db.ledger.Sound) (events : List Event)
    (hfits : AllFit (filedIn (process.run (down db) events).outputs)) :
    Accounted db.ledger (process.run (down db) events).outputs
      (process.run (down db) events).state := by
  have hmeets : process.Meets (fun _ _ => True) (down db) events :=
    Process.meets_of_forall (fun _ _ _ => trivial) _
  have hrun := Process.run_invariant
    (P := fun moves books => AllFit (filedIn moves) → Accounted db.ledger moves books)
    (Q := fun _ => True) (fun _ => trivial) ?_ ?_ hmeets
  · exact hrun.2 (Process.live_run (fun _ event => live_step event) _ _) hfits
  · intro moves books event h _
    refine ⟨fun _ hfits => ?_, trivial⟩
    have hpast : AllFit (filedIn moves) := by
      rw [filedIn_append] at hfits
      exact hfits.of_append
    exact (h hpast).step event hfits
  · intro _
    refine ⟨fun worker => ⟨0, rfl⟩, .start hdb, 0, .refl _, fun _ _ => rfl⟩

/-- At every moment of every run, whatever the tasks, the disk and the stops of the process do, the
amounts of a worker that is admitted to the table of workers are those that were in the tables, and
of the shares filed those that are neither on their way nor lost with the process's memory or the
backlog's overflow; and no worker row is made past the bound. -/
theorem shares_accounted {db : Database} (hdb : db.ledger.Sound) (events : List Event)
    (hfits : AllFit (filedIn (process.run (down db) events).outputs)) :
    let run := process.run (down db) events
    run.state.ledger.workers.length ≤ max db.ledger.workers.length maxLedgerWorkers ∧
      ∀ key, run.state.ledger.Admits key → ∀ hour,
        run.state.ledger.hourSum key hour + filedAmounts key hour run.state.held +
            filedAmounts key hour (lostIn run.outputs) =
          db.ledger.hourSum key hour + filedAmounts key hour (filedIn run.outputs) := by
  intro run
  obtain ⟨posted, hcounts, hamounts⟩ := (accounted_run hdb events hfits).posted
  refine ⟨hcounts.bounded, fun key hkey hour => ?_⟩
  rw [hcounts.sums key hkey, ← hamounts, add_assoc, add_assoc, add_assoc]

/-- A share is accepted, its minute fails and is parked, and a second share is lost with the process
before the first is tried again. -/
def regtestEvents : List Event :=
  [.restart 0 [],
    .serve (.report (.accepted "s1".toList "w.rig".toList 5 9) true 10 (by decide)),
    .serve (.flushLedgerAt 70), .serve (.recordLedgerMinute 0), .serve (.turn true [] [true]),
    .serve (.turn false [] []),
    .serve (.report (.rejected "w.rig".toList .stale) true 80 (by decide)), .restart 90 []]

theorem shares_accounted_regtest :
    let run := process.run (down (.create 0)) regtestEvents
    run.state.ledger.hourSum ("w".toList, "rig".toList) 0 +
        filedAmounts ("w".toList, "rig".toList) 0 (lostIn run.outputs) = ⟨5, 1, 1⟩ := by
  have hfiled : (filedIn (process.run (down (.create 0)) regtestEvents).outputs).map Prod.snd =
      [⟨⟨5, 1, 0⟩, "w.rig".toList⟩, ⟨⟨0, 0, 1⟩, "w.rig".toList⟩] := rfl
  have hfits : AllFit (filedIn (process.run (down (.create 0)) regtestEvents).outputs) := by
    intro worker
    rw [hfiled]
    by_cases hworker : "w.rig".toList = worker
    · subst hworker
      exact ⟨by decide, by decide, by decide⟩
    · simp only [amountsOf_cons, amountsOf_nil, if_neg hworker, add_zero]
      exact ⟨by decide, by decide, by decide⟩
  obtain ⟨-, hsum⟩ := shares_accounted ShareLedger.sound_empty regtestEvents hfits
  have hadmits : (process.run (down (.create 0)) regtestEvents).state.ledger.Admits
      ("w".toList, "rig".toList) := .inr (by decide +kernel)
  have hheld : filedAmounts ("w".toList, "rig".toList) 0
      (process.run (down (.create 0)) regtestEvents).state.held = 0 := by decide +kernel
  have hall := hsum _ hadmits 0
  rw [hheld, add_zero] at hall
  exact hall.trans (by decide +kernel)

end Books

end Stats

end BtcPool
