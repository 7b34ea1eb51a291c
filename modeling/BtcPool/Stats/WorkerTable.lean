import BtcPool.Stats.Recovery

/-!
# The table of workers when it is full

A worker row is permanent, so the writer makes no more than `MAX_LEDGER_WORKERS` of them: a name
without a row that comes when the table is full gets none, and its amounts are left out.

`ShareLedger.Counts` says what a write comes to without knowing how many names are in use: it makes
no row past the bound, and a name that is admitted after it (`ShareLedger.Admits`) was admitted
before, and has all of its amounts counted. The rows of `workers` are never deleted, so a name that
has one at the end was admitted all along.
-/

namespace BtcPool.Stats

open Rows Sqlite RetryQueue

/-! ## Names that are counted -/

namespace ShareLedger

variable {ledger ledger' ledger'' : ShareLedger} {amounts amounts' : Str × Str → ℕ → LedgerPending}

/-- The name has a row, or the table has room for one. -/
def Admits (ledger : ShareLedger) (key : Str × Str) : Prop :=
  ledger.selectWorkerId key.1 key.2 ≠ none ∨ ledger.workers.length < maxLedgerWorkers

/-- The ledger has come to another one by counting amounts: no row was made past the bound, no name
was newly admitted, and the names still admitted have their amounts. -/
structure Counts (ledger ledger' : ShareLedger) (amounts : Str × Str → ℕ → LedgerPending) :
    Prop where
  bounded : ledger'.workers.length ≤ max ledger.workers.length maxLedgerWorkers
  admits : ∀ key, ledger'.Admits key → ledger.Admits key
  sums : ∀ key, ledger'.Admits key → ∀ hour,
    ledger'.hourSum key hour = ledger.hourSum key hour + amounts key hour

theorem Counts.refl (ledger : ShareLedger) : ledger.Counts ledger 0 :=
  ⟨le_max_left _ _, fun _ h => h, fun _ _ _ => (add_zero _).symm⟩

theorem Counts.trans (h : ledger.Counts ledger' amounts) (h' : ledger'.Counts ledger'' amounts') :
    ledger.Counts ledger'' (amounts + amounts') := by
  refine ⟨?_, fun key hkey => h.admits key (h'.admits key hkey), fun key hkey hour => ?_⟩
  · have hfirst := h.bounded
    have hlast := h'.bounded
    omega
  · rw [h'.sums key hkey, h.sums key (h'.admits key hkey), add_assoc]
    rfl

theorem Counts.congr (h : ledger.Counts ledger' amounts)
    (heq : ∀ key hour, amounts key hour = amounts' key hour) : ledger.Counts ledger' amounts' :=
  ⟨h.bounded, h.admits, fun key hkey hour => heq key hour ▸ h.sums key hkey hour⟩

/-- A change that leaves the names alone. -/
theorem Counts.of_same (hlength : ledger'.workers.length = ledger.workers.length)
    (hselect : ∀ key : Str × Str,
      ledger'.selectWorkerId key.1 key.2 = ledger.selectWorkerId key.1 key.2)
    (hsums : ∀ key, ledger'.Admits key → ∀ hour,
      ledger'.hourSum key hour = ledger.hourSum key hour + amounts key hour) :
    ledger.Counts ledger' amounts := by
  refine ⟨hlength ▸ le_max_left _ _, fun key hkey => ?_, hsums⟩
  rw [Admits, ← hselect, ← hlength]
  exact hkey

/-- A name gets a row while there is room. -/
theorem Registered.counts {key : Str × Str} {id : ℕ} (h : Registered ledger ledger' key id)
    (hs : ledger.Sound) (hnone : ledger.selectWorkerId key.1 key.2 = none)
    (hroom : ledger.workers.length < maxLedgerWorkers) : ledger.Counts ledger' 0 := by
  have hlength : ledger'.workers.length = ledger.workers.length + 1 := by
    simpa using congrArg List.length h.ids
  refine ⟨by omega, fun _ _ => .inr hroom, fun k _ hour => ?_⟩
  rw [h.hourSum hs hnone]
  exact (add_zero _).symm

end ShareLedger

/-- The ledger is sound and the cached ids are those of the tables. -/
structure LedgerKept (store : Store) : Prop where
  sound : store.db.ledger.Sound
  cached : ∀ name id, store.state.workerIds.lookup name = some id →
    store.db.ledger.selectWorkerId (splitWorker name).1 (splitWorker name).2 = some id

theorem LedgerKept.start {db : Database} (h : db.ledger.Sound) : LedgerKept ⟨db, .default⟩ :=
  ⟨h, fun _ _ hlookup => by cases hlookup⟩

section Minute

variable {db : Database} {state : WriterState}

/-! ## The row of a name -/

theorem ShareLedger.length_insertWorker_le (ledger : ShareLedger) (address label : Str) (now : ℕ) :
    (ledger.insertWorker address label now).workers.length ≤ ledger.workers.length + 1 := by
  unfold ShareLedger.insertWorker
  cases ledger.users.find? fun u => u.payoutAddress = address with
  | none => exact Nat.le_succ _
  | some user =>
    dsimp only
    rcases insertOrIgnore_cases (fun w : WorkerRow => (w.userId, w.label))
      { id := ShareLedger.nextId (ledger.workers.map WorkerRow.id)
        userId := user.id
        label
        firstSeenTs := now } ledger.workers with ⟨-, hsame⟩ | ⟨-, hnew⟩
    · rw [hsame]
      exact Nat.le_succ _
    · rw [hnew, List.length_append, List.length_singleton]

/-- No row is made when the table is full. -/
theorem resolveWorkerId_bounded (db : Database) (state : WriterState) (name : Str) (now : ℕ) :
    (resolveWorkerId name now).Ends db state
      (fun _ db' _ => db'.ledger.workers.length ≤ max db.ledger.workers.length maxLedgerWorkers)
      (fun _ _ _ => True) := by
  refine .bind (.optional (.queryRow (by simp) (fun {id} _ => ?_) fun _ => ?_))
  · exact .pure (le_max_left _ _)
  · rw [if_pos rfl]
    refine .bind (.query trivial ?_)
    by_cases hfull : maxLedgerWorkers ≤ db.ledger.workers.length
    · rw [if_pos hfull]
      exact .pure (le_max_left _ _)
    · rw [if_neg hfull]
      refine .bind (.execute trivial (.bind (.execute trivial (.bind (.queryRow trivial ?_ ?_)))))
      · intro id _
        refine .pure ?_
        have hle := ((db.ledger.insertUser (splitWorker name).1 now).length_insertWorker_le
          (splitWorker name).1 (splitWorker name).2 now)
        rw [ShareLedger.workers_insertUser] at hle
        exact hle.trans (by omega)
      · exact fun _ => trivial

/-- Asking for a row changes no sum; the name has the row it gets, and is not admitted if it gets
none. -/
theorem Resolved.kept (h : LedgerKept ⟨db, state⟩) {name : Str} {r : Option ℕ} {db' : Database}
    (hr : Resolved db.ledger (splitWorker name) r db'.ledger)
    (hbounded : db'.ledger.workers.length ≤ max db.ledger.workers.length maxLedgerWorkers) :
    LedgerKept ⟨db', state⟩ ∧ db.ledger.Counts db'.ledger 0 ∧
      db'.ledger.selectWorkerId (splitWorker name).1 (splitWorker name).2 = r ∧
      (r = none → ¬ db'.ledger.Admits (splitWorker name)) := by
  have hcached := h.cached
  have hsound := h.sound
  dsimp only at hcached hsound
  suffices hledger : ∀ ledger', Resolved db.ledger (splitWorker name) r ledger' →
      ledger'.workers.length ≤ max db.ledger.workers.length maxLedgerWorkers →
      (ledger'.Sound ∧ ∀ name id, state.workerIds.lookup name = some id →
        ledger'.selectWorkerId (splitWorker name).1 (splitWorker name).2 = some id) ∧
      db.ledger.Counts ledger' 0 ∧
      ledger'.selectWorkerId (splitWorker name).1 (splitWorker name).2 = r ∧
      (r = none → ¬ ledger'.Admits (splitWorker name)) by
    obtain ⟨hkept, hrest⟩ := hledger _ hr hbounded
    exact ⟨⟨hkept.1, hkept.2⟩, hrest⟩
  intro ledger' hr hbounded
  cases hr with
  | found hselect => exact ⟨⟨hsound, hcached⟩, .refl _, hselect, nofun⟩
  | full hnone hfull =>
    refine ⟨⟨hsound, hcached⟩, .refl _, hnone, fun _ hadmits => ?_⟩
    rcases hadmits with hrow | hroom
    · exact hrow hnone
    · omega
  | made hnone hreg =>
    have hlength : ledger'.workers.length = db.ledger.workers.length + 1 := by
      simpa using congrArg List.length hreg.ids
    refine ⟨⟨hreg.sound, fun other otherId hlookup => ?_⟩,
      hreg.counts hsound hnone (by omega), hreg.select, nofun⟩
    have hsel := hcached other otherId hlookup
    have hne : splitWorker other ≠ splitWorker name := by
      intro heq
      rw [heq, hnone] at hsel
      cases hsel
    exact (hreg.others _ hne).trans hsel

theorem cachedWorkerId_kept (h : LedgerKept ⟨db, state⟩) {name : Str}
    (hnamed : (splitWorker name).1 ≠ []) (now : ℕ) :
    (cachedWorkerId name now).Ends db state
      (fun r db' state' => LedgerKept ⟨db', state'⟩ ∧ db.ledger.Counts db'.ledger 0 ∧
        db'.ledger.selectWorkerId (splitWorker name).1 (splitWorker name).2 = r ∧
        (r = none → ¬ db'.ledger.Admits (splitWorker name)))
      (fun e _ _ => e = .failure) := by
  refine .bind (.readMemory ?_)
  cases hlookup : state.workerIds.lookup name with
  | some id => exact .pure ⟨h, .refl _, h.cached name id hlookup, nofun⟩
  | none =>
    refine .bind (((resolveWorkerId_ends h.sound hnamed now).and
      (resolveWorkerId_bounded db state name now)).mono ?_ fun _ _ _ he => he.1)
    rintro r db' state' ⟨⟨rfl, hresolved⟩, hbounded⟩
    obtain ⟨hkept, hcounts, hsel, hnone⟩ := hresolved.kept h hbounded
    cases r with
    | none => exact .pure ⟨hkept, hcounts, hsel, hnone⟩
    | some id =>
      refine .bind (.modifyMemory (.pure ⟨⟨hkept.sound, ?_⟩, hcounts, hsel, nofun⟩))
      intro other otherId hother
      rw [List.lookup_cons] at hother
      by_cases heq : other = name
      · subst heq
        obtain rfl : id = otherId := by simpa using hother
        exact hsel
      · have hbeq : (other == name) = false := by simp [heq]
        rw [hbeq] at hother
        exact hkept.cached other otherId hother

/-! ## A minute -/

theorem ShareLedger.Counts.insertInterval {ledger : ShareLedger} (hs : ledger.Sound)
    (row : ShareInterval) {key : Str × Str}
    (hid : ledger.selectWorkerId key.1 key.2 = some row.workerId) :
    ledger.Counts (ledger.insertInterval row) fun k hour =>
      if k = key ∧ row.ts / 3600 = hour then row.toLedgerPending else 0 :=
  .of_same rfl (fun _ => rfl) fun k _ hour => ShareLedger.hourSum_insertInterval hs hid k hour

/-- An entry whose name is not admitted adds nothing to the names that are. -/
theorem ShareLedger.Counts.skip {ledger : ShareLedger} {entry : LedgerEntry}
    (h : ¬ ledger.Admits (splitWorker entry.worker)) (minuteTs : ℕ) :
    ledger.Counts ledger fun key hour => entryAmounts minuteTs key hour entry := by
  refine .of_same rfl (fun _ => rfl) fun key hkey hour => ?_
  have hne : key ≠ splitWorker entry.worker := by
    rintro rfl
    exact h hkey
  rw [entryAmounts, if_neg fun heq => hne heq.1, add_zero]

theorem writeEntries_counts {minuteTs : ℕ} (haligned : minuteTs % ledgerIntervalSecs = 0)
    {entries : List LedgerEntry} (hnamed : ∀ e ∈ entries, (splitWorker e.worker).1 ≠ [])
    (h : LedgerKept ⟨db, state⟩) :
    (writeEntries minuteTs entries).Ends db state
      (fun _ db' state' => LedgerKept ⟨db', state'⟩ ∧ db.ledger.Counts db'.ledger
        fun key hour => (entries.map (entryAmounts minuteTs key hour)).sum)
      (fun e _ _ => e = .failure) := by
  induction entries generalizing db state with
  | nil => exact .pure ⟨h, .refl _⟩
  | cons entry entries ih =>
    refine .bind ((cachedWorkerId_kept h (hnamed entry (by simp)) minuteTs).mono ?_
      fun _ _ _ he => he)
    rintro r db₁ state₁ ⟨hkept, hcounts, hsel, hnone⟩
    have hrest : ∀ e ∈ entries, (splitWorker e.worker).1 ≠ [] := fun e he => hnamed e (by simp [he])
    cases r with
    | none =>
      refine (ih hrest hkept).mono ?_ fun _ _ _ he => he
      rintro _ db₂ state₂ ⟨hkept₂, hcounts₂⟩
      refine ⟨hkept₂, ?_⟩
      have hall := hcounts.trans ((ShareLedger.Counts.skip (hnone rfl) minuteTs).trans hcounts₂)
      rw [zero_add] at hall
      exact hall
    | some workerId =>
      obtain ⟨w, hw, hwid, -⟩ := ShareLedger.selectWorkerId_eq_some hsel
      refine .bind (.executeChecked rfl (fun _ => ?_) fun hbad => absurd ?_ hbad)
      · have hkept' : LedgerKept ⟨{ db₁ with
            ledger := db₁.ledger.insertInterval (entry.row workerId minuteTs) }, state₁⟩ :=
          ⟨hkept.sound.insertInterval ⟨w, hw, hwid⟩, hkept.cached⟩
        refine (ih hrest hkept').mono ?_ fun _ _ _ he => he
        rintro _ db₂ state₂ ⟨hkept₂, hcounts₂⟩
        refine ⟨hkept₂, ?_⟩
        have hrow := ShareLedger.Counts.insertInterval hkept.sound
          (entry.row workerId minuteTs) hsel
        have hall := hcounts.trans (hrow.trans hcounts₂)
        rw [zero_add] at hall
        exact hall
      · simp only [ShareLedger.intervalAllowed, Bool.and_eq_true, decide_eq_true_eq,
          List.any_eq_true]
        exact ⟨haligned, w, hw, hwid⟩

theorem rollUpLedger_counts (h : LedgerKept ⟨db, state⟩) (now : ℕ) :
    (rollUpLedger now).Ends db state
      (fun _ db' state' => LedgerKept ⟨db', state'⟩ ∧ db.ledger.Counts db'.ledger 0)
      (fun _ db' state' => LedgerKept ⟨db', state'⟩ ∧ db.ledger.Counts db'.ledger 0) := by
  refine (rollUpLedger_rolledUp db state now).mono ?_ ?_
  · rintro _ _ _ ⟨rfl, rfl⟩
    refine ⟨⟨h.sound.rollUp _, h.cached⟩, .of_same rfl (fun _ => rfl) fun key _ hour => ?_⟩
    have hselect : (db.ledger.rolledUp (rollUpCutoff now)).selectWorkerId key.1 key.2 =
        db.ledger.selectWorkerId key.1 key.2 := rfl
    rw [ShareLedger.hourSum, ShareLedger.hourSum, hselect]
    refine Eq.trans ?_ (add_zero _).symm
    congr 2
    funext id
    exact ShareLedger.total_rollUp _ _ _ _
  · rintro _ _ _ ⟨-, rfl, rfl⟩
    exact ⟨h, .refl _⟩

/-- A minute counts for every name that is admitted after it, whatever other names there are. -/
theorem ledger_counts (h : LedgerKept ⟨db, state⟩) (minute : LedgerMinute) :
    (applyWrite (.ledger minute)).Ends db state
      (fun _ db' state' => LedgerKept ⟨db', state'⟩ ∧ db.ledger.Counts db'.ledger minute.amounts)
      (fun _ db' state' => db' = db ∧ LedgerKept ⟨db', state'⟩) := by
  have hwritten : (writeLedgerMinute minute).Ends db state
      (fun _ db' state' => LedgerKept ⟨db', state'⟩ ∧ db.ledger.Counts db'.ledger minute.amounts)
      (fun _ db' _ => db' = db) := by
    unfold writeLedgerMinute
    by_cases hempty : minute.entries.isEmpty
    · rw [if_pos hempty]
      have hzero : minute.amounts = 0 := by
        funext key hour
        rw [LedgerMinute.amounts, List.isEmpty_iff.mp hempty]
        rfl
      rw [hzero]
      exact .pure ⟨h, .refl _⟩
    · rw [if_neg hempty]
      refine .transaction rfl (.bind (.touch rfl ?_))
      exact (writeEntries_counts minute.aligned minute.named h).mono
        (fun _ _ _ hw => ⟨hw, rfl⟩) fun _ _ _ _ => rfl
  refine .bind (.onError (hwritten.mono ?_ ?_))
  · rintro _ db₁ state₁ ⟨hkept, hcounts⟩
    have hrolled : ∀ db₂ : Database, db₁.ledger.Counts db₂.ledger 0 →
        db.ledger.Counts db₂.ledger minute.amounts := by
      intro db₂ hrolled
      have hall := hcounts.trans hrolled
      rwa [add_zero] at hall
    refine .ignore ((rollUpLedger_counts hkept minute.minuteTs).mono ?_ ?_)
    · exact fun _ _ _ hr => ⟨hr.1, hrolled _ hr.2⟩
    · exact fun _ _ _ hr => ⟨hr.1, hrolled _ hr.2⟩
  · rintro e _ state₁ rfl
    exact ⟨rfl, h.sound, fun _ _ hlookup => by cases hlookup⟩

end Minute

/-! ## Any write -/

section Attempts

variable {write : StoreWrite} {store store' : Store} {faults faults' : List Bool} {b : Bool}

/-- The writes that are not minutes leave the ledger alone. -/
theorem ledger_of_tryWrite (hother : ∀ minute, write ≠ .ledger minute)
    (ht : tryWrite write store faults = (b, store', faults')) :
    store'.db.ledger = store.db.ledger ∧ store'.state.workerIds = store.state.workerIds := by
  cases b with
  | true =>
    have happlied := applied_of_tryWrite ht
    cases write with
    | ledger minute => exact absurd rfl (hother minute)
    | pruneWorkerBestShares keep =>
      obtain ⟨hdb, hstate⟩ := happlied
      rw [hstate]
      rcases hdb with hdb | hdb <;> rw [hdb] <;> exact ⟨rfl, rfl⟩
    | blockResolved hash resolution ts =>
      obtain ⟨-, hdb, hstate⟩ := happlied
      rw [hdb, hstate]
      exact ⟨rfl, rfl⟩
    | snapshot snapshot =>
      obtain ⟨hdb, hstate⟩ := happlied
      rw [hdb, hstate]
      split <;> exact ⟨rfl, rfl⟩
    | _ =>
      obtain ⟨hdb, hstate⟩ := happlied
      rw [hdb, hstate]
      exact ⟨rfl, rfl⟩
  | false =>
    obtain ⟨e, hrefused, -⟩ := refused_of_tryWrite ht
    cases write with
    | ledger minute => exact absurd rfl (hother minute)
    | flush => exact hrefused.elim
    | snapshot snapshot =>
      obtain ⟨-, hdb, hstate⟩ := hrefused
      rw [hstate]
      rcases hdb with hdb | ⟨-, hdb⟩ <;> rw [hdb] <;> exact ⟨rfl, rfl⟩
    | _ =>
      obtain ⟨-, hdb, hstate⟩ := hrefused
      rw [hdb, hstate]
      exact ⟨rfl, rfl⟩

/-- An attempt keeps the ledger sound, and counts the amounts of the write if it succeeds. -/
theorem tryWrite_counts (h : LedgerKept store)
    (ht : tryWrite write store faults = (b, store', faults')) :
    LedgerKept store' ∧ store.db.ledger.Counts store'.db.ledger
      fun key hour => if b then amountsOfWrite key hour write else 0 := by
  by_cases hminute : ∃ minute, write = .ledger minute
  · obtain ⟨minute, rfl⟩ := hminute
    cases b with
    | true => exact (ends_of_tryWrite (ledger_counts h minute) ht).1
    | false =>
      obtain ⟨e, ⟨hdb, hkept⟩, -⟩ := ends_of_tryWrite_failed (ledger_counts h minute) ht
      refine ⟨hkept, ?_⟩
      rw [hdb]
      exact .refl _
  · have hother : ∀ minute, write ≠ .ledger minute := fun minute heq => hminute ⟨minute, heq⟩
    have hnothing : ∀ key hour, (if b then amountsOfWrite key hour write else 0) = 0 := by
      intro key hour
      cases write with
      | ledger minute => exact absurd rfl (hother minute)
      | _ => exact ite_self 0
    obtain ⟨hledger, hcache⟩ := ledger_of_tryWrite hother ht
    refine ⟨⟨?_, ?_⟩, ?_⟩
    · rw [hledger]
      exact h.sound
    · rw [hledger, hcache]
      exact h.cached
    · rw [hledger]
      simp only [hnothing]
      exact .refl _

end Attempts

end BtcPool.Stats
