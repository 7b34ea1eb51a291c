import BtcPool.Stats.Ledger

/-!
# The stage of the share ledger

Shares are not written one by one: `LedgerAccum` gathers the amounts of the open minute, by worker,
and hands a minute over to the store when the clock has moved past it, or at the shutdown of the
process. The clock may step back; the open minute never does.

A share is filed under the minute of the largest clock reading so far (`filings`). The entries
handed over and those still open, each with its minute (`LedgerStage.stamped`), hold the same
amounts as the filings, for every worker and every minute, and the minutes are handed over in their
order (`ledger_stage_conserves`). With workers named by their addresses, what is handed over are
minutes as the writer takes them (`exists_ledgerMinute`).
-/

namespace BtcPool.Stats

open Rows

/-! ## The accumulator -/

/-- Addition as the machine's numbers of 64 bits have it, with the largest one for an overflow. -/
def LedgerPending.saturatingAdd (a b : LedgerPending) : LedgerPending where
  work := min (a.work + b.work) (2 ^ 64 - 1)
  accepted := min (a.accepted + b.accepted) (2 ^ 64 - 1)
  rejected := min (a.rejected + b.rejected) (2 ^ 64 - 1)

/-- The amounts of the open minute, an entry for each worker. -/
structure LedgerAccum where
  minuteTs : ℕ
  pending : List LedgerEntry

/-- The start of the minute of a clock reading. -/
def minuteOf (now : ℕ) : ℕ := now / ledgerIntervalSecs * ledgerIntervalSecs

namespace LedgerAccum

/-- An accumulator for the minute the clock shows. -/
def new (wallNow : ℕ) : LedgerAccum where
  minuteTs := minuteOf wallNow
  pending := []

/-- Take everything staged for the open minute without closing it. -/
def takeOpen (accum : LedgerAccum) : Option (ℕ × List LedgerEntry) × LedgerAccum :=
  if accum.pending.isEmpty then (none, accum)
  else (some (accum.minuteTs, accum.pending), { accum with pending := [] })

/-- Advance to the minute of the clock reading, and return the contents of the minute that ended. -/
def rollTo (accum : LedgerAccum) (now : ℕ) : Option (ℕ × List LedgerEntry) × LedgerAccum :=
  let minute := minuteOf now
  if minute = accum.minuteTs then (none, accum)
  -- a clock that steps back does not reopen a minute
  else if minute < accum.minuteTs then (none, accum)
  else
    let (closed, accum) := accum.takeOpen
    (closed, { accum with minuteTs := minute })

/-- Add the amounts of a share to the entry of its worker, which starts at zero. -/
def add (accum : LedgerAccum) (worker : Str) (amounts : LedgerPending) : LedgerAccum :=
  { accum with
    pending := upsert LedgerEntry.worker
      (fun entry new => { entry with
        toLedgerPending := entry.toLedgerPending.saturatingAdd new.toLedgerPending })
      { LedgerPending.saturatingAdd 0 amounts with worker } accum.pending }

end LedgerAccum

/-! ## The stage and its calls -/

/-- The accumulator, and all it has handed to the store, in order. -/
structure LedgerStage where
  accum : LedgerAccum
  batches : List (ℕ × List LedgerEntry)

namespace LedgerStage

variable (stage : LedgerStage)

/-- A stage that has closed no minute. -/
def new (wallNow : ℕ) : LedgerStage where
  accum := .new wallNow
  batches := []

/-- A minute that was closed is handed on. -/
def persistLedgerMinute (closed : Option (ℕ × List LedgerEntry)) (accum : LedgerAccum) :
    LedgerStage where
  accum := accum
  batches := stage.batches ++ closed.toList

/-- Record a share. `known` says whether the worker is one of those that authorized. -/
def recordLedger (known : Bool) (worker : Str) (amounts : LedgerPending) (now : ℕ) : LedgerStage :=
  if ¬ known then stage
  else
    let (closed, accum) := stage.accum.rollTo now
    stage.persistLedgerMinute closed (accum.add worker amounts)

/-- Close the minute if the clock has left it. -/
def flushLedgerAt (now : ℕ) : LedgerStage :=
  let (closed, accum) := stage.accum.rollTo now
  stage.persistLedgerMinute closed accum

/-- Close the minute whatever the clock shows. -/
def flushLedgerPartial : LedgerStage :=
  let (closed, accum) := stage.accum.takeOpen
  stage.persistLedgerMinute closed accum

end LedgerStage

/-- A call on the stage. -/
inductive LedgerCall
  | recordLedger (known : Bool) (worker : Str) (amounts : LedgerPending) (now : ℕ)
  | flushLedgerAt (now : ℕ)
  | flushLedgerPartial

namespace LedgerCall

/-- The stage after a call. -/
def step (stage : LedgerStage) : LedgerCall → LedgerStage
  | .recordLedger known worker amounts now => stage.recordLedger known worker amounts now
  | .flushLedgerAt now => stage.flushLedgerAt now
  | .flushLedgerPartial => stage.flushLedgerPartial

/-- The share the call records. -/
def entry : LedgerCall → Option LedgerEntry
  | .recordLedger true worker amounts _ => some { amounts with worker }
  | .recordLedger false .. | .flushLedgerAt _ | .flushLedgerPartial => none

/-- The clock reading the call acts on. -/
def clock : LedgerCall → Option ℕ
  | .recordLedger true _ _ now => some now
  | .flushLedgerAt now => some now
  | .recordLedger false .. | .flushLedgerPartial => none

end LedgerCall

/-- The stage after a sequence of calls. -/
def runLedger (wallNow : ℕ) (calls : List LedgerCall) : LedgerStage :=
  calls.foldl LedgerCall.step (.new wallNow)

/-- The largest clock reading from the start of the process to the last of the calls. -/
def largestClock (wallNow : ℕ) (calls : List LedgerCall) : ℕ :=
  (calls.filterMap LedgerCall.clock).foldl max wallNow

/-- The shares recorded, each under the minute of the largest clock reading up to it. -/
def filings (wallNow : ℕ) : List LedgerCall → List (ℕ × LedgerEntry)
  | [] => []
  | call :: calls =>
    let seen := max wallNow (call.clock.getD wallNow)
    (call.entry.map (minuteOf seen, ·)).toList ++ filings seen calls

/-! ## Amounts -/

/-- The amounts of a worker in a list of entries. -/
def amountsOf (worker : Str) (entries : List LedgerEntry) : LedgerPending :=
  (entries.map fun e => if e.worker = worker then e.toLedgerPending else 0).sum

/-- The entries of the minutes that meet a condition. -/
def entriesIn (P : ℕ → Prop) [DecidablePred P] (stamped : List (ℕ × LedgerEntry)) :
    List LedgerEntry :=
  (stamped.filter fun f => P f.1).map Prod.snd

/-- The entries handed over and those still open, each with its minute. -/
def LedgerStage.stamped (stage : LedgerStage) : List (ℕ × LedgerEntry) :=
  stage.batches.flatMap (fun batch => batch.2.map (batch.1, ·)) ++
    stage.accum.pending.map (stage.accum.minuteTs, ·)

/-- Every amount is one of the machine's numbers. -/
def LedgerPending.Fits (a : LedgerPending) : Prop :=
  a.work < 2 ^ 64 ∧ a.accepted < 2 ^ 64 ∧ a.rejected < 2 ^ 64

theorem LedgerPending.Fits.of_add {a b : LedgerPending} (h : (a + b).Fits) : a.Fits := by
  have hwork : a.work + b.work < 2 ^ 64 := h.1
  have haccepted : a.accepted + b.accepted < 2 ^ 64 := h.2.1
  have hrejected : a.rejected + b.rejected < 2 ^ 64 := h.2.2
  exact ⟨by omega, by omega, by omega⟩

/-- Nothing saturates where the sum fits. -/
theorem LedgerPending.Fits.saturatingAdd {a b : LedgerPending} (h : (a + b).Fits) :
    a.saturatingAdd b = a + b := by
  have hwork : a.work + b.work < 2 ^ 64 := h.1
  have haccepted : a.accepted + b.accepted < 2 ^ 64 := h.2.1
  have hrejected : a.rejected + b.rejected < 2 ^ 64 := h.2.2
  rw [LedgerPending.add_def, LedgerPending.saturatingAdd, LedgerPending.mk.injEq]
  exact ⟨by omega, by omega, by omega⟩

section Amounts

variable {worker : Str} {entries entries' : List LedgerEntry}

@[simp] theorem amountsOf_nil : amountsOf worker [] = 0 := rfl

@[simp] theorem amountsOf_cons (e : LedgerEntry) : amountsOf worker (e :: entries) =
    (if e.worker = worker then e.toLedgerPending else 0) + amountsOf worker entries :=
  List.sum_cons

@[simp] theorem amountsOf_append : amountsOf worker (entries ++ entries') =
    amountsOf worker entries + amountsOf worker entries' := by
  simp [amountsOf]

/-- One entry of a worker is a part of the worker's amounts. -/
theorem exists_amountsOf_eq {e : LedgerEntry} (he : e ∈ entries) :
    ∃ rest, amountsOf e.worker entries = e.toLedgerPending + rest := by
  obtain ⟨before, after, rfl⟩ := List.append_of_mem he
  refine ⟨amountsOf e.worker before + amountsOf e.worker after, ?_⟩
  rw [amountsOf_append, amountsOf_cons, if_pos rfl, add_left_comm]

variable (P : ℕ → Prop) [DecidablePred P] {stamped stamped' : List (ℕ × LedgerEntry)}

@[simp] theorem entriesIn_append :
    entriesIn P (stamped ++ stamped') = entriesIn P stamped ++ entriesIn P stamped' := by
  simp [entriesIn]

theorem entriesIn_true : entriesIn (fun _ => True) stamped = stamped.map Prod.snd := by
  simp [entriesIn]

theorem entriesIn_stamp (minute : ℕ) :
    entriesIn P (entries.map (minute, ·)) = if P minute then entries else [] := by
  unfold entriesIn
  split
  · rename_i h
    simp [List.filter_map, Function.comp_def, h]
  · rename_i h
    simp [List.filter_map, Function.comp_def, h]

end Amounts

/-- A share adds its amounts to those of its worker, unless they no longer fit. -/
theorem LedgerAccum.amountsOf_add {accum : LedgerAccum} {worker : Str} {amounts : LedgerPending}
    (h : (amountsOf worker accum.pending + amounts).Fits) (other : Str) :
    amountsOf other (accum.add worker amounts).pending =
      amountsOf other accum.pending + amountsOf other [{ amounts with worker }] := by
  have hnew : LedgerPending.saturatingAdd 0 amounts = amounts := by
    have hfits : (0 + amounts).Fits := by
      rw [zero_add]
      rw [add_comm] at h
      exact h.of_add
    rw [hfits.saturatingAdd, zero_add]
  unfold LedgerAccum.add amountsOf
  rw [hnew, sum_upsert]
  · simp
  · intro e he hworker
    change e.worker = worker at hworker
    have hsum : e.toLedgerPending.saturatingAdd amounts = e.toLedgerPending + amounts := by
      obtain ⟨rest, hrest⟩ := exists_amountsOf_eq he
      rw [hworker] at hrest
      rw [hrest, add_right_comm] at h
      exact h.of_add.saturatingAdd
    by_cases hother : worker = other
    · simp only [hworker, hother, if_true]
      exact hsum
    · simp only [hworker, hother, if_false]
      rfl

/-! ## One call -/

theorem minuteOf_mono {a b : ℕ} (h : a ≤ b) : minuteOf a ≤ minuteOf b :=
  Nat.mul_le_mul_right _ (Nat.div_le_div_right h)

theorem minuteOf_max (a b : ℕ) : minuteOf (max a b) = max (minuteOf a) (minuteOf b) := by
  rcases le_total a b with h | h
  · rw [max_eq_right h, max_eq_right (minuteOf_mono h)]
  · rw [max_eq_left h, max_eq_left (minuteOf_mono h)]

namespace LedgerStage

variable (stage : LedgerStage)

/-- What a flush can do: nothing, or hand over the open minute, which may then be another one. -/
inductive Flushed : LedgerStage → Prop
  | moved (minute : ℕ) (hle : stage.accum.minuteTs ≤ minute) (hempty : stage.accum.pending = []) :
    Flushed { stage with accum := { stage.accum with minuteTs := minute } }
  | kept : Flushed stage
  | handed (minute : ℕ) (hle : stage.accum.minuteTs ≤ minute) :
    Flushed { accum := { minuteTs := minute, pending := [] }
              batches := stage.batches ++ [(stage.accum.minuteTs, stage.accum.pending)] }

theorem flushed_flushLedgerPartial : stage.Flushed stage.flushLedgerPartial ∧
    stage.flushLedgerPartial.accum.minuteTs = stage.accum.minuteTs := by
  unfold flushLedgerPartial LedgerAccum.takeOpen persistLedgerMinute
  by_cases hempty : stage.accum.pending.isEmpty
  · rw [if_pos hempty]
    exact ⟨by simpa using Flushed.kept, rfl⟩
  · rw [if_neg hempty]
    exact ⟨Flushed.handed _ le_rfl, rfl⟩

theorem flushed_flushLedgerAt (now : ℕ) : stage.Flushed (stage.flushLedgerAt now) ∧
    (stage.flushLedgerAt now).accum.minuteTs = max stage.accum.minuteTs (minuteOf now) := by
  unfold flushLedgerAt LedgerAccum.rollTo LedgerAccum.takeOpen persistLedgerMinute
  dsimp only
  split_ifs with heq hback hempty
  · refine ⟨by simpa using Flushed.kept, ?_⟩
    rw [heq, max_self]
  · refine ⟨by simpa using Flushed.kept, ?_⟩
    rw [max_eq_left hback.le]
  · have hlt : stage.accum.minuteTs ≤ minuteOf now := not_lt.mp hback
    refine ⟨?_, (max_eq_right hlt).symm⟩
    simpa using Flushed.moved (minuteOf now) hlt (List.isEmpty_iff.mp hempty)
  · have hlt : stage.accum.minuteTs ≤ minuteOf now := not_lt.mp hback
    exact ⟨Flushed.handed _ hlt, (max_eq_right hlt).symm⟩

variable {stage}

/-- A flush moves entries from the open minute to the store, under the same stamp. -/
theorem Flushed.stamped_eq {stage' : LedgerStage} (h : stage.Flushed stage') :
    stage'.stamped = stage.stamped := by
  cases h with
  | moved minute hle hempty => simp [stamped, hempty]
  | kept => rfl
  | handed minute hle => simp [stamped]

/-- The stamps of the batches and then that of the open minute. -/
def stamps (stage : LedgerStage) : List ℕ := stage.batches.map Prod.fst ++ [stage.accum.minuteTs]

theorem Flushed.stamps_ordered {stage' : LedgerStage} (h : stage.Flushed stage')
    (hordered : stage.stamps.Pairwise (· ≤ ·)) : stage'.stamps.Pairwise (· ≤ ·) := by
  obtain ⟨hbatches, -, hopen⟩ := List.pairwise_append.mp hordered
  have hopen : ∀ stamp ∈ stage.batches.map Prod.fst, stamp ≤ stage.accum.minuteTs :=
    fun stamp hmem => hopen stamp hmem _ List.mem_cons_self
  cases h with
  | moved minute hle hempty =>
    refine List.pairwise_append.mpr ⟨hbatches, List.pairwise_singleton _ _, ?_⟩
    intro stamp hmem last hlast
    rw [List.mem_singleton.mp hlast]
    exact (hopen stamp hmem).trans hle
  | kept => exact hordered
  | handed minute hle =>
    have hstamps : (stage.batches ++ [(stage.accum.minuteTs, stage.accum.pending)]).map Prod.fst =
        stage.stamps := by simp [stamps]
    refine List.pairwise_append.mpr ⟨hstamps ▸ hordered, List.pairwise_singleton _ _, ?_⟩
    intro stamp hmem last hlast
    rw [List.mem_singleton.mp hlast]
    rw [hstamps] at hmem
    rcases List.mem_append.mp hmem with hmem | hmem
    · exact (hopen stamp hmem).trans hle
    · exact (List.mem_singleton.mp hmem).trans_le hle

/-- The entries of the open minute, seen among the stamped ones. -/
theorem amountsOf_entriesIn_stamped (P : ℕ → Prop) [DecidablePred P] (worker : Str) :
    amountsOf worker (entriesIn P stage.stamped) =
      amountsOf worker (entriesIn P (stage.batches.flatMap fun b => b.2.map (b.1, ·))) +
        if P stage.accum.minuteTs then amountsOf worker stage.accum.pending else 0 := by
  rw [stamped, entriesIn_append, amountsOf_append, entriesIn_stamp]
  split <;> rfl

theorem amountsOf_add (P : ℕ → Prop) [DecidablePred P] {worker : Str} {amounts : LedgerPending}
    (h : (amountsOf worker stage.accum.pending + amounts).Fits) (other : Str) :
    amountsOf other (entriesIn P
        { stage with accum := stage.accum.add worker amounts : LedgerStage }.stamped) =
      amountsOf other (entriesIn P
        (stage.stamped ++ [(stage.accum.minuteTs, { amounts with worker })])) := by
  have hstamp : entriesIn P ([{ amounts with worker }].map (stage.accum.minuteTs, ·)) =
      if P stage.accum.minuteTs then [{ amounts with worker }] else [] :=
    entriesIn_stamp P stage.accum.minuteTs
  rw [List.map_singleton] at hstamp
  rw [entriesIn_append, amountsOf_append, hstamp, amountsOf_entriesIn_stamped,
    amountsOf_entriesIn_stamped, LedgerAccum.amountsOf_add h other]
  change _ + (if P stage.accum.minuteTs then _ else 0) = _
  split
  · exact (add_assoc _ _ _).symm
  · simp

/-- The stage holds what was filed: the same amounts for every worker and every minute, with the
minutes in order. -/
structure Holds (stage : LedgerStage) (filed : List (ℕ × LedgerEntry)) : Prop where
  ordered : stage.stamps.Pairwise (· ≤ ·)
  amounts : ∀ (P : ℕ → Prop) [DecidablePred P] (worker : Str),
    amountsOf worker (entriesIn P stage.stamped) = amountsOf worker (entriesIn P filed)

variable {filed : List (ℕ × LedgerEntry)}

theorem Holds.flush {stage' : LedgerStage} (h : stage.Holds filed)
    (hflushed : stage.Flushed stage') : stage'.Holds filed := by
  refine ⟨hflushed.stamps_ordered h.ordered, fun P _ worker => ?_⟩
  rw [hflushed.stamped_eq]
  exact h.amounts P worker

/-- What was handed over and what is pending make up what was filed. -/
theorem Holds.conserves (h : stage.Holds filed) (worker : Str) :
    amountsOf worker (stage.batches.flatMap Prod.snd) + amountsOf worker stage.accum.pending =
      amountsOf worker (filed.map Prod.snd) := by
  have hall := h.amounts (fun _ => True) worker
  rw [entriesIn_true, entriesIn_true] at hall
  rw [← hall, ← amountsOf_append]
  congr 1
  simp [stamped, List.map_flatMap, Function.comp_def]

/-- A share is filed under the open minute. -/
theorem Holds.add (h : stage.Holds filed) {worker : Str} {amounts : LedgerPending}
    (hfits : (amountsOf worker (filed.map Prod.snd) + amounts).Fits) :
    { stage with accum := stage.accum.add worker amounts : LedgerStage }.Holds
      (filed ++ [(stage.accum.minuteTs, { amounts with worker })]) := by
  refine ⟨h.ordered, fun P _ other => ?_⟩
  have hpending : (amountsOf worker stage.accum.pending + amounts).Fits := by
    rw [← h.conserves, add_assoc, add_comm] at hfits
    exact hfits.of_add
  rw [amountsOf_add P hpending, entriesIn_append, entriesIn_append, amountsOf_append,
    amountsOf_append, h.amounts P other]

end LedgerStage

/-- One call, with the largest clock reading so far: it moves the open minute along with the
reading, and files its share there. -/
theorem LedgerCall.step_holds {stage : LedgerStage} {filed : List (ℕ × LedgerEntry)} {seen : ℕ}
    (call : LedgerCall) (hminute : stage.accum.minuteTs = minuteOf seen) (h : stage.Holds filed)
    (hfits : ∀ worker, (amountsOf worker (filed.map Prod.snd ++ call.entry.toList)).Fits) :
    (call.step stage).accum.minuteTs = minuteOf (max seen (call.clock.getD seen)) ∧
      (call.step stage).Holds (filed ++
        (call.entry.map (minuteOf (max seen (call.clock.getD seen)), ·)).toList) := by
  cases call with
  | flushLedgerPartial =>
    obtain ⟨hflushed, hsame⟩ := stage.flushed_flushLedgerPartial
    simp only [clock, entry, Option.getD_none, max_self, Option.map_none, Option.toList_none,
      List.append_nil]
    exact ⟨hsame.trans hminute, h.flush hflushed⟩
  | flushLedgerAt now =>
    obtain ⟨hflushed, hmoved⟩ := stage.flushed_flushLedgerAt now
    simp only [clock, entry, Option.getD_some, Option.map_none, Option.toList_none, List.append_nil]
    rw [minuteOf_max, ← hminute]
    exact ⟨hmoved, h.flush hflushed⟩
  | recordLedger known worker amounts now =>
    cases known with
    | false =>
      simp only [clock, entry, Option.getD_none, max_self, Option.map_none, Option.toList_none,
        List.append_nil]
      exact ⟨hminute, h⟩
    | true =>
      obtain ⟨hflushed, hmoved⟩ := stage.flushed_flushLedgerAt now
      have hworker := hfits worker
      simp only [clock, entry, Option.getD_some, Option.map_some, Option.toList_some,
        amountsOf_append, amountsOf_cons, amountsOf_nil, if_true, add_zero] at hworker ⊢
      rw [minuteOf_max, ← hminute, ← hmoved]
      exact ⟨rfl, (h.flush hflushed).add hworker⟩

/-! ## Runs -/

theorem runLedger_concat (wallNow : ℕ) (calls : List LedgerCall) (call : LedgerCall) :
    runLedger wallNow (calls ++ [call]) = call.step (runLedger wallNow calls) := by
  simp [runLedger]

theorem largestClock_cons (wallNow : ℕ) (call : LedgerCall) (calls : List LedgerCall) :
    largestClock wallNow (call :: calls) =
      largestClock (max wallNow (call.clock.getD wallNow)) calls := by
  unfold largestClock
  cases hclock : call.clock <;> simp [hclock]

theorem largestClock_concat (wallNow : ℕ) (calls : List LedgerCall) (call : LedgerCall) :
    largestClock wallNow (calls ++ [call]) =
      max (largestClock wallNow calls) (call.clock.getD (largestClock wallNow calls)) := by
  unfold largestClock
  cases hclock : call.clock <;> simp [hclock]

theorem filings_concat (wallNow : ℕ) (calls : List LedgerCall) (call : LedgerCall) :
    filings wallNow (calls ++ [call]) = filings wallNow calls ++
      (call.entry.map (minuteOf (largestClock wallNow (calls ++ [call])), ·)).toList := by
  induction calls generalizing wallNow with
  | nil =>
    rw [List.nil_append, largestClock_cons, filings]
    exact List.append_nil _
  | cons first calls ih =>
    rw [List.cons_append, filings, filings, ih, largestClock_cons, List.append_assoc]

theorem map_snd_filings (wallNow : ℕ) (calls : List LedgerCall) :
    (filings wallNow calls).map Prod.snd = calls.filterMap LedgerCall.entry := by
  induction calls generalizing wallNow with
  | nil => rfl
  | cons call calls ih =>
    rw [filings, List.map_append, ih]
    cases hentry : call.entry <;> simp [hentry]

theorem filterMap_entry_concat (calls : List LedgerCall) (call : LedgerCall) :
    (calls ++ [call]).filterMap LedgerCall.entry =
      calls.filterMap LedgerCall.entry ++ call.entry.toList := by
  rw [List.filterMap_append]
  cases hentry : call.entry <;> simp [hentry]

/-- After every call, the open minute is that of the largest clock reading, and the stage holds what
was recorded. -/
theorem runLedger_holds (wallNow : ℕ) {calls : List LedgerCall}
    (hfits : ∀ worker, (amountsOf worker (calls.filterMap LedgerCall.entry)).Fits) :
    (runLedger wallNow calls).accum.minuteTs = minuteOf (largestClock wallNow calls) ∧
      (runLedger wallNow calls).Holds (filings wallNow calls) := by
  induction calls using List.reverseRecOn with
  | nil => exact ⟨rfl, ⟨List.pairwise_singleton _ _, fun _ _ _ => rfl⟩⟩
  | append_singleton past call ih =>
    have hpast : ∀ worker, (amountsOf worker (past.filterMap LedgerCall.entry)).Fits := by
      intro worker
      have hall := hfits worker
      rw [filterMap_entry_concat, amountsOf_append] at hall
      exact hall.of_add
    obtain ⟨hminute, hholds⟩ := ih hpast
    rw [runLedger_concat, filings_concat, largestClock_concat]
    refine call.step_holds hminute hholds fun worker => ?_
    rw [map_snd_filings, ← filterMap_entry_concat]
    exact hfits worker

/-- Whatever the clock does, no share is lost or counted twice on its way to the store, the minutes
arrive in order, and every share arrives under the minute of the largest clock reading up to it. -/
theorem ledger_stage_conserves (wallNow : ℕ) (calls : List LedgerCall)
    (hfits : ∀ worker, (amountsOf worker (calls.filterMap LedgerCall.entry)).Fits) :
    let stage := runLedger wallNow calls
    (∀ worker, amountsOf worker (stage.batches.flatMap Prod.snd) +
        amountsOf worker stage.accum.pending =
      amountsOf worker (calls.filterMap LedgerCall.entry)) ∧
    (stage.batches.map Prod.fst).Pairwise (· ≤ ·) ∧
    ∀ worker minute, amountsOf worker (entriesIn (· = minute) stage.stamped) =
      amountsOf worker (entriesIn (· = minute) (filings wallNow calls)) := by
  obtain ⟨-, hholds⟩ := runLedger_holds wallNow hfits
  refine ⟨fun worker => ?_, (List.pairwise_append.mp hholds.ordered).1,
    fun worker minute => hholds.amounts (· = minute) worker⟩
  rw [hholds.conserves, map_snd_filings]

/-- Two shares in a minute each, and one after the clock has stepped back. -/
def backwardsCalls : List LedgerCall :=
  [.recordLedger true "bc1q".toList ⟨10, 1, 0⟩ 660, .recordLedger true "bc1q".toList ⟨10, 1, 0⟩ 720,
    .recordLedger true "bc1q".toList ⟨10, 1, 0⟩ 600, .flushLedgerAt 780]

theorem ledger_stage_conserves_backwards :
    let stage := runLedger 600 backwardsCalls
    amountsOf "bc1q".toList (stage.batches.flatMap Prod.snd) = ⟨30, 3, 0⟩ ∧
      amountsOf "bc1q".toList (entriesIn (· = 720) stage.stamped) = ⟨20, 2, 0⟩ := by
  have hfits : ∀ worker, (amountsOf worker (backwardsCalls.filterMap LedgerCall.entry)).Fits := by
    intro worker
    by_cases hworker : "bc1q".toList = worker
    · subst hworker
      exact ⟨by decide, by decide, by decide⟩
    · have hentries : backwardsCalls.filterMap LedgerCall.entry =
          [⟨⟨10, 1, 0⟩, "bc1q".toList⟩, ⟨⟨10, 1, 0⟩, "bc1q".toList⟩,
            ⟨⟨10, 1, 0⟩, "bc1q".toList⟩] := rfl
      simp only [hentries, amountsOf_cons, amountsOf_nil, if_neg hworker, add_zero]
      exact ⟨by decide, by decide, by decide⟩
  obtain ⟨hconserves, -, hfiled⟩ := ledger_stage_conserves 600 backwardsCalls hfits
  refine ⟨?_, ?_⟩
  · have hpending : (runLedger 600 backwardsCalls).accum.pending = [] := rfl
    have hall := hconserves "bc1q".toList
    rw [hpending, amountsOf_nil, add_zero] at hall
    rw [hall]
    decide
  · rw [hfiled]
    decide

/-! ## Minutes as the writer takes them -/

/-- The stamps are on the grid, and the workers are named by their addresses. -/
structure LedgerStage.Written (stage : LedgerStage) : Prop where
  aligned : stage.accum.minuteTs % ledgerIntervalSecs = 0
  named : ∀ e ∈ stage.accum.pending, (splitWorker e.worker).1 ≠ []
  batches : ∀ batch ∈ stage.batches, ∃ minute : LedgerMinute,
    minute.minuteTs = batch.1 ∧ minute.entries = batch.2

theorem minuteOf_mod (now : ℕ) : minuteOf now % ledgerIntervalSecs = 0 := Nat.mul_mod_left _ _

namespace LedgerStage

variable {stage stage' : LedgerStage}

theorem Written.flush (h : stage.Written) (hflushed : stage.Flushed stage')
    (haligned : stage'.accum.minuteTs % ledgerIntervalSecs = 0) : stage'.Written := by
  refine ⟨haligned, ?_, ?_⟩
  · cases hflushed with
    | moved | kept => exact h.named
    | handed => exact fun _ he => absurd he List.not_mem_nil
  · cases hflushed with
    | moved | kept => exact h.batches
    | handed minute hle =>
      intro batch hbatch
      rcases List.mem_append.mp hbatch with hold | hnew
      · exact h.batches batch hold
      · rw [List.mem_singleton.mp hnew]
        exact ⟨⟨_, _, h.aligned, h.named⟩, rfl, rfl⟩

theorem Written.flushLedgerAt (h : stage.Written) (now : ℕ) :
    (stage.flushLedgerAt now).Written := by
  obtain ⟨hflushed, hmoved⟩ := stage.flushed_flushLedgerAt now
  refine h.flush hflushed ?_
  rw [hmoved]
  rcases max_choice stage.accum.minuteTs (minuteOf now) with hmax | hmax
  · rw [hmax]
    exact h.aligned
  · rw [hmax]
    exact minuteOf_mod now

theorem Written.add (h : stage.Written) {worker : Str} (hworker : (splitWorker worker).1 ≠ [])
    (amounts : LedgerPending) :
    { stage with accum := stage.accum.add worker amounts : LedgerStage }.Written := by
  refine ⟨h.aligned, fun e he => ?_, h.batches⟩
  rcases mem_upsert he with hold | rfl | ⟨old, hold, -, rfl⟩
  · exact h.named e hold
  · exact hworker
  · exact h.named old hold

end LedgerStage

theorem LedgerCall.step_written {stage : LedgerStage} (h : stage.Written) (call : LedgerCall)
    (hnamed : ∀ e ∈ call.entry, (splitWorker e.worker).1 ≠ []) : (call.step stage).Written := by
  cases call with
  | flushLedgerPartial =>
    obtain ⟨hflushed, hsame⟩ := stage.flushed_flushLedgerPartial
    exact h.flush hflushed (hsame ▸ h.aligned)
  | flushLedgerAt now => exact h.flushLedgerAt now
  | recordLedger known worker amounts now =>
    cases known with
    | false => exact h
    | true => exact (h.flushLedgerAt now).add (hnamed _ rfl) amounts

/-- Every batch is a minute the writer accepts, when the known workers bear names of miners. -/
theorem exists_ledgerMinute (wallNow : ℕ) {calls : List LedgerCall}
    (hnamed : ∀ call ∈ calls, ∀ e ∈ call.entry, (splitWorker e.worker).1 ≠ []) :
    ∀ batch ∈ (runLedger wallNow calls).batches, ∃ minute : LedgerMinute,
      minute.minuteTs = batch.1 ∧ minute.entries = batch.2 := by
  have hwritten : (runLedger wallNow calls).Written := by
    induction calls using List.reverseRecOn with
    | nil => exact ⟨minuteOf_mod wallNow, nofun, nofun⟩
    | append_singleton past call ih =>
      rw [runLedger_concat]
      refine call.step_written (ih fun other hmem => hnamed other ?_) (hnamed call (by simp))
      exact List.mem_append_left _ hmem
  exact hwritten.batches

end BtcPool.Stats
