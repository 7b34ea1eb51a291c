import BtcPool.Stats.Writer

/-!
# What the backlog promises

A flush is meant as a barrier, and round resets are meant to be applied in the order they were
queued. The writer keeps neither promise while writes are parked: it acknowledges a flush with a
warning only, and it applies a write it has just received even if the pass before it failed. Both
hold where that does not happen: the durable writes before a flush were all applied exactly when the
backlog is empty (`flush_acknowledged_iff`), and resets stay in order as long as none is applied
past a parked one (`resets_applied_in_order`).
-/

namespace BtcPool.Stats

open RetryQueue

/-! ## The flush barrier -/

/-- The durable writes received in the events were all applied, each as often as it was received. -/
def AllApplied (events : List WriterEvent) (outputs : List (Output StoreWrite)) : Prop :=
  ((received events).filter isDurable).Subperm (applied outputs)

/-- A flush is acknowledged whatever the backlog holds; what was queued before it is in the database
exactly when nothing is parked. -/
theorem flush_acknowledged_iff (db : Database) {events : List WriterEvent} (faults : List Bool)
    (hroom : writer.process.Meets writer.Room (startWriter db) events) :
    let run := writer.process.run (startWriter db) events
    (writer.step run.state (.handle .flush faults)).outputs = [.applied .flush] ∧
      (AllApplied events run.outputs ↔ run.state.backlog = []) := by
  intro run
  refine ⟨rfl, ?_⟩
  have hperm : ((received events).filter isDurable).Perm
      ((applied run.outputs).filter isDurable ++ run.state.backlog) :=
    Writer.perm_of_run hroom rfl
  constructor
  · intro hall
    -- what is parked is missing from the count of what was applied
    have hle : ((received events).filter isDurable).length ≤
        ((applied run.outputs).filter isDurable).length := by
      simpa using (hall.filter isDurable).length_le
    have hlen := hperm.length_eq
    rw [List.length_append] at hlen
    exact List.length_eq_zero_iff.mp (by omega)
  · intro hnone
    rw [hnone, List.append_nil] at hperm
    exact hperm.subperm.trans List.filter_sublist.subperm

theorem flush_acknowledged_iff_regtest :
    let events := [⟨some (.blockFound (regtestBlock "00".toList 7 true)), [], [true]⟩,
      ⟨none, [], []⟩].flatMap Turn.events
    let run := writer.process.run (startWriter (.create 0)) events
    run.state.backlog = [] ∧ AllApplied events run.outputs := by
  intro events run
  have hroom : writer.process.Meets writer.Room (startWriter (.create 0)) events :=
    ⟨trivial, fun _ => ⟨by decide, fun _ => ⟨trivial, fun _ => trivial⟩⟩⟩
  exact ⟨rfl, (flush_acknowledged_iff (.create 0) [] hroom).2.mpr rfl⟩

/-- A flush that comes while the disk is away is acknowledged with the block before it still
parked. -/
theorem flush_acknowledged_early :
    let events := [⟨some (.blockFound (regtestBlock "00".toList 7 true)), [], [true]⟩,
      ⟨some .flush, [true], []⟩].flatMap Turn.events
    let run := writer.process.run (startWriter (.create 0)) events
    .applied .flush ∈ run.outputs ∧
      ¬ AllApplied events run.outputs := by
  intro events run
  have hout : run.outputs =
      [.parked (.blockFound (regtestBlock "00".toList 7 true)), .applied .flush] := rfl
  refine ⟨by simp [hout], fun hall => ?_⟩
  have hmem : StoreWrite.blockFound (regtestBlock "00".toList 7 true) ∈ applied run.outputs :=
    hall.subset (by simp [events, Turn.events, received, Event.received, isDurable])
  simp [hout] at hmem

/-! ## The order of round resets -/

/-- The epoch and the time of a reset. -/
def resetOf : StoreWrite → Option (ℕ × ℕ)
  | .roundReset epoch sinceTs => some (epoch, sinceTs)
  | _ => none

/-- The resets among the writes, in order. -/
def resets (writes : List StoreWrite) : List (ℕ × ℕ) := writes.filterMap resetOf

/-- Whether a write resets the round. -/
def isReset (write : StoreWrite) : Bool := (resetOf write).isSome

/-- No reset is applied on receipt while one is parked, because one of the five statements of its
transaction fails, and the backlog has room. -/
def Orderly (s : State StoreWrite Store) : WriterEvent → Prop
  | .retry _ => True
  | .handle write faults =>
    s.backlog.length < maxWriteBacklog ∧
      (isReset write → s.backlog.any isReset → true ∈ faults.take 5)

instance (s : State StoreWrite Store) : (e : WriterEvent) → Decidable (Orderly s e)
  | .retry _ => inferInstanceAs (Decidable True)
  | .handle write faults => inferInstanceAs (Decidable (s.backlog.length < maxWriteBacklog ∧
      (isReset write → s.backlog.any isReset → true ∈ faults.take 5)))

theorem tryWrite_reset_failed {write : StoreWrite} (hw : isReset write) (store : Store)
    {faults : List Bool} (hf : true ∈ faults.take 5) : (tryWrite write store faults).1 = false := by
  cases write with
  | roundReset epoch sinceTs =>
    -- begin, the three tables, commit
    rcases faults with
      _ | ⟨_ | _, _ | ⟨_ | _, _ | ⟨_ | _, _ | ⟨_ | _, _ | ⟨_ | _, rest⟩⟩⟩⟩⟩ <;>
      first | rfl | simp at hf
  | _ => cases hw

theorem resets_eq_filter (writes : List StoreWrite) :
    resets writes = resets (writes.filter isReset) := by
  induction writes with
  | nil => rfl
  | cons w ws ih =>
    cases hw : resetOf w with
    | none => simpa [resets, isReset, hw] using ih
    | some r => simpa [resets, isReset, hw] using ih

/-- The start of the round after a write. -/
def sinceAfter (sinceTs : ℕ) (write : StoreWrite) : ℕ := ((resetOf write).map Prod.snd).getD sinceTs

theorem sinceTs_of_applied {db db' : Database} {state state' : WriterState} {write : StoreWrite}
    (h : Applied db state db' state' write) :
    db'.round.stats.sinceTs = sinceAfter db.round.stats.sinceTs write := by
  cases write with
  | bestShare d =>
    rw [h.1]
    simp only [sinceAfter, resetOf, RoundTables.raiseBestShare]
    split <;> rfl
  | bestHashrate d =>
    rw [h.1]
    simp only [sinceAfter, resetOf, RoundTables.raiseBestHashrate]
    split <;> rfl
  | workerBestShare w d => rw [h.1]; rfl
  | snapshot s =>
    rw [h.1]
    split <;> rfl
  | ledger m => obtain ⟨⟨ledger, rfl⟩, -⟩ := h; rfl
  | roundReset e s => rw [h.1]; rfl
  | pruneWorkerBestShares k => rcases h with ⟨rfl | rfl, -⟩ <;> rfl
  | blockFound b => rw [h.1]; rfl
  | blockResolved hash r t => rw [h.2.1]; rfl
  | flush => rw [h.1]; rfl

theorem sinceTs_of_refused {db db' : Database} {state state' : WriterState} {e : Sqlite.Error}
    {write : StoreWrite} (h : Refused db state e db' state' write) :
    db'.round.stats.sinceTs = db.round.stats.sinceTs := by
  cases write with
  | snapshot s => rcases h with ⟨-, rfl | ⟨-, rfl⟩, -⟩ <;> rfl
  | ledger m => rw [h.1]
  | blockResolved hash r t => rw [h.2.1]
  | flush => exact h.elim
  | _ => rw [h.2.1]

/-- The start of the round is that of the reset applied last. -/
theorem sinceTs_of_run (db : Database) (events : List WriterEvent) :
    let run := writer.process.run (startWriter db) events
    run.state.store.db.round.stats.sinceTs =
      ((resets (applied run.outputs)).getLast?.map Prod.snd).getD db.round.stats.sinceTs := by
  have hlast : ∀ {outs : List StoreWrite} {w : StoreWrite} {since : ℕ},
      sinceAfter (((resets outs).getLast?.map Prod.snd).getD since) w =
        ((resets (outs ++ [w])).getLast?.map Prod.snd).getD since := by
    intro outs w since
    rw [resets, resets, List.filterMap_append, sinceAfter]
    cases hw : resetOf w <;> simp [hw]
  have hrule : writer.Rule (fun _ _ => True) fun _ outs _ store =>
      store.db.round.stats.sinceTs =
        ((resets outs).getLast?.map Prod.snd).getD db.round.stats.sinceTs := by
    have hok :
        ∀ {outs : List StoreWrite} {w : StoreWrite} {store store' : Store} {f f' : List Bool},
        store.db.round.stats.sinceTs =
          ((resets outs).getLast?.map Prod.snd).getD db.round.stats.sinceTs →
        tryWrite w store f = (true, store', f') → store'.db.round.stats.sinceTs =
          ((resets (outs ++ [w])).getLast?.map Prod.snd).getD db.round.stats.sinceTs := by
      intro outs w store store' f f' h hw
      rw [sinceTs_of_applied (applied_of_tryWrite hw), h, hlast]
    have hfail : ∀ {w : StoreWrite} {store store' : Store} {f f' : List Bool},
        tryWrite w store f = (false, store', f') →
        store'.db.round.stats.sinceTs = store.db.round.stats.sinceTs := by
      intro w store store' f f' hw
      obtain ⟨e, hr, -⟩ := refused_of_tryWrite hw
      exact sinceTs_of_refused hr
    exact ⟨fun h hw => hok h hw, fun h hw => (hfail hw).trans h, fun _ h hw => hok h hw,
      fun _ h hw _ => (hfail hw).trans h, fun _ h hw _ => (hfail hw).trans h⟩
  exact hrule.run (Process.meets_of_forall (fun _ _ _ => trivial) _) rfl

/-- In a run in which no reset is applied past a parked one, the resets are applied in the order of
their epochs, and whenever the backlog is empty the round began at the reset of the highest
epoch. -/
theorem resets_applied_in_order (db : Database) {events : List WriterEvent}
    (hqueued : (resets (received events)).Pairwise fun a b => a.1 < b.1 ∧ a.2 ≤ b.2)
    (hC : writer.process.Meets Orderly (startWriter db) events) :
    let run := writer.process.run (startWriter db) events
    (resets (applied run.outputs)).Pairwise (fun a b => a.1 < b.1) ∧
      (run.state.backlog = [] → ∀ reset ∈ resets (received events),
        (∀ other ∈ resets (received events), other.1 ≤ reset.1) →
        run.state.store.db.round.stats.sinceTs = reset.2) := by
  intro run
  have horder : (received events).filter isReset =
      (applied run.outputs).filter isReset ++ run.state.backlog.filter isReset := by
    refine Writer.ordered_of_run (C := Orderly) ?_ rfl hC ?_ ?_
    · intro w hw
      cases w <;> first | rfl | cases hw
    · intro backlog store w f h hw
      by_cases hparked : backlog.any isReset
      · exact .inr (tryWrite_reset_failed hw store (h.2 hw hparked))
      · exact .inl (List.filter_eq_nil_iff.mpr (by simpa using hparked))
    · intro backlog store w f h
      rw [Writer.park_of_room h.1, List.filter_append]
  have hresets : resets (received events) =
      resets (applied run.outputs) ++ resets run.state.backlog := by
    rw [resets_eq_filter, horder, resets_eq_filter (applied _), resets_eq_filter run.state.backlog]
    exact List.filterMap_append
  have hepochs : (resets (received events)).Pairwise fun a b => a.1 < b.1 := hqueued.imp And.left
  refine ⟨?_, fun hnone reset hreset hmax => ?_⟩
  · rw [hresets] at hepochs
    exact hepochs.sublist (List.sublist_append_left _ _)
  · -- with nothing parked the last reset applied is the last one queued, of the highest epoch
    rw [hnone] at hresets
    obtain ⟨earlier, last, heq⟩ : ∃ earlier last, resets (received events) = earlier ++ [last] :=
      (List.eq_nil_or_concat' _).resolve_left (List.ne_nil_of_mem hreset)
    rw [heq] at hepochs hmax hreset
    obtain rfl : reset = last := by
      rcases List.mem_append.mp hreset with hmem | hmem
      · have hlt := (List.pairwise_append.mp hepochs).2.2 reset hmem last (by simp)
        have hle := hmax last (by simp)
        omega
      · simpa using hmem
    have happlied : resets (applied run.outputs) = earlier ++ [reset] := by
      simpa [resets, heq] using hresets.symm.trans heq
    rw [sinceTs_of_run db events, happlied]
    simp

/-- A reset that failed once and landed before the next one came. -/
theorem resets_applied_in_order_regtest :
    let events := [⟨some (.roundReset 1 10), [], [true]⟩,
      ⟨some (.roundReset 2 20), [], []⟩].flatMap Turn.events
    let run := writer.process.run (startWriter (.create 0)) events
    writer.process.Meets Orderly (startWriter (.create 0)) events ∧
      resets (applied run.outputs) = [(1, 10), (2, 20)] ∧
      run.state.store.db.round.stats.sinceTs = 20 := by
  intro events run
  have hC : writer.process.Meets Orderly (startWriter (.create 0)) events := by decide +kernel
  have hqueued : (resets (received events)).Pairwise fun a b => a.1 < b.1 ∧ a.2 ≤ b.2 := by
    decide +kernel
  have h := (resets_applied_in_order (.create 0) hqueued hC).2 rfl (2, 20) (by decide +kernel)
    (by decide +kernel)
  exact ⟨hC, by decide +kernel, h⟩

/-- A reset received while the pass before it failed is applied before the parked one, which then
takes the round back to its own start. -/
theorem reset_overtaken :
    let events := [⟨some (.roundReset 1 10), [], [true]⟩, ⟨some (.roundReset 2 20), [true], []⟩,
      ⟨none, [], []⟩].flatMap Turn.events
    let run := writer.process.run (startWriter (.create 0)) events
    ((resets (received events)).Pairwise fun a b => a.1 < b.1 ∧ a.2 ≤ b.2) ∧
      run.state.backlog = [] ∧ resets (applied run.outputs) = [(2, 20), (1, 10)] ∧
      run.state.store.db.round.stats.sinceTs = 10 :=
  ⟨by decide +kernel, rfl, by decide +kernel, by decide +kernel⟩

end BtcPool.Stats
