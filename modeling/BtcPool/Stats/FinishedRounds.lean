import BtcPool.Stats.Tasks
import Mathlib.Algebra.Order.BigOperators.Group.List

/-!
# Finished rounds stay out of the tables

A snapshot reads the epoch before the totals, a reset stores the offsets before it bumps the epoch
and queues its write after that, and the writer merges a snapshot only into the round of its own
epoch. Whatever the schedule, what the tables hold after a reset was applied belongs to shares whose
recording had not ended when that reset began.

The argument is about one reset, of epoch `e`, and one quantity. `R` is what was recorded of the
quantity when the reset began and `U` what the shares amount to that were unfinished then or came
later. Counters never exceed `R + U`; once the reset has stored the offset of the quantity it is at
least `R`, under every later reset too; and a snapshot that read epoch `e` or a later one reads the
offset after that. So what such a snapshot carries is at most `U`.
-/

namespace BtcPool.Stats

open RetryQueue Tasks

/-! ## What a write carries -/

/-- The epoch a write carries; zero for writes that have nothing to do with the round. -/
def StoreWrite.epoch : StoreWrite → ℕ
  | .snapshot write => write.roundEpoch
  | .roundReset epoch _ => epoch
  | _ => 0

/-- The total a write may raise a quantity to. -/
def StoreWrite.total : StoreWrite → Quantity → ℕ
  | .snapshot write, q => write.total q
  | _, _ => 0

/-- From epoch `e` on the write carries at most `U`. -/
def StoreWrite.Within (e : ℕ) (q : Quantity) (U : ℕ) (write : StoreWrite) : Prop :=
  e ≤ write.epoch → write.total q ≤ U

theorem StoreWrite.Within.mono {e : ℕ} {q : Quantity} {U U' : ℕ} {write : StoreWrite}
    (h : write.Within e q U) (hU : U ≤ U') : write.Within e q U' :=
  fun he => (h he).trans hU

theorem within_of_isOther {write : StoreWrite} (hw : isOther write) (e : ℕ) (q : Quantity) (U : ℕ) :
    write.Within e q U := by
  intro _
  cases write <;> first | exact Nat.zero_le U | cases hw

theorem epoch_of_isOther {write : StoreWrite} (hw : isOther write) : write.epoch = 0 := by
  cases write <;> first | rfl | cases hw

namespace RoundView

variable {v : RoundView} {write : StoreWrite}

theorem after_snapshot (v : RoundView) (snapshot : SnapshotWrite) :
    v.after (.snapshot snapshot) =
      if snapshot.roundEpoch = v.epoch then
        { v with total := fun q => max (v.total q) (snapshot.total q) }
      else v := rfl

/-- Once a reset of epoch `e` or later was applied the tables hold at most `U`. -/
def Within (e : ℕ) (q : Quantity) (U : ℕ) (v : RoundView) : Prop := e ≤ v.epoch → v.total q ≤ U

theorem epoch_after_le {bound : ℕ} (hv : v.epoch ≤ bound) (hw : write.epoch ≤ bound) :
    (v.after write).epoch ≤ bound := by
  cases write with
  | roundReset epoch sinceTs => exact max_le hv hw
  | snapshot snapshot =>
    rw [after_snapshot]
    split <;> exact hv
  | _ => exact hv

theorem epoch_le_after (v : RoundView) (write : StoreWrite) : v.epoch ≤ (v.after write).epoch := by
  cases write with
  | roundReset epoch sinceTs => exact le_max_left _ _
  | snapshot snapshot =>
    rw [after_snapshot]
    split <;> exact le_rfl
  | _ => exact le_rfl

theorem Within.after {e : ℕ} {q : Quantity} {U : ℕ} (hv : v.Within e q U)
    (hw : write.Within e q U) : (v.after write).Within e q U := by
  cases write with
  | roundReset epoch sinceTs => exact fun _ => Nat.zero_le U
  | snapshot snapshot =>
    rw [after_snapshot]
    split
    · rename_i hepoch
      intro he
      exact max_le (hv he) (hw (he.trans_eq hepoch.symm))
    · exact hv
  | _ => exact hv

end RoundView

/-! ## The writer thread -/

section Writer

variable {store store' : Store} {write : StoreWrite} {faults faults' : List Bool}

/-- A write that fails leaves the round alone, except for a snapshot whose merge was committed
before the failure. -/
theorem view_of_tryWrite {b : Bool} (h : tryWrite write store faults = (b, store', faults')) :
    view store' = (view store).after write ∨ (b = false ∧ view store' = view store) := by
  cases b with
  | true => exact .inl (view_of_applied (applied_of_tryWrite h))
  | false =>
    by_cases hd : isDurable write
    · obtain ⟨hdb, hepoch⟩ := db_of_failed hd h
      exact .inr ⟨rfl, by rw [view, view, hdb, hepoch]⟩
    · obtain ⟨e, hr, -⟩ := refused_of_tryWrite h
      cases write with
      | snapshot snapshot =>
        obtain ⟨-, hdb, hstate⟩ := hr
        rcases hdb with hdb | ⟨hepoch, hdb⟩
        · exact .inr ⟨rfl, by rw [view, view, hdb, hstate]⟩
        · exact .inl (view_of_applied ⟨hdb.trans (if_pos hepoch).symm, hstate⟩)
      | flush => exact hr.elim
      | bestShare _ => exact .inr ⟨rfl, by rw [view, view, hr.2.1, hr.2.2]⟩
      | bestHashrate _ => exact .inr ⟨rfl, by rw [view, view, hr.2.1, hr.2.2]⟩
      | workerBestShare _ _ => exact .inr ⟨rfl, by rw [view, view, hr.2.1, hr.2.2]⟩
      | pruneWorkerBestShares _ => exact .inr ⟨rfl, by rw [view, view, hr.2.1, hr.2.2]⟩
      | _ => exact absurd rfl hd

variable {s : State StoreWrite Store} {event : WriterEvent}

theorem writer_epoch_le {bound : ℕ} (hevent : ∀ w ∈ event.received, w.epoch ≤ bound)
    (h : (∀ w ∈ s.backlog, w.epoch ≤ bound) ∧ (view s.store).epoch ≤ bound) :
    (∀ w ∈ (writer.step s event).state.backlog, w.epoch ≤ bound) ∧
      (view (writer.step s event).state.store).epoch ≤ bound := by
  refine Writer.step_of_attempts (P := fun store => (view store).epoch ≤ bound) ?_ hevent h
  intro w store f b store' f' hw hstore ht
  rcases view_of_tryWrite ht with hview | ⟨-, hview⟩ <;> rw [hview]
  · exact RoundView.epoch_after_le hstore hw
  · exact hstore

theorem writer_within {e : ℕ} {q : Quantity} {U : ℕ}
    (hevent : ∀ w ∈ event.received, w.Within e q U)
    (h : (∀ w ∈ s.backlog, w.Within e q U) ∧ (view s.store).Within e q U) :
    (∀ w ∈ (writer.step s event).state.backlog, w.Within e q U) ∧
      (view (writer.step s event).state.store).Within e q U := by
  refine Writer.step_of_attempts (P := fun store => (view store).Within e q U) ?_ hevent h
  intro w store f b store' f' hw hstore ht
  rcases view_of_tryWrite ht with hview | ⟨-, hview⟩ <;> rw [hview]
  · exact hstore.after hw
  · exact hstore

/-- The writer's epoch is no smaller than that of any reset it has applied. -/
theorem writer_applied_rule :
    writer.Rule (fun _ _ => True) fun _ outs _ store =>
      ∀ epoch sinceTs, StoreWrite.roundReset epoch sinceTs ∈ outs → epoch ≤ (view store).epoch := by
  have hkeep : ∀ {store store' : Store} {w : StoreWrite} {f f' : List Bool} {b : Bool},
      tryWrite w store f = (b, store', f') → (view store).epoch ≤ (view store').epoch := by
    intro store store' w f f' b ht
    rcases view_of_tryWrite ht with hview | ⟨-, hview⟩ <;> rw [hview]
    exact RoundView.epoch_le_after _ _
  have hsnoc : ∀ {outs : List StoreWrite} {store store' : Store} {w : StoreWrite}
      {f f' : List Bool},
      (∀ epoch sinceTs, StoreWrite.roundReset epoch sinceTs ∈ outs → epoch ≤ (view store).epoch) →
      tryWrite w store f = (true, store', f') →
      ∀ epoch sinceTs, StoreWrite.roundReset epoch sinceTs ∈ outs ++ [w] →
        epoch ≤ (view store').epoch := by
    intro outs store store' w f f' h ht epoch sinceTs hmem
    rcases List.mem_append.mp hmem with hmem | hmem
    · exact (h epoch sinceTs hmem).trans (hkeep ht)
    · rw [view_of_applied (applied_of_tryWrite ht), ← List.mem_singleton.mp hmem]
      exact le_max_right _ _
  refine ⟨fun h ht => hsnoc h ht, fun h ht epoch sinceTs hmem => ?_, fun _ h ht => hsnoc h ht,
    fun _ h ht _ epoch sinceTs hmem => ?_, fun _ h ht _ epoch sinceTs hmem => ?_⟩
  all_goals exact (h epoch sinceTs hmem).trans (hkeep ht)

end Writer

/-! ## What one operation does to a quantity -/

section Operations

variable {s s' : PoolStats}

theorem ShareTask.remaining_le (q : Quantity) (t : ShareTask) :
    t.remaining q ≤ t.share.amount q := by
  rcases t with ⟨share, d, stage⟩
  cases stage <;> cases q <;> simp [remaining]

/-- Recording moves what is still to be added into the counters. -/
theorem ShareTask.recorded_step {t : ShareTask} {t' : Option ShareTask} (h : t.step s = (s', t'))
    (q : Quantity) :
    s'.recorded q + t'.elim 0 (remaining q) = s.recorded q + t.remaining q := by
  rcases t with ⟨share, d, stage⟩
  cases share with
  | accepted credit =>
    cases stage with
    | worked =>
      simp only [step] at h
      split at h <;> cases h <;> cases q <;> rfl
    | _ => cases h; cases q <;>
        simp [remaining, PoolStats.recorded, PoolStats.enqueue, Share.amount,
      Nat.add_assoc]
  | rejected reason =>
    cases stage with
    | counted =>
      cases h
      cases q with
      | reason reason' =>
        by_cases hr : reason' = reason
        · subst hr
          simp [remaining, PoolStats.recorded, Share.amount, Nat.add_assoc]
        · simp [remaining, PoolStats.recorded, Share.amount, hr]
      | _ => rfl
    | _ => cases h; cases q <;> simp [remaining, PoolStats.recorded, Share.amount, Nat.add_assoc]

theorem ShareTask.recorded_le_step {t : ShareTask} {t' : Option ShareTask}
    (h : t.step s = (s', t')) (q : Quantity) : s.recorded q ≤ s'.recorded q := by
  rcases t with ⟨share, d, stage⟩
  cases share with
  | accepted credit =>
    cases stage with
    | worked =>
      simp only [step] at h
      split at h <;> cases h <;> cases q <;> exact le_rfl
    | _ => cases h; cases q <;> simp [PoolStats.recorded, PoolStats.enqueue]
  | rejected reason =>
    cases stage with
    | counted =>
      cases h
      cases q with
      | reason reason' =>
        by_cases hr : reason' = reason
        · subst hr
          simp [PoolStats.recorded]
        · simp [PoolStats.recorded, hr]
      | _ => exact le_rfl
    | _ => cases h; cases q <;> simp [PoolStats.recorded]

theorem ShareTask.frame_step {t : ShareTask} {t' : Option ShareTask} (h : t.step s = (s', t')) :
    s'.offset = s.offset ∧ s'.roundEpoch = s.roundEpoch ∧
      ∀ write ∈ s'.writes, write ∈ s.writes ∨ isOther write := by
  rcases t with ⟨share, d, stage⟩
  cases share with
  | accepted credit =>
    cases stage with
    | worked =>
      simp only [step] at h
      split at h <;> cases h <;> exact ⟨rfl, rfl, fun _ hw => .inl hw⟩
    | raised =>
      cases h
      refine ⟨rfl, rfl, fun write hw => ?_⟩
      rcases List.mem_append.mp hw with hw | hw
      · exact .inl hw
      · exact .inr (by rw [List.mem_singleton.mp hw]; rfl)
    | _ => cases h; exact ⟨rfl, rfl, fun _ hw => .inl hw⟩
  | rejected reason => cases stage <;> cases h <;> exact ⟨rfl, rfl, fun _ hw => .inl hw⟩

/-- The reset has cleared the quantity. -/
def ResetStage.cleared : ResetStage → Quantity → Bool
  | .loadAccepted, _ | .storeAccepted _, _ => false
  | .loadRejected, q | .storeRejected _, q => q = .accepted
  | .reasons, q => q = .accepted ∨ q = .rejected
  | .work, q => q ≠ .work
  | _, _ => true

/-- The offset that the reset has read and is about to store. -/
def ResetStage.held : ResetStage → Quantity → Option ℕ
  | .storeAccepted offset, .accepted => some offset
  | .storeRejected offset, .rejected => some offset
  | _, _ => none

/-- An operation of a reset leaves a quantity alone, or reads its counter, or stores its offset, or
sets the work to zero. -/
theorem ResetTask.recorded_step {t : ResetTask} {t' : Option ResetTask} (h : t.step s = (s', t'))
    (q : Quantity) :
    (s'.recorded q = s.recorded q ∧ s'.offset q = s.offset q ∧
        ∀ u ∈ t', u.stage.cleared q = t.stage.cleared q ∧
          ∀ v ∈ u.stage.held q, v = s.recorded q) ∨
      (q ≠ .work ∧ s'.recorded q = s.recorded q ∧
        (s'.offset q = s.recorded q ∨ s'.offset q ∈ t.stage.held q) ∧
        ∀ u ∈ t', u.stage.held q = none) ∨
      (q = .work ∧ s'.recorded q = 0 ∧ ∀ u ∈ t', u.stage.held q = none) := by
  rcases t with ⟨now, stage⟩
  have hdone : ∀ {stage : ResetStage}, stage.held q = none →
      ∀ u ∈ some (⟨now, stage⟩ : ResetTask), u.stage.held q = none := by
    rintro stage hheld u ⟨⟩
    exact hheld
  cases stage <;> cases h <;> cases q
  case storeAccepted.refl.accepted => exact .inr (.inl ⟨nofun, rfl, .inr rfl, hdone rfl⟩)
  case storeRejected.refl.rejected => exact .inr (.inl ⟨nofun, rfl, .inr rfl, hdone rfl⟩)
  case reasons.refl.reason => exact .inr (.inl ⟨nofun, rfl, .inl rfl, hdone rfl⟩)
  case work.refl.work => exact .inr (.inr ⟨rfl, rfl, hdone rfl⟩)
  -- any other stage is about another quantity, or only reads the counter of this one
  all_goals
    refine .inl ⟨rfl, rfl, fun u hu => ?_⟩
    cases hu <;> exact ⟨rfl, fun v hv => by cases hv <;> rfl⟩

/-- The epoch is bumped once everything is cleared, and the write is queued after that. -/
theorem ResetTask.epoch_step {t : ResetTask} {t' : Option ResetTask} (h : t.step s = (s', t')) :
    ((∀ q, t.stage.cleared q) ∧ s'.roundEpoch = s.roundEpoch + 1 ∧ s'.writes = s.writes ∧
        t' = some { t with stage := .enqueue s'.roundEpoch }) ∨
      (s'.roundEpoch = s.roundEpoch ∧ s'.writes = s.writes ∧
        ∃ u, t' = some u ∧ ∀ epoch, u.stage ≠ .enqueue epoch) ∨
      ∃ epoch, t.stage = .enqueue epoch ∧ s' = s.enqueue (.roundReset epoch t.now) ∧ t' = none := by
  rcases t with ⟨now, stage⟩
  cases stage <;> cases h <;> simp [ResetStage.cleared]

/-- The total of the quantity in the draft is a counter whose offset was not yet taken off. -/
def SnapshotStage.raw : SnapshotStage → Quantity → Bool
  | .subAccepted, .accepted => true
  | .subRejected, .rejected => true
  | .subReasons, .reason _ => true
  | _, _ => false

/-- A snapshot changes nothing but the queue, and that at its end. -/
theorem SnapshotTask.frame_step {t : SnapshotTask} {t' : Option SnapshotTask}
    (h : t.step s = (s', t')) :
    s'.recorded = s.recorded ∧ s'.offset = s.offset ∧ s'.roundEpoch = s.roundEpoch ∧
      ∀ write ∈ s'.writes, write ∈ s.writes ∨ (write = .snapshot t.draft ∧ t.stage = .enqueue) := by
  rcases t with ⟨draft, stage⟩
  cases stage with
  | enqueue =>
    cases h
    refine ⟨rfl, rfl, rfl, fun write hw => (List.mem_append.mp hw).imp id fun hw => ?_⟩
    exact ⟨List.mem_singleton.mp hw, rfl⟩
  | _ => cases h; exact ⟨rfl, rfl, rfl, fun _ hw => .inl hw⟩

/-- An operation of a snapshot reads the epoch for a blank draft, or leaves a total of the draft
alone, or reads its counter, or takes its offset off. -/
theorem SnapshotTask.total_step {t u : SnapshotTask} (h : t.step s = (s', some u)) (q : Quantity) :
    (u.draft.roundEpoch = s.roundEpoch ∧ u.draft.total q = 0) ∨
      (u.draft.roundEpoch = t.draft.roundEpoch ∧
        ((u.draft.total q = t.draft.total q ∧ u.stage.raw q = t.stage.raw q) ∨
          (u.draft.total q = s.recorded q ∧ (u.stage.raw q ∨ q = .work)) ∨
          (t.stage.raw q ∧ u.draft.total q = t.draft.total q - s.offset q))) := by
  rcases t with ⟨draft, stage⟩
  cases stage <;> cases h <;> cases q <;>
    simp [SnapshotStage.raw, SnapshotWrite.total, SnapshotWrite.blank, PoolStats.recorded,
      PoolStats.offset]

end Operations

namespace World

/-- What the share of an event adds to a quantity. -/
def Event.amount (q : Quantity) : Event → ℕ
  | .beginShare share _ => share.amount q
  | _ => 0

/-- What an event can do. -/
inductive Move (w : World) : Event → World × List (Output StoreWrite) → Prop
  | idle {ev : Event} (hev : ∀ q, ev.amount q = 0) : Move w ev (w, [])
  | beginShare (share : Share) (d : ℕ) :
    Move w (.beginShare share d) ({ w with shares := w.shares ++ [.begin share d] }, [])
  | stepShare {i : ℕ} {t : ShareTask} {stats : PoolStats} {t' : Option ShareTask}
    (ht : w.shares[i]? = some t) (hstep : t.step w.stats = (stats, t')) :
    Move w (.stepShare i) ({ w with stats, shares := advance w.shares i t' }, [])
  | beginReset (now : ℕ) (hidle : w.reset = none) :
    Move w (.beginReset now) ({ w with reset := some (.begin now) }, [])
  | stepReset {t : ResetTask} {stats : PoolStats} {t' : Option ResetTask} (ht : w.reset = some t)
    (hstep : t.step w.stats = (stats, t')) :
    Move w .stepReset ({ w with stats, reset := t' }, [])
  | beginSnapshot : Move w .beginSnapshot ({ w with snapshots := w.snapshots ++ [.begin] }, [])
  | stepSnapshot {i : ℕ} {t : SnapshotTask} {stats : PoolStats} {t' : Option SnapshotTask}
    (ht : w.snapshots[i]? = some t) (hstep : t.step w.stats = (stats, t')) :
    Move w (.stepSnapshot i) ({ w with stats, snapshots := advance w.snapshots i t' }, [])
  | other (write : { write : StoreWrite // isOther write }) :
    Move w (.other write) ({ w with stats := w.stats.enqueue write }, [])
  | writer {ev : Event} (hev : ∀ q, ev.amount q = 0) (e : WriterEvent)
    (he : ∀ write ∈ e.received, write ∈ w.stats.writes) (taken : ℕ) :
    Move w ev ({ w with writer := (Stats.writer.step w.writer e).state, taken },
      (Stats.writer.step w.writer e).outputs)

theorem move_step (w : World) (ev : Event) : Move w ev (w.step ev) := by
  cases ev with
  | beginShare share d => exact .beginShare share d
  | stepShare i =>
    simp only [step]
    split
    · exact .idle fun _ => rfl
    · rename_i t ht
      exact .stepShare ht rfl
  | beginReset now =>
    simp only [step]
    split
    · rename_i hidle
      exact .beginReset now hidle
    · exact .idle fun _ => rfl
  | stepReset =>
    simp only [step]
    split
    · exact .idle fun _ => rfl
    · rename_i t ht
      exact .stepReset ht rfl
  | beginSnapshot => exact .beginSnapshot
  | stepSnapshot i =>
    simp only [step]
    split
    · exact .idle fun _ => rfl
    · rename_i t ht
      exact .stepSnapshot ht rfl
  | other write => exact .other write
  | retry faults => exact .writer (fun _ => rfl) (.retry faults) (fun _ h => by cases h) w.taken
  | handle faults =>
    simp only [step]
    split
    · exact .idle fun _ => rfl
    · rename_i write hwrite
      refine .writer (fun _ => rfl) (.handle write faults) (fun v hv => ?_) (w.taken + 1)
      cases hv
      exact List.mem_of_getElem? hwrite

theorem forall_writes_enqueue {P : StoreWrite → Prop} {s : PoolStats} {write : StoreWrite}
    (h : ∀ v ∈ s.writes, P v) (hw : P write) : ∀ v ∈ (s.enqueue write).writes, P v := by
  intro v hv
  rcases List.mem_append.mp hv with hv | hv
  · exact h v hv
  · rwa [List.mem_singleton.mp hv]

/-! ## Epochs -/

/-- No epoch in flight is ahead of the one in memory. -/
structure Dated (w : World) : Prop where
  writes : ∀ write ∈ w.stats.writes, write.epoch ≤ w.stats.roundEpoch
  snapshots : ∀ t ∈ w.snapshots, t.draft.roundEpoch ≤ w.stats.roundEpoch
  reset : ∀ t ∈ w.reset, ∀ epoch, t.stage = .enqueue epoch → epoch ≤ w.stats.roundEpoch
  writer : (∀ write ∈ w.writer.backlog, write.epoch ≤ w.stats.roundEpoch) ∧
    (view w.writer.store).epoch ≤ w.stats.roundEpoch

theorem dated_start (db : Database) (wallNow : ℕ) : (start db wallNow).Dated where
  writes := fun _ h => by cases h
  snapshots := fun _ h => by cases h
  reset := fun _ h => by cases h
  writer := ⟨fun _ h => (by cases h), le_rfl⟩

variable {w : World}

theorem Dated.move {ev : Event} {out : World × List (Output StoreWrite)} (h : w.Dated)
    (hm : Move w ev out) : out.1.Dated := by
  cases hm with
  | idle hev => exact h
  | beginShare share d => exact ⟨h.writes, h.snapshots, h.reset, h.writer⟩
  | @stepShare i t stats t' ht hstep =>
    obtain ⟨-, hepoch, hwrites⟩ := ShareTask.frame_step hstep
    refine ⟨fun write hw => ?_, hepoch ▸ h.snapshots, hepoch ▸ h.reset, hepoch ▸ h.writer⟩
    rcases hwrites write hw with hw | hw
    · exact hepoch ▸ h.writes write hw
    · exact (epoch_of_isOther hw).trans_le (Nat.zero_le _)
  | beginReset now hidle =>
    refine ⟨h.writes, h.snapshots, ?_, h.writer⟩
    rintro t ht epoch hstage
    cases ht
    cases hstage
  | @stepReset t stats t' ht hstep =>
    rcases ResetTask.epoch_step hstep with
      ⟨-, hepoch, hwrites, rfl⟩ | ⟨hepoch, hwrites, u, rfl, hu⟩ | ⟨epoch, hstage, rfl, rfl⟩
    · have hle : w.stats.roundEpoch ≤ stats.roundEpoch := by omega
      refine ⟨fun write hw => (h.writes write (hwrites ▸ hw)).trans hle,
        fun t ht => (h.snapshots t ht).trans hle, ?_,
        fun write hw => (h.writer.1 write hw).trans hle, h.writer.2.trans hle⟩
      rintro u hu epoch hstage
      cases hu
      cases hstage
      exact le_rfl
    · refine ⟨fun write hw => hepoch ▸ h.writes write (hwrites ▸ hw), hepoch ▸ h.snapshots, ?_,
        hepoch ▸ h.writer⟩
      rintro v hv epoch hstage
      cases hv
      exact absurd hstage (hu epoch)
    · exact ⟨forall_writes_enqueue h.writes (h.reset t ht epoch hstage), h.snapshots,
        fun _ hv => (by cases hv), h.writer⟩
  | beginSnapshot =>
    refine ⟨h.writes, fun t ht => ?_, h.reset, h.writer⟩
    rcases List.mem_append.mp ht with ht | ht
    · exact h.snapshots t ht
    · rw [List.mem_singleton.mp ht]
      exact Nat.zero_le _
  | @stepSnapshot i t stats t' ht hstep =>
    have hdated := h.snapshots t (List.mem_of_getElem? ht)
    obtain ⟨-, -, hepoch, hwrites⟩ := SnapshotTask.frame_step hstep
    refine ⟨fun write hw => ?_, fun v hv => ?_, hepoch ▸ h.reset, hepoch ▸ h.writer⟩
    · rcases hwrites write hw with hw | ⟨rfl, -⟩
      · exact hepoch ▸ h.writes write hw
      · exact hepoch ▸ hdated
    · rcases mem_advance hv with hv | rfl
      · exact hepoch ▸ h.snapshots v hv
      · rcases SnapshotTask.total_step hstep .work with ⟨hv, -⟩ | ⟨hv, -⟩
        · exact (hv.trans hepoch.symm).le
        · exact hepoch ▸ hv.trans_le hdated
  | other write =>
    exact ⟨forall_writes_enqueue h.writes ((epoch_of_isOther write.2).trans_le (Nat.zero_le _)),
      h.snapshots, h.reset, h.writer⟩
  | writer hev e he taken =>
    refine ⟨h.writes, h.snapshots, h.reset, ?_⟩
    exact writer_epoch_le (fun v hv => h.writes v (he v hv)) h.writer

/-! ## One reset and one quantity -/

/-- What is still to be added to a quantity for the shares in flight. -/
def remaining (w : World) (q : Quantity) : ℕ := (w.shares.map (ShareTask.remaining q)).sum

/-- The reset of epoch `e` has cleared the quantity. -/
def Cleared (w : World) (e : ℕ) (q : Quantity) : Prop :=
  e ≤ w.stats.roundEpoch ∨ ∃ t ∈ w.reset, t.stage.cleared q

/-- From the reset of epoch `e` on, no more than `U` of a quantity is recorded above `R`. -/
structure Bounded (e : ℕ) (q : Quantity) (R U : ℕ) (w : World) : Prop where
  work : q = .work → R = 0
  next : e ≤ w.stats.roundEpoch + 1
  recorded : R ≤ w.stats.recorded q
  remaining : w.remaining q ≤ U
  counted : q ≠ .work ∨ w.Cleared e q → w.stats.recorded q + w.remaining q ≤ R + U
  offset : w.Cleared e q → R ≤ w.stats.offset q
  held : ∀ t ∈ w.reset, ∀ v ∈ t.stage.held q, R ≤ v
  /-- The reset is in progress until it bumps the epoch. -/
  begun : w.stats.roundEpoch < e → ∃ t ∈ w.reset, ∀ epoch, t.stage ≠ .enqueue epoch
  snapshots : ∀ t ∈ w.snapshots, e ≤ t.draft.roundEpoch →
    e ≤ w.stats.roundEpoch ∧ t.draft.total q ≤ (if t.stage.raw q then R else 0) + U
  writes : ∀ write ∈ w.stats.writes, write.Within e q U
  writer : (∀ write ∈ w.writer.backlog, write.Within e q U) ∧ (view w.writer.store).Within e q U

variable {e : ℕ} {q : Quantity} {R U : ℕ}

theorem Bounded.stepShare (h : w.Bounded e q R U) {i : ℕ} {t : ShareTask} {stats : PoolStats}
    {t' : Option ShareTask} (ht : w.shares[i]? = some t) (hstep : t.step w.stats = (stats, t')) :
    Bounded e q R U { w with stats, shares := advance w.shares i t' } := by
  obtain ⟨hoffset, hepoch, hwrites⟩ := ShareTask.frame_step hstep
  have hmoved := ShareTask.recorded_step hstep q
  have hsum : World.remaining { w with stats, shares := advance w.shares i t' } q + t.remaining q =
      w.remaining q + t'.elim 0 (ShareTask.remaining q) := sum_advance (ShareTask.remaining q) ht t'
  have hrec : w.stats.recorded q ≤ stats.recorded q := ShareTask.recorded_le_step hstep q
  have hcleared : Cleared { w with stats, shares := advance w.shares i t' } e q → w.Cleared e q :=
    fun hc => hc.imp (fun he => he.trans_eq hepoch) id
  refine { h with
    next := hepoch ▸ h.next
    recorded := h.recorded.trans hrec
    remaining := ?_
    counted := fun hc => ?_
    offset := fun hc => (h.offset (hcleared hc)).trans_eq (congrFun hoffset q).symm
    begun := hepoch ▸ h.begun
    snapshots := hepoch ▸ h.snapshots
    writes := fun write hw => ?_ }
  · have := h.remaining
    omega
  · have hcount := h.counted (hc.imp id hcleared)
    change stats.recorded q + _ ≤ R + U
    omega
  · rcases hwrites write hw with hw | hw
    · exact h.writes write hw
    · exact within_of_isOther hw e q U

/-- The reset clears a quantity in an operation on that quantity; bumping the epoch adds nothing. -/
theorem cleared_stepReset {t : ResetTask} {stats : PoolStats} {t' : Option ResetTask}
    (ht : w.reset = some t) (hstep : t.step w.stats = (stats, t'))
    (hc : Cleared { w with stats, reset := t' } e q) :
    w.Cleared e q ∨ ∃ u ∈ t', u.stage.cleared q := by
  rcases ResetTask.epoch_step hstep with ⟨hall, -⟩ | ⟨hepoch, -⟩ | ⟨epoch, -, rfl, -⟩
  · exact .inl (.inr ⟨t, ht, hall q⟩)
  · exact hc.imp (fun he => .inl (he.trans_eq hepoch)) id
  · exact hc.imp .inl id

theorem Bounded.stepReset (h : w.Bounded e q R U) {t : ResetTask} {stats : PoolStats}
    {t' : Option ResetTask} (ht : w.reset = some t) (hstep : t.step w.stats = (stats, t')) :
    Bounded e q R U { w with stats, reset := t' } := by
  have hcases := ResetTask.epoch_step hstep
  have hle : w.stats.roundEpoch ≤ stats.roundEpoch := by
    rcases hcases with ⟨-, hepoch, -⟩ | ⟨hepoch, -⟩ | ⟨epoch, -, rfl, -⟩
    · omega
    · exact hepoch.ge
    · exact le_rfl
  have hbegun : stats.roundEpoch < e → ∃ u ∈ t', ∀ epoch, u.stage ≠ .enqueue epoch := by
    intro hlt
    rcases hcases with ⟨-, hepoch, -⟩ | ⟨-, -, u, rfl, hu⟩ | ⟨epoch, hstage, rfl, -⟩
    · exact absurd h.next (by omega)
    · exact ⟨u, rfl, hu⟩
    · obtain ⟨v, hv, hne⟩ := h.begun hlt
      cases ht.symm.trans hv
      exact absurd hstage (hne epoch)
  have hwrites : ∀ write ∈ stats.writes, write.Within e q U := by
    rcases hcases with ⟨-, -, hwrites, -⟩ | ⟨-, hwrites, -⟩ | ⟨epoch, -, rfl, -⟩
    · exact hwrites ▸ h.writes
    · exact hwrites ▸ h.writes
    · exact forall_writes_enqueue h.writes fun _ => Nat.zero_le U
  have hcleared := fun hc => cleared_stepReset (e := e) (q := q) ht hstep hc
  suffices hq : R ≤ stats.recorded q ∧
      (q ≠ .work ∨ Cleared { w with stats, reset := t' } e q →
        stats.recorded q + w.remaining q ≤ R + U) ∧
      (Cleared { w with stats, reset := t' } e q → R ≤ stats.offset q) ∧
      ∀ u ∈ t', ∀ v ∈ u.stage.held q, R ≤ v from
    { h with
      next := h.next.trans (Nat.add_le_add_right hle 1)
      recorded := hq.1
      counted := hq.2.1
      offset := hq.2.2.1
      held := hq.2.2.2
      begun := hbegun
      snapshots := fun v hv he => ⟨(h.snapshots v hv he).1.trans hle, (h.snapshots v hv he).2⟩
      writes := hwrites }
  rcases ResetTask.recorded_step hstep q with ⟨hrec, hoff, hu⟩ | ⟨hne, hrec, hoff, hu⟩ |
    ⟨hwork, hrec, hu⟩
  · -- nothing but the counter may have been read
    have hold : Cleared { w with stats, reset := t' } e q → w.Cleared e q := fun hc => by
      rcases hcleared hc with hc | ⟨u, hut, huc⟩
      · exact hc
      · exact .inr ⟨t, ht, (hu u hut).1 ▸ huc⟩
    rw [hrec, hoff]
    exact ⟨h.recorded, fun hc => h.counted (hc.imp id hold), fun hc => h.offset (hold hc),
      fun u hut v hv => h.recorded.trans_eq ((hu u hut).2 v hv).symm⟩
  · -- the offset was stored: a counter as it is now, or as it was since the reset began
    rw [hrec]
    refine ⟨h.recorded, fun _ => h.counted (.inl hne), fun _ => ?_, fun u hut v hv => ?_⟩
    · rcases hoff with hoff | hoff
      · exact hoff ▸ h.recorded
      · exact h.held t ht _ hoff
    · rw [hu u hut] at hv
      cases hv
  · have hR := h.work hwork
    have := h.remaining
    refine ⟨by omega, fun _ => by omega, fun _ => by omega, fun u hut v hv => by omega⟩

theorem Bounded.stepSnapshot (h : w.Bounded e q R U) {i : ℕ} {t : SnapshotTask} {stats : PoolStats}
    {t' : Option SnapshotTask} (ht : w.snapshots[i]? = some t)
    (hstep : t.step w.stats = (stats, t')) :
    Bounded e q R U { w with stats, snapshots := advance w.snapshots i t' } := by
  obtain ⟨hrecorded, hoffset, hepoch, hwrites⟩ := SnapshotTask.frame_step hstep
  have htask := h.snapshots t (List.mem_of_getElem? ht)
  have hcleared : Cleared { w with stats, snapshots := advance w.snapshots i t' } e q →
      w.Cleared e q := fun hc => hc.imp (fun he => he.trans_eq hepoch) id
  refine { h with
    next := hepoch ▸ h.next
    recorded := h.recorded.trans_eq (congrFun hrecorded q).symm
    counted := fun hc => (congrFun hrecorded q).symm ▸ h.counted (hc.imp id hcleared)
    offset := fun hc => (h.offset (hcleared hc)).trans_eq (congrFun hoffset q).symm
    begun := hepoch ▸ h.begun
    snapshots := ?_
    writes := ?_ }
  · intro u hu he
    rcases mem_advance hu with hu | rfl
    · exact hepoch ▸ h.snapshots u hu he
    · have hread : e ≤ w.stats.roundEpoch → w.stats.recorded q ≤ R + U := fun he => by
        have := h.counted (.inr (.inl he))
        omega
      rcases SnapshotTask.total_step hstep q with ⟨hu, htotal⟩ | ⟨hu, htotal⟩
      · exact ⟨(he.trans_eq hu).trans_eq hepoch.symm, htotal.trans_le (Nat.zero_le _)⟩
      · obtain ⟨hpast, hle⟩ := htask (he.trans_eq hu)
        refine ⟨hpast.trans_eq hepoch.symm, ?_⟩
        rcases htotal with ⟨htotal, hraw⟩ | ⟨htotal, hraw | hwork⟩ | ⟨hraw, htotal⟩
        · rw [htotal, hraw]
          exact hle
        · rw [htotal, if_pos hraw]
          exact hread hpast
        · have := hread hpast
          have := h.work hwork
          omega
        · have := h.offset (.inl hpast)
          rw [if_pos hraw] at hle
          omega
  · intro write hw he
    rcases hwrites write hw with hw | ⟨rfl, hstage⟩
    · exact h.writes write hw he
    · have hraw := (htask he).2
      rw [hstage] at hraw
      exact hraw.trans_eq (Nat.zero_add U)

/-- One step, whatever it is: shares that come in add to what may be carried. -/
theorem Bounded.move {ev : Event} {out : World × List (Output StoreWrite)} (h : w.Bounded e q R U)
    (hpos : 0 < e) (hm : Move w ev out) : out.1.Bounded e q R (U + ev.amount q) := by
  cases hm with
  | idle hev => exact (hev q).symm ▸ h
  | beginShare share d =>
    have hsum : World.remaining { w with shares := w.shares ++ [.begin share d] } q =
        w.remaining q + share.amount q := by
      unfold World.remaining
      rw [List.map_append, List.sum_append]
      rfl
    have hle : U ≤ U + share.amount q := Nat.le_add_right _ _
    refine { h with
      remaining := hsum ▸ Nat.add_le_add_right h.remaining _
      counted := fun hc => ?_
      snapshots := fun t ht he =>
        ⟨(h.snapshots t ht he).1, (h.snapshots t ht he).2.trans (Nat.add_le_add_left hle _)⟩
      writes := fun write hw => (h.writes write hw).mono hle
      writer :=
        ⟨fun write hw => (h.writer.1 write hw).mono hle, fun he => (h.writer.2 he).trans hle⟩ }
    rw [hsum, ← Nat.add_assoc, ← Nat.add_assoc]
    exact Nat.add_le_add_right (h.counted hc) _
  | stepShare ht hstep => exact h.stepShare ht hstep
  | beginReset now hidle =>
    have hcleared : Cleared { w with reset := some (.begin now) } e q → w.Cleared e q := by
      rintro (he | ⟨t, ht, hc⟩)
      · exact .inl he
      · cases ht
        cases hc
    refine { h with
      counted := fun hc => h.counted (hc.imp id hcleared)
      offset := fun hc => h.offset (hcleared hc)
      held := fun t ht v hv => ?_
      begun := fun _ => ⟨_, rfl, fun _ hne => by cases hne⟩ }
    cases ht
    cases hv
  | stepReset ht hstep => exact h.stepReset ht hstep
  | beginSnapshot =>
    refine { h with snapshots := fun t ht he => ?_ }
    rcases List.mem_append.mp ht with ht | ht
    · exact h.snapshots t ht he
    · rw [List.mem_singleton.mp ht] at he
      exact absurd he (Nat.not_le.mpr hpos)
  | stepSnapshot ht hstep => exact h.stepSnapshot ht hstep
  | other write =>
    exact { h with writes := forall_writes_enqueue h.writes (within_of_isOther write.2 e q U) }
  | writer hev event hevent taken =>
    rw [hev q]
    exact { h with writer := writer_within (fun v hv => h.writes v (hevent v hv)) h.writer }

/-! ## Runs -/

theorem run_cons (w : World) (ev : Event) (events : List Event) :
    w.run (ev :: events) = (w.step ev).1.run events := rfl

theorem Dated.run (h : w.Dated) (events : List Event) : (w.run events).Dated := by
  induction events generalizing w with
  | nil => exact h
  | cons ev events ih => exact ih (h.move (move_step w ev))

theorem Bounded.run (h : w.Bounded e q R U) (hpos : 0 < e) (events : List Event) :
    (w.run events).Bounded e q R (U + (events.map (Event.amount q)).sum) := by
  induction events generalizing w U with
  | nil => exact h
  | cons ev events ih =>
    rw [List.map_cons, List.sum_cons, ← Nat.add_assoc]
    exact ih (h.move hpos (move_step w ev))

theorem epoch_of_applied (w : World) (events : List Event) {epoch sinceTs : ℕ}
    (h : StoreWrite.roundReset epoch sinceTs ∈ applied (w.written events)) :
    epoch ≤ (view (w.run events).writer.store).epoch := by
  have hfrom : ∀ (outs : List StoreWrite), (∀ epoch sinceTs,
      StoreWrite.roundReset epoch sinceTs ∈ outs → epoch ≤ (view w.writer.store).epoch) →
      ∀ epoch sinceTs, StoreWrite.roundReset epoch sinceTs ∈ outs ++ applied (w.written events) →
        epoch ≤ (view (w.run events).writer.store).epoch := by
    clear h
    induction events generalizing w with
    | nil => simp [written, Process.run, World.run]
    | cons ev events ih =>
      intro outs houts
      have hout : ∀ {out : World × List (Output StoreWrite)}, Move w ev out →
          ∀ epoch sinceTs, StoreWrite.roundReset epoch sinceTs ∈ outs ++ applied out.2 →
            epoch ≤ (view out.1.writer.store).epoch := by
        intro out hm
        cases hm with
        | writer hev event hevent taken =>
          exact @Writer.Rule.step _ _ _ Stats.writer _ _ writer_applied_rule [] outs w.writer event
            trivial houts
        | _ => simpa using houts
      have hrest := ih (w.step ev).1 (outs ++ applied (w.step ev).2) (hout (move_step w ev))
      rw [List.append_assoc, ← applied_append] at hrest
      exact hrest
  exact hfrom [] (fun _ _ h => by cases h) epoch sinceTs (by simpa using h)

/-- What the shares amount to whose recording has begun and not ended. -/
def unfinished (w : World) (q : Quantity) : ℕ := (w.shares.map fun t => t.share.amount q).sum

/-- When the reset of the next epoch begins. -/
theorem bounded_begin (h : w.Dated) (now : ℕ) (q : Quantity) :
    Bounded (w.stats.roundEpoch + 1) q (if q = .work then 0 else w.stats.recorded q)
      (w.unfinished q) { w with reset := some (.begin now) } := by
  have hnot : ¬ Cleared { w with reset := some (.begin now) } (w.stats.roundEpoch + 1) q := by
    rintro (he | ⟨t, ht, hc⟩)
    · exact absurd he (Nat.not_succ_le_self _)
    · cases ht
      cases hc
  have hremaining : w.remaining q ≤ w.unfinished q :=
    List.sum_le_sum fun t _ => t.remaining_le q
  -- nothing in flight carries the next epoch yet
  have hnext : ∀ {epoch : ℕ} {P : Prop}, epoch ≤ w.stats.roundEpoch →
      w.stats.roundEpoch + 1 ≤ epoch → P :=
    fun hle he => absurd (he.trans hle) (Nat.not_succ_le_self _)
  refine {
    work := fun hq => if_pos hq
    next := le_rfl
    recorded := ?_
    remaining := hremaining
    counted := ?_
    offset := fun hc => absurd hc hnot
    held := ?_
    begun := fun _ => ⟨_, rfl, fun _ hne => by cases hne⟩
    snapshots := fun t ht => hnext (h.snapshots t ht)
    writes := fun write hw => hnext (h.writes write hw)
    writer := ⟨fun write hw => hnext (h.writer.1 write hw), hnext h.writer.2⟩ }
  · split
    · exact Nat.zero_le _
    · exact le_rfl
  · rintro (hq | hc)
    · rw [if_neg hq]
      exact Nat.add_le_add_left hremaining _
    · exact absurd hc hnot
  · rintro t ht v hv
    cases ht
    cases hv

/-- Let a reset begin while none is in progress; it is the one of the next epoch. In any schedule,
once the writer has applied it, no total in the tables exceeds that of the shares whose recording
had not ended when the reset began: those in flight then and those that came later. -/
theorem finished_rounds_stay_out (db : Database) (wallNow now sinceTs : ℕ) (past later : List Event)
    (q : Quantity) {before after : World} (hbefore : before = (start db wallNow).run past)
    (hidle : before.reset = none) (hafter : after = before.run (.beginReset now :: later))
    (hreset : StoreWrite.roundReset (before.stats.roundEpoch + 1) sinceTs ∈
      applied (before.written (.beginReset now :: later))) :
    after.writer.store.db.round.total q ≤
      before.unfinished q + (later.map (Event.amount q)).sum := by
  have hdated : before.Dated := hbefore ▸ (dated_start db wallNow).run past
  have hbegin : (before.step (.beginReset now)).1 = { before with reset := some (.begin now) } := by
    simp only [step, hidle]
  have hbounded := (bounded_begin hdated now q).run (Nat.succ_pos _) later
  rw [← hbegin, ← run_cons, ← hafter] at hbounded
  have hepoch := epoch_of_applied before _ hreset
  rw [← hafter] at hepoch
  exact hbounded.writer.2 hepoch

/-- A share is counted, a round reset, the work of the share added, and a snapshot taken; the writer
applies both writes. -/
def regtestSchedule : List Event :=
  List.replicate 11 .stepReset ++ [.stepShare 0, .beginSnapshot] ++
    List.replicate 9 (.stepSnapshot 0) ++ [.handle [], .handle []]

theorem finished_rounds_stay_out_regtest :
    let before := (start (.create 1) 2).run [.beginShare (.accepted 7) 3, .stepShare 0]
    let after := before.run (.beginReset 4 :: regtestSchedule)
    after.writer.store.db.round.total .work = 7 ∧
      after.writer.store.db.round.total .work ≤
        before.unfinished .work + (regtestSchedule.map (Event.amount .work)).sum := by
  refine ⟨by decide +kernel, ?_⟩
  exact finished_rounds_stay_out (.create 1) 2 4 4 _ regtestSchedule .work rfl rfl rfl
    (List.mem_of_getElem? (i := 0) rfl)

end World

end BtcPool.Stats
