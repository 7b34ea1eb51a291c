import BtcPool.Foundations.Grid
import BtcPool.Stats.Rollups
import BtcPool.Stats.WorkHistory

/-!
# The points of a work history

`get_work_history` buckets the minute table and the hourly table each on a grid of its own and
merges what falls on one time. If no hour is in both tables, the two grids are one (`Gridded.grid`):
buckets of the hourly table where it has rows, buckets of the minutes elsewhere. The points are then
those of the rows on that grid (`Charts`), and what is said of them follows from the cells of a grid
being disjoint (`workHistory_exact`).

The scopes matter only in which rows count. Rows are tied to workers and workers to users
(`WellKept`, which no schedule of writes and rollups breaks), so that the rows of the pool split
into those of its users, and the rows of a user into those of its workers (`Splits.sumsTo`).
-/

namespace BtcPool.Stats

open Rows Sqlite

/-! ## Grouping by bucket -/

/-- The amounts of the points at a time. -/
def amountAt (ts : ℕ) (points : List WorkHistoryPoint) : LedgerPending :=
  (points.map fun p => if p.ts = ts then p.toLedgerPending else 0).sum

theorem amountAt_append (ts : ℕ) (points points' : List WorkHistoryPoint) :
    amountAt ts (points ++ points') = amountAt ts points + amountAt ts points' := by
  rw [amountAt, List.map_append, List.sum_append]
  rfl

namespace ShareLedger

/-- Two points of one bucket as the query merges them. -/
def mergePoints (old new : WorkHistoryPoint) : WorkHistoryPoint :=
  { old.toLedgerPending + new.toLedgerPending with
    ts := old.ts, spanSecs := max old.spanSecs new.spanSecs }

section GroupPoints

variable (points : List WorkHistoryPoint)

theorem groupPoints_eq :
    groupPoints points = upsertAll WorkHistoryPoint.ts mergePoints points [] := rfl

theorem ts_mergePoints (old new : WorkHistoryPoint) (_ : old.ts = new.ts) :
    (mergePoints old new).ts = old.ts := rfl

theorem nodup_ts_groupPoints : ((groupPoints points).map WorkHistoryPoint.ts).Nodup := by
  rw [groupPoints_eq]
  exact nodup_upsertAll ts_mergePoints List.nodup_nil

theorem mem_ts_groupPoints {ts : ℕ} :
    ts ∈ (groupPoints points).map WorkHistoryPoint.ts ↔ ts ∈ points.map WorkHistoryPoint.ts := by
  rw [groupPoints_eq, mem_map_key_upsertAll ts_mergePoints]
  simp

theorem amountAt_groupPoints (ts : ℕ) : amountAt ts (groupPoints points) = amountAt ts points := by
  rw [groupPoints_eq]
  refine (sum_upsertAll ?_ points []).trans (zero_add _)
  intro old new hts
  by_cases hnew : new.ts = ts
  · simp only [ts_mergePoints old new hts, hts, hnew, if_true]
    rfl
  · simp only [ts_mergePoints old new hts, hts, if_neg hnew]
    rfl

variable {points}

/-- Where the times fix the spans, they do so after grouping. -/
theorem spanSecs_groupPoints {span : ℕ → ℕ} (h : ∀ p ∈ points, p.spanSecs = span p.ts) :
    ∀ p ∈ groupPoints points, p.spanSecs = span p.ts := by
  rw [groupPoints_eq]
  refine forall_upsertAll ?_ h (by simp)
  intro old new hts hold hnew
  change max old.spanSecs new.spanSecs = span old.ts
  rw [hold, hnew, hts, max_self]

end GroupPoints

/-! ## One grid for two tables -/

/-- The width of the buckets of hourly rows. -/
def hourlyBucket (bucket : ℕ) : ℕ := max bucket 3600 / 3600 * 3600

/-- Buckets that fit hours, and hours that are in one table at most. -/
structure Gridded (ledger : ShareLedger) (bucket : ℕ) : Prop where
  pos : 0 < bucket
  fits : bucket ∣ 3600 ∨ 3600 ∣ bucket
  aligned : ∀ r ∈ ledger.shareIntervalsHourly, r.ts % 3600 = 0
  apart : ∀ m ∈ ledger.shareIntervals, ∀ h ∈ ledger.shareIntervalsHourly,
    m.ts / 3600 ≠ h.ts / 3600

namespace Gridded

variable {ledger : ShareLedger} {bucket : ℕ}

/-- Hourly rows are bucketed by the hour, or like the minutes if buckets are not narrower. -/
theorem hourlyBucket_cases (h : ledger.Gridded bucket) :
    hourlyBucket bucket = 3600 ∧ bucket ∣ 3600 ∨ hourlyBucket bucket = bucket := by
  unfold hourlyBucket
  rcases h.fits with hdvd | hdvd
  · rw [max_eq_right (Nat.le_of_dvd (by decide) hdvd)]
    exact .inl ⟨rfl, hdvd⟩
  · rw [max_eq_left (Nat.le_of_dvd h.pos hdvd)]
    exact .inr (Nat.div_mul_cancel hdvd)

theorem hourlyBucket_pos (h : ledger.Gridded bucket) : 0 < hourlyBucket bucket := by
  have hpos := h.pos
  rcases h.hourlyBucket_cases with ⟨heq, -⟩ | heq <;> omega

theorem dvd_hourlyBucket (h : ledger.Gridded bucket) : bucket ∣ hourlyBucket bucket := by
  rcases h.hourlyBucket_cases with ⟨heq, hdvd⟩ | heq <;> rw [heq]
  exact hdvd

/-- The buckets of both tables: those of the hourly table where it has rows, and the others. -/
def grid (h : ledger.Gridded bucket) : Grid :=
  .mixed (fun i => ∃ r ∈ ledger.shareIntervalsHourly, r.ts / hourlyBucket bucket = i)
    h.hourlyBucket_pos h.dvd_hourlyBucket

variable {r : ShareInterval}

theorem span_hour (h : ledger.Gridded bucket) (hr : r ∈ ledger.shareIntervalsHourly) :
    h.grid.span r.ts = hourlyBucket bucket := if_pos ⟨r, hr, rfl⟩

theorem span_minute (h : ledger.Gridded bucket) (hr : r ∈ ledger.shareIntervals) :
    h.grid.span r.ts = bucket := by
  change (if _ then _ else _) = _
  split
  · rename_i hhour
    obtain ⟨q, hq, hindex⟩ := hhour
    rcases h.hourlyBucket_cases with ⟨heq, -⟩ | heq
    · rw [heq] at hindex
      exact absurd hindex.symm (h.apart r hr q hq)
    · exact heq
  · rfl

theorem start_eq (h : ledger.Gridded bucket) (t : ℕ) :
    h.grid.start t = t / h.grid.span t * h.grid.span t := rfl

theorem start_hour (h : ledger.Gridded bucket) (hr : r ∈ ledger.shareIntervalsHourly) :
    h.grid.start r.ts = r.ts / hourlyBucket bucket * hourlyBucket bucket := by
  rw [h.start_eq, h.span_hour hr]

theorem start_minute (h : ledger.Gridded bucket) (hr : r ∈ ledger.shareIntervals) :
    h.grid.start r.ts = r.ts / bucket * bucket := by
  rw [h.start_eq, h.span_minute hr]

/-- No bucket of a row from the start of the range on begins before it. -/
theorem le_start (h : ledger.Gridded bucket)
    (hr : r ∈ ledger.shareIntervals ++ ledger.shareIntervalsHourly) {since : ℕ}
    (hsince : bucket ∣ since) (hle : since ≤ r.ts) : since ≤ h.grid.start r.ts := by
  have hfloor : since ≤ r.ts / bucket * bucket := by
    obtain ⟨k, rfl⟩ := hsince
    rw [Nat.mul_comm]
    refine Nat.mul_le_mul_right _ ((Nat.le_div_iff_mul_le h.pos).mpr ?_)
    rwa [Nat.mul_comm]
  rcases List.mem_append.mp hr with hr | hr
  · rw [h.start_minute hr]
    exact hfloor
  · rw [h.start_hour hr]
    rcases h.hourlyBucket_cases with ⟨heq, -⟩ | heq <;> rw [heq]
    · -- an hourly row stands at the start of its bucket
      have haligned := h.aligned r hr
      omega
    · exact hfloor

end Gridded

end ShareLedger

/-! ## Points of rows on a grid -/

/-- The points are those of the rows: one for each cell with a row, over that cell, with the amounts
of the rows in it. -/
structure Charts (G : Grid) (rows : List ShareInterval) (points : List WorkHistoryPoint) :
    Prop where
  nodup : (points.map WorkHistoryPoint.ts).Nodup
  mem_ts : ∀ ts, ts ∈ points.map WorkHistoryPoint.ts ↔ ∃ r ∈ rows, G.start r.ts = ts
  span : ∀ p ∈ points, p.spanSecs = G.span p.ts
  amount : ∀ ts, amountAt ts points =
    (rows.map fun r => if G.start r.ts = ts then r.toLedgerPending else 0).sum

namespace Charts

variable {G : Grid} {rows rows' : List ShareInterval} {points points' : List WorkHistoryPoint}

/-- The point of one row. -/
def cellPoint (G : Grid) (r : ShareInterval) : WorkHistoryPoint :=
  { r.toLedgerPending with ts := G.start r.ts, spanSecs := G.span r.ts }

theorem groupRows (G : Grid) (rows : List ShareInterval) :
    Charts G rows (ShareLedger.groupPoints (rows.map (cellPoint G))) where
  nodup := ShareLedger.nodup_ts_groupPoints _
  mem_ts ts := by
    rw [ShareLedger.mem_ts_groupPoints, List.map_map, List.mem_map]
    rfl
  span := by
    refine ShareLedger.spanSecs_groupPoints fun p hp => ?_
    obtain ⟨r, -, rfl⟩ := List.mem_map.mp hp
    exact (G.span_start r.ts).symm
  amount ts := by
    rw [ShareLedger.amountAt_groupPoints, amountAt, List.map_map]
    rfl

theorem groupAppend (h : Charts G rows points) (h' : Charts G rows' points') :
    Charts G (rows ++ rows') (ShareLedger.groupPoints (points ++ points')) where
  nodup := ShareLedger.nodup_ts_groupPoints _
  mem_ts ts := by
    rw [ShareLedger.mem_ts_groupPoints, List.map_append, List.mem_append, h.mem_ts, h'.mem_ts]
    simp only [List.mem_append, or_and_right, exists_or]
  span := by
    refine ShareLedger.spanSecs_groupPoints fun p hp => ?_
    exact (List.mem_append.mp hp).elim (h.span p) (h'.span p)
  amount ts := by
    rw [ShareLedger.amountAt_groupPoints, amountAt_append, h.amount, h'.amount, List.map_append,
      List.sum_append]

theorem perm (h : Charts G rows points) (hperm : points.Perm points') : Charts G rows points' where
  nodup := (hperm.map _).nodup_iff.mp h.nodup
  mem_ts ts := (hperm.map _).mem_iff.symm.trans (h.mem_ts ts)
  span p hp := h.span p (hperm.mem_iff.mpr hp)
  amount ts := ((hperm.map _).sum_eq.symm).trans (h.amount ts)

/-- Leaving out the points that have not elapsed leaves out the rows in them. -/
theorem elapsed (h : Charts G rows points) (now : ℕ) :
    Charts G (rows.filter fun r => G.start r.ts + G.span r.ts ≤ now)
      (points.filter fun p => p.ts + p.spanSecs ≤ now) where
  nodup := h.nodup.sublist (List.filter_sublist.map _)
  mem_ts ts := by
    simp only [List.mem_map, List.mem_filter, decide_eq_true_eq]
    constructor
    · rintro ⟨p, ⟨hp, hend⟩, rfl⟩
      obtain ⟨r, hr, hstart⟩ := (h.mem_ts p.ts).mp (List.mem_map_of_mem hp)
      rw [h.span p hp, ← hstart, G.span_start] at hend
      exact ⟨r, ⟨hr, hend⟩, hstart⟩
    · rintro ⟨r, ⟨hr, hend⟩, hstart⟩
      obtain ⟨p, hp, rfl⟩ := List.mem_map.mp ((h.mem_ts ts).mpr ⟨r, hr, hstart⟩)
      rw [← G.span_start, hstart, ← h.span p hp] at hend
      exact ⟨p, ⟨hp, hend⟩, rfl⟩
  span p hp := h.span p (List.mem_of_mem_filter hp)
  amount ts := by
    -- whether a cell has elapsed is the same for its point and for the rows in it
    have hpoints : ∀ p ∈ points, p.ts = ts → (p.ts + p.spanSecs ≤ now ↔ ts + G.span ts ≤ now) := by
      rintro p hp rfl
      rw [h.span p hp]
    have hrows : ∀ r ∈ rows, G.start r.ts = ts →
        (G.start r.ts + G.span r.ts ≤ now ↔ ts + G.span ts ≤ now) := by
      rintro r - rfl
      rw [G.span_start]
    rw [amountAt, sum_filter_key hpoints, sum_filter_key hrows, ← h.amount ts]
    rfl

theorem start_ts (h : Charts G rows points) {p : WorkHistoryPoint} (hp : p ∈ points) :
    G.start p.ts = p.ts := by
  obtain ⟨r, -, hstart⟩ := (h.mem_ts p.ts).mp (List.mem_map_of_mem hp)
  rw [← hstart, G.start_start]

/-- A time lies in the interval of a point if its cell is that of the point. -/
theorem mem_interval_iff (h : Charts G rows points) {p : WorkHistoryPoint} (hp : p ∈ points)
    (t : ℕ) : p.ts ≤ t ∧ t < p.ts + p.spanSecs ↔ G.start t = p.ts := by
  have hcell := G.mem_cell_iff (s := p.ts) (t := t)
  rwa [h.start_ts hp, ← h.span p hp] at hcell

/-- Points in order cover disjoint intervals. -/
theorem pairwise_end_le (h : Charts G rows points)
    (hsorted : points.Pairwise fun p q => p.ts ≤ q.ts) :
    points.Pairwise fun p q => p.ts + p.spanSecs ≤ q.ts := by
  have hdistinct : points.Pairwise fun p q => p.ts ≠ q.ts := List.pairwise_map.mp h.nodup
  refine (hsorted.and hdistinct).imp_of_mem ?_
  rintro p q hp hq ⟨hle, hne⟩
  have hlt : G.start p.ts < G.start q.ts := by
    rw [h.start_ts hp, h.start_ts hq]
    exact lt_of_le_of_ne hle hne
  have hend := G.end_le hlt
  rwa [h.start_ts hp, h.start_ts hq, ← h.span p hp] at hend

theorem existsUnique_point (h : Charts G rows points) {r : ShareInterval} (hr : r ∈ rows) :
    ∃! p, p ∈ points ∧ p.ts ≤ r.ts ∧ r.ts < p.ts + p.spanSecs := by
  obtain ⟨p, hp, hts⟩ := List.mem_map.mp ((h.mem_ts _).mpr ⟨r, hr, rfl⟩)
  refine ⟨p, ⟨hp, (h.mem_interval_iff hp r.ts).mpr hts.symm⟩, ?_⟩
  rintro q ⟨hq, hinside⟩
  have hstart := (h.mem_interval_iff hq r.ts).mp hinside
  exact List.inj_on_of_nodup_map h.nodup hq hp (hstart.symm.trans hts.symm)

theorem exists_point_iff (h : Charts G rows points) (ts span : ℕ) :
    (∃ p ∈ points, p.ts = ts ∧ p.spanSecs = span) ↔
      ∃ r ∈ rows, G.start r.ts = ts ∧ G.span r.ts = span := by
  constructor
  · rintro ⟨p, hp, rfl, rfl⟩
    obtain ⟨r, hr, hstart⟩ := (h.mem_ts p.ts).mp (List.mem_map_of_mem hp)
    exact ⟨r, hr, hstart, by rw [h.span p hp, ← hstart, G.span_start]⟩
  · rintro ⟨r, hr, rfl, rfl⟩
    obtain ⟨p, hp, hts⟩ := List.mem_map.mp ((h.mem_ts _).mpr ⟨r, hr, rfl⟩)
    exact ⟨p, hp, hts, by rw [h.span p hp, hts, G.span_start]⟩

theorem toLedgerPending_eq (h : Charts G rows points) {p : WorkHistoryPoint} (hp : p ∈ points) :
    p.toLedgerPending =
      (rows.map fun r => if G.start r.ts = p.ts then r.toLedgerPending else 0).sum := by
  rw [← h.amount]
  exact (sum_ite_key_eq h.nodup hp).symm

end Charts

/-! ## The history on its grid -/

namespace ShareLedger

/-- The rows of both tables. -/
def intervals (ledger : ShareLedger) : List ShareInterval :=
  ledger.shareIntervals ++ ledger.shareIntervalsHourly

/-- The rows in scope from a time on. -/
def rowsFrom (ledger : ShareLedger) (scope : LedgerScope) (since : ℕ) : List ShareInterval :=
  ledger.intervals.filter fun r => since ≤ r.ts && ledger.inScope scope r.workerId

/-- The rows in scope in an interval. -/
def rowsWithin (ledger : ShareLedger) (scope : LedgerScope) (ts span : ℕ) : List ShareInterval :=
  ledger.intervals.filter fun r =>
    ledger.inScope scope r.workerId && decide (ts ≤ r.ts ∧ r.ts < ts + span)

variable {ledger : ShareLedger}

/-- The points of one table whose rows are bucketed as the grid has them. -/
theorem charts_bucketed (ledger : ShareLedger) {G : Grid} {rows : List ShareInterval} {bucket : ℕ}
    (hrows : ∀ r ∈ rows, G.start r.ts = r.ts / bucket * bucket ∧ G.span r.ts = bucket)
    (scope : LedgerScope) (since : ℕ) :
    Charts G (rows.filter fun r => since ≤ r.ts && ledger.inScope scope r.workerId)
      (ledger.bucketed scope since bucket rows) := by
  have hpoints : ledger.bucketed scope since bucket rows = groupPoints
      ((rows.filter fun r => since ≤ r.ts && ledger.inScope scope r.workerId).map
        (Charts.cellPoint G)) := by
    refine congrArg groupPoints (List.map_congr_left fun r hr => ?_)
    obtain ⟨hstart, hspan⟩ := hrows r (List.mem_of_mem_filter hr)
    rw [Charts.cellPoint, hstart, hspan]
  rw [hpoints]
  exact .groupRows G _

/-- The sums of both tables by bucket, in order, before spans and the present are looked at. -/
def orderedPoints (ledger : ShareLedger) (scope : LedgerScope) (since bucket : ℕ) :
    List WorkHistoryPoint :=
  (groupPoints (ledger.bucketed scope since bucket ledger.shareIntervals ++
    ledger.bucketed scope since (hourlyBucket bucket) ledger.shareIntervalsHourly)).mergeSort
      fun a b => decide (a.ts ≤ b.ts)

theorem pairwise_orderedPoints (ledger : ShareLedger) (scope : LedgerScope) (since bucket : ℕ) :
    (ledger.orderedPoints scope since bucket).Pairwise fun p q => p.ts ≤ q.ts := by
  refine (List.pairwise_mergeSort ?_ ?_ _).imp fun hle => of_decide_eq_true hle
  · intro a b c hab hbc
    rw [decide_eq_true_eq] at hab hbc ⊢
    exact hab.trans hbc
  · intro a b
    rw [Bool.or_eq_true, decide_eq_true_eq, decide_eq_true_eq]
    exact le_total a.ts b.ts

namespace Gridded

variable {bucket : ℕ} (h : ledger.Gridded bucket)

include h

theorem charts_orderedPoints (scope : LedgerScope) (since : ℕ) :
    Charts h.grid (ledger.rowsFrom scope since) (ledger.orderedPoints scope since bucket) := by
  have hminutes : Charts h.grid _ (ledger.bucketed scope since bucket ledger.shareIntervals) :=
    charts_bucketed ledger (fun r hr => ⟨h.start_minute hr, h.span_minute hr⟩) scope since
  have hhours : Charts h.grid _
      (ledger.bucketed scope since (hourlyBucket bucket) ledger.shareIntervalsHourly) :=
    charts_bucketed ledger (fun r hr => ⟨h.start_hour hr, h.span_hour hr⟩) scope since
  have hgrouped := hminutes.groupAppend hhours
  rw [← List.filter_append] at hgrouped
  exact hgrouped.perm (List.mergeSort_perm _ _).symm

end Gridded

section History

variable {sinceTs bucketSecs nowTs : ℕ} {scope : LedgerScope}
  (h : ledger.Gridded (max bucketSecs 1))

include h

/-- On a grid every span is positive as it is. -/
theorem Gridded.getWorkHistory_eq : ledger.getWorkHistory sinceTs bucketSecs nowTs scope =
    (ledger.orderedPoints scope (sinceTs / max bucketSecs 1 * max bucketSecs 1)
      (max bucketSecs 1)).filter fun p => p.ts + p.spanSecs ≤ nowTs := by
  refine congrArg (List.filter _) ((List.map_congr_left fun p hp => ?_).trans (List.map_id _))
  have hpos := h.grid.span_pos p.ts
  rw [← (h.charts_orderedPoints scope _).span p hp] at hpos
  rw [max_eq_left hpos, id]

/-- The history charts the rows in scope and in range whose buckets have elapsed. -/
theorem Gridded.charts : Charts h.grid
    ((ledger.rowsFrom scope (sinceTs / max bucketSecs 1 * max bucketSecs 1)).filter fun r =>
      h.grid.start r.ts + h.grid.span r.ts ≤ nowTs)
    (ledger.getWorkHistory sinceTs bucketSecs nowTs scope) := by
  rw [h.getWorkHistory_eq]
  exact (h.charts_orderedPoints scope _).elapsed nowTs

theorem Gridded.pairwise_getWorkHistory :
    (ledger.getWorkHistory sinceTs bucketSecs nowTs scope).Pairwise fun p q => p.ts ≤ q.ts := by
  rw [h.getWorkHistory_eq]
  exact (ledger.pairwise_orderedPoints scope _ _).sublist List.filter_sublist

/-- A point has the amounts of the rows in scope inside its interval, in range or not. -/
theorem Gridded.toLedgerPending_eq {p : WorkHistoryPoint}
    (hp : p ∈ ledger.getWorkHistory sinceTs bucketSecs nowTs scope) :
    p.toLedgerPending =
      ((ledger.rowsWithin scope p.ts p.spanSecs).map ShareInterval.toLedgerPending).sum := by
  have hcharts : Charts h.grid _ (ledger.getWorkHistory sinceTs bucketSecs nowTs scope) := h.charts
  -- the interval has elapsed and starts in the range, as its point says
  obtain ⟨q, hq, hstart⟩ := (hcharts.mem_ts p.ts).mp (List.mem_map_of_mem hp)
  rw [List.mem_filter, rowsFrom, List.mem_filter, Bool.and_eq_true, decide_eq_true_eq,
    decide_eq_true_eq] at hq
  obtain ⟨⟨hmem, hrange, -⟩, helapsed⟩ := hq
  have hsince := h.le_start hmem (Nat.dvd_mul_left _ _) hrange
  rw [hcharts.toLedgerPending_eq hp, rowsWithin, rowsFrom, sum_map_filter, sum_map_filter,
    sum_map_filter]
  congr 1
  refine List.map_congr_left fun r _ => ?_
  simp only [Bool.and_eq_true, decide_eq_true_eq, hcharts.mem_interval_iff hp]
  by_cases hcell : h.grid.start r.ts = p.ts
  · have hend : h.grid.start r.ts + h.grid.span r.ts ≤ nowTs := by
      rw [← h.grid.span_start r.ts, hcell, ← hstart, h.grid.span_start]
      exact helapsed
    have hfrom : sinceTs / max bucketSecs 1 * max bucketSecs 1 ≤ r.ts := by
      rw [hstart, ← hcell] at hsince
      exact hsince.trans (h.grid.start_le r.ts)
    rw [if_pos hend, if_pos hcell]
    simp only [hfrom, hcell, true_and, and_true]
  · rw [if_neg hcell, ite_self, ite_self, if_neg fun hboth => hcell hboth.2]

end History

end ShareLedger

/-! ## Histories of parts -/

/-- A history is those of its parts added up, bucket by bucket. -/
structure SumsTo (whole : List WorkHistoryPoint) (parts : List (List WorkHistoryPoint)) : Prop where
  amount : ∀ ts, amountAt ts whole = (parts.map (amountAt ts)).sum
  points : ∀ ts span, (∃ p ∈ whole, p.ts = ts ∧ p.spanSecs = span) ↔
    ∃ part ∈ parts, ∃ p ∈ part, p.ts = ts ∧ p.spanSecs = span

namespace ShareLedger

variable {ledger : ShareLedger}

/-- Every row in scope is in one of the parts, and no other row is in any. -/
def Splits (ledger : ShareLedger) (scope : LedgerScope) (parts : List LedgerScope) : Prop :=
  ∀ r ∈ ledger.intervals, (parts.countP fun part => ledger.inScope part r.workerId) =
    if ledger.inScope scope r.workerId then 1 else 0

theorem Splits.inScope_iff {scope : LedgerScope} {parts : List LedgerScope}
    (h : ledger.Splits scope parts) {r : ShareInterval} (hr : r ∈ ledger.intervals) :
    ledger.inScope scope r.workerId ↔ ∃ part ∈ parts, ledger.inScope part r.workerId := by
  rw [← List.countP_pos_iff, h r hr]
  split <;> simp_all

section Parts

variable {sinceTs bucketSecs nowTs : ℕ} (h : ledger.Gridded (max bucketSecs 1))

include h

/-- What a row adds to the points at a time does not depend on the scope it is in. -/
theorem Gridded.exists_weight (sinceTs nowTs ts : ℕ) : ∃ weight : ShareInterval → LedgerPending,
    ∀ scope, amountAt ts (ledger.getWorkHistory sinceTs bucketSecs nowTs scope) =
      (ledger.intervals.map fun r =>
        if ledger.inScope scope r.workerId then weight r else 0).sum := by
  refine ⟨fun r => if sinceTs / max bucketSecs 1 * max bucketSecs 1 ≤ r.ts then
    if h.grid.start r.ts + h.grid.span r.ts ≤ nowTs then
      if h.grid.start r.ts = ts then r.toLedgerPending else 0 else 0 else 0, fun scope => ?_⟩
  rw [h.charts.amount ts, rowsFrom, sum_map_filter, sum_map_filter]
  congr 1
  refine List.map_congr_left fun r _ => ?_
  simp only [Bool.and_eq_true, decide_eq_true_eq]
  by_cases hscope : ledger.inScope scope r.workerId = true
  · simp only [hscope, and_true, if_true]
  · rw [if_neg fun hboth => hscope hboth.2, if_neg hscope]

theorem Gridded.exists_point_iff (scope : LedgerScope) (ts span : ℕ) :
    (∃ p ∈ ledger.getWorkHistory sinceTs bucketSecs nowTs scope, p.ts = ts ∧ p.spanSecs = span) ↔
      ∃ r ∈ ledger.intervals, ledger.inScope scope r.workerId ∧
        sinceTs / max bucketSecs 1 * max bucketSecs 1 ≤ r.ts ∧
        h.grid.start r.ts + h.grid.span r.ts ≤ nowTs ∧
        h.grid.start r.ts = ts ∧ h.grid.span r.ts = span := by
  rw [h.charts.exists_point_iff]
  simp only [rowsFrom, List.mem_filter, Bool.and_eq_true, decide_eq_true_eq]
  constructor
  · rintro ⟨r, ⟨⟨hr, hsince, hscope⟩, hend⟩, hcell⟩
    exact ⟨r, hr, hscope, hsince, hend, hcell⟩
  · rintro ⟨r, hr, hscope, hsince, hend, hcell⟩
    exact ⟨r, ⟨⟨hr, hsince, hscope⟩, hend⟩, hcell⟩

/-- Where the rows split, so do the histories. -/
theorem Splits.sumsTo {scope : LedgerScope} {parts : List LedgerScope}
    (hsplits : ledger.Splits scope parts) (sinceTs nowTs : ℕ) :
    SumsTo (ledger.getWorkHistory sinceTs bucketSecs nowTs scope)
      (parts.map (ledger.getWorkHistory sinceTs bucketSecs nowTs)) := by
  refine ⟨fun ts => ?_, fun ts span => ?_⟩
  · obtain ⟨weight, hweight⟩ := h.exists_weight sinceTs nowTs ts
    rw [hweight, sum_eq_sum_parts hsplits, List.map_map]
    congr 1
    exact List.map_congr_left fun part _ => (hweight part).symm
  · simp only [List.mem_map, exists_exists_and_eq_and]
    constructor
    · intro hpoint
      obtain ⟨r, hr, hscope, hrest⟩ := (h.exists_point_iff scope ts span).mp hpoint
      obtain ⟨part, hpart, hin⟩ := (hsplits.inScope_iff hr).mp hscope
      exact ⟨part, hpart, (h.exists_point_iff part ts span).mpr ⟨r, hr, hin, hrest⟩⟩
    · rintro ⟨part, hpart, hpoint⟩
      obtain ⟨r, hr, hin, hrest⟩ := (h.exists_point_iff part ts span).mp hpoint
      have hscope := (hsplits.inScope_iff hr).mpr ⟨part, hpart, hin⟩
      exact (h.exists_point_iff scope ts span).mpr ⟨r, hr, hscope, hrest⟩

end Parts

/-! ## Scopes that split -/

/-- The rows are as the schema and the writer have them: tied together, hourly rows on the hour, and
addresses without the dot that ends them in a worker's name. -/
structure WellKept (ledger : ShareLedger) : Prop extends ledger.Sound where
  aligned : ∀ r ∈ ledger.shareIntervalsHourly, r.ts % 3600 = 0
  dotFree : ∀ u ∈ ledger.users, '.' ∉ u.payoutAddress

/-- The halves of a name are those it was put together from. -/
theorem splitWorker_scopeName {u : UserRow} (hu : '.' ∉ u.payoutAddress) (w : WorkerRow) :
    splitWorker (scopeName u w) = (u.payoutAddress, w.label) := by
  by_cases hlabel : w.label = []
  · have hname : scopeName u w = joinName u.payoutAddress none := by
      simp [scopeName, joinName, hlabel]
    rw [hname, splitWorker_joinName hu, hlabel]
    rfl
  · have hname : scopeName u w = joinName u.payoutAddress (some w.label) := by
      simp [scopeName, joinName, hlabel]
    rw [hname, splitWorker_joinName hu]
    rfl

theorem scopeName_eq_iff {u u' : UserRow} (hu : '.' ∉ u.payoutAddress)
    (hu' : '.' ∉ u'.payoutAddress) (w w' : WorkerRow) :
    scopeName u w = scopeName u' w' ↔
      u.payoutAddress = u'.payoutAddress ∧ w.label = w'.label := by
  constructor
  · intro h
    have hhalves := congrArg splitWorker h
    rw [splitWorker_scopeName hu, splitWorker_scopeName hu'] at hhalves
    exact Prod.mk.inj hhalves
  · rintro ⟨haddress, hlabel⟩
    rw [scopeName, scopeName, haddress, hlabel]

namespace WellKept

variable (h : ledger.WellKept)

include h

theorem exists_worker {r : ShareInterval} (hr : r ∈ ledger.intervals) :
    ∃ w ∈ ledger.workers, w.id = r.workerId ∧ ∃ u ∈ ledger.users, u.id = w.userId := by
  obtain ⟨w, hw, hid⟩ := (List.mem_append.mp hr).elim (h.minutes r) (h.hours r)
  exact ⟨w, hw, hid, h.users_of_workers w hw⟩

/-- Every row is that of one user. -/
theorem splits_users :
    ledger.Splits .pool (ledger.users.map fun u => .user u.payoutAddress) := by
  intro r hr
  obtain ⟨w, hw, hid, u, hu, huser⟩ := h.exists_worker hr
  have hone := List.count_eq_one_of_mem h.addresses (List.mem_map_of_mem hu)
  rw [List.count, List.countP_map] at hone
  rw [List.countP_map, show ledger.inScope .pool r.workerId = true from rfl, if_pos rfl, ← hone]
  refine List.countP_congr fun v _ => ?_
  simp only [Function.comp_apply, inScope, ← hid, h.joined_eq hw hu huser, decide_eq_true_eq,
    beq_iff_eq]
  exact eq_comm

/-- Every row of a user is that of one of the user's workers. -/
theorem splits_workers {u : UserRow} (hu : u ∈ ledger.users) :
    ledger.Splits (.user u.payoutAddress)
      ((ledger.workers.filter fun w => w.userId = u.id).map fun w => .worker (scopeName u w)) := by
  intro r hr
  obtain ⟨w, hw, hid, v, hv, huser⟩ := h.exists_worker hr
  have hname : ∀ w', ledger.inScope (.worker (scopeName u w')) r.workerId ↔
      v.payoutAddress = u.payoutAddress ∧ w.label = w'.label := by
    intro w'
    simp only [inScope, ← hid, h.joined_eq hw hv huser, decide_eq_true_eq]
    exact scopeName_eq_iff (h.dotFree v hv) (h.dotFree u hu) w w'
  have hscope : ledger.inScope (.user u.payoutAddress) r.workerId ↔
      v.payoutAddress = u.payoutAddress := by
    simp only [inScope, ← hid, h.joined_eq hw hv huser, decide_eq_true_eq]
  rw [List.countP_map, List.countP_filter]
  by_cases haddress : v.payoutAddress = u.payoutAddress
  · obtain rfl : v = u := List.inj_on_of_nodup_map h.addresses hv hu haddress
    have hone := List.count_eq_one_of_mem h.workerKeys (List.mem_map_of_mem hw)
    rw [List.count, List.countP_map] at hone
    rw [if_pos (hscope.mpr rfl), ← hone]
    refine List.countP_congr fun w' _ => ?_
    simp only [Function.comp_apply, Bool.and_eq_true, hname, decide_eq_true_eq, beq_iff_eq,
      Prod.mk.injEq, huser, true_and]
    rw [and_comm, eq_comm (a := w.label)]
  · rw [if_neg fun hin => haddress (hscope.mp hin), List.countP_eq_zero]
    intro w' _ hin
    rw [Bool.and_eq_true] at hin
    exact haddress ((hname w').mp hin.1).1

end WellKept

/-! ## What the writer keeps -/

theorem dot_notMem_splitWorker (name : Str) : '.' ∉ (splitWorker name).1 := by
  unfold splitWorker splitOnce
  cases hdrop : name.dropWhile (· ≠ '.') with
  | nil =>
    intro hmem
    have hne := List.dropWhile_eq_nil_iff.mp hdrop '.' hmem
    simp at hne
  | cons c rest =>
    intro hmem
    have hne := List.mem_takeWhile_imp hmem
    simp at hne

namespace WellKept

theorem empty : ShareLedger.empty.WellKept :=
  { sound_empty with
    aligned := fun _ hr => absurd hr List.not_mem_nil
    dotFree := fun _ hu => absurd hu List.not_mem_nil }

theorem insertUser (h : ledger.WellKept) (name : Str) (now : ℕ) :
    (ledger.insertUser (splitWorker name).1 now).WellKept := by
  by_cases hnamed : (splitWorker name).1 = []
  · rw [ShareLedger.insertUser, if_pos hnamed]
    exact h
  · refine { (h.toSound.insertUser hnamed now).1 with aligned := ?_, dotFree := ?_ }
    · rw [shareIntervalsHourly_insertUser]
      exact h.aligned
    · intro u hu
      rw [ShareLedger.insertUser, if_neg hnamed] at hu
      rcases mem_upsert hu with hu | rfl | ⟨old, hold, -, rfl⟩
      · exact h.dotFree u hu
      · exact dot_notMem_splitWorker name
      · exact h.dotFree _ hold

theorem insertWorker (h : ledger.WellKept) (address label : Str) (now : ℕ) :
    (ledger.insertWorker address label now).WellKept := by
  unfold ShareLedger.insertWorker
  cases hfind : ledger.users.find? fun u => u.payoutAddress = address with
  | none => exact h
  | some u =>
    rcases insertOrIgnore_cases (fun w : WorkerRow => (w.userId, w.label))
      { id := nextId (ledger.workers.map WorkerRow.id), userId := u.id, label, firstSeenTs := now }
      ledger.workers with ⟨-, heq⟩ | ⟨hnew, heq⟩ <;> simp only [heq]
    · exact h
    · exact { h.toSound.concat_worker (List.mem_of_find?_eq_some hfind) rfl rfl hnew with
        aligned := h.aligned, dotFree := h.dotFree }

theorem insertInterval (h : ledger.WellKept) {row : ShareInterval}
    (hallowed : ledger.intervalAllowed row) : (ledger.insertInterval row).WellKept := by
  simp only [intervalAllowed, Bool.and_eq_true, List.any_eq_true, decide_eq_true_eq] at hallowed
  exact { h.toSound.insertInterval hallowed.2 with aligned := h.aligned, dotFree := h.dotFree }

theorem rolledUp (h : ledger.WellKept) (cutoff : ℕ) : (ledger.rolledUp cutoff).WellKept := by
  refine { h.toSound.rollUp cutoff with aligned := ?_, dotFree := h.dotFree }
  have hmerge : ∀ r row : ShareInterval, intervalKey r = intervalKey row → r.ts % 3600 = 0 →
      row.ts % 3600 = 0 → (addAmounts r row).ts % 3600 = 0 := fun _ _ _ hr _ => hr
  refine forall_upsertAll hmerge (forall_upsertAll hmerge ?_ (by simp)) h.aligned
  intro r hr
  obtain ⟨q, -, rfl⟩ := List.mem_map.mp hr
  exact Nat.mul_mod_left _ _

end WellKept

end ShareLedger

/-- One file, well kept. -/
def SameKept (db db' : Database) : Prop := db = db' ∧ db.ledger.WellKept

theorem SameKept.unbroken : Unbroken SameKept where
  selectWorkerId h _ _ := by rw [h.1]
  workers h := by rw [h.1]
  insertUser h name now := ⟨by rw [h.1], h.2.insertUser name now⟩
  insertWorker h address label now := ⟨by rw [h.1], h.2.insertWorker address label now⟩
  insertInterval h row hallowed := ⟨by rw [h.1], h.2.insertInterval (by rwa [h.1])⟩

/-- No schedule of minutes and rollups, whatever the faults, takes a file out of order. -/
theorem wellKept_performAll {store : Store} (h : store.db.ledger.WellKept)
    (tasks : List (LedgerTask × List Bool)) :
    (LedgerTask.performAll store tasks).2.db.ledger.WellKept := by
  induction tasks generalizing store with
  | nil => exact h
  | cons task tasks ih =>
    refine ih ?_
    obtain ⟨task, faults⟩ := task
    cases task with
    | minute minuteTs entries =>
      exact ((SameKept.unbroken.writeMinute minuteTs entries).onError
        (fun state => { state with workerIds := [] }) ⟨store.db, store.state, faults⟩
        ⟨store.db, store.state, faults⟩ ⟨rfl, h⟩ rfl rfl).db.2
    | rollUp now =>
      have hends := rollUpLedger_rolledUp store.db store.state now faults
      change ((rollUpLedger now).run ⟨store.db, store.state, faults⟩).2.db.ledger.WellKept
      rcases hrun : (rollUpLedger now).run ⟨store.db, store.state, faults⟩ with ⟨e | u, c⟩ <;>
        rw [hrun] at hends
      · rw [hends.2.1]
        exact h
      · rw [hends.1]
        exact h.rolledUp _

/-! ## The history -/

namespace ShareLedger

theorem WellKept.gridded {ledger : ShareLedger} (h : ledger.WellKept) {bucketSecs : ℕ}
    (hbucket : bucketSecs ∣ 3600 ∨ 3600 ∣ bucketSecs)
    (hapart : ∀ m ∈ ledger.shareIntervals, ∀ q ∈ ledger.shareIntervalsHourly,
      m.ts / 3600 ≠ q.ts / 3600) : ledger.Gridded (max bucketSecs 1) where
  pos := lt_max_of_lt_right Nat.one_pos
  fits := by
    by_cases hpos : 0 < bucketSecs
    · rw [max_eq_left hpos]
      exact hbucket
    · rw [max_eq_right (by omega)]
      exact .inl (Nat.one_dvd 3600)
  aligned := h.aligned
  apart := hapart

/-- **The work history is exact.** If no hour is in both tables, the points of a history cover
disjoint intervals in order, all of them elapsed; each has the amounts of the rows in scope in its
interval; each row in scope and in range whose bucket has elapsed is in one of them; and the points
of the pool add up those of its users, as the points of a user add up those of the user's
workers. -/
theorem workHistory_exact (ledger : ShareLedger) (sinceTs bucketSecs nowTs : ℕ)
    (scope : LedgerScope) (hkept : ledger.WellKept)
    (hbucket : bucketSecs ∣ 3600 ∨ 3600 ∣ bucketSecs)
    (hapart : ∀ m ∈ ledger.shareIntervals, ∀ q ∈ ledger.shareIntervalsHourly,
      m.ts / 3600 ≠ q.ts / 3600) :
    let history := ledger.getWorkHistory sinceTs bucketSecs nowTs
    let bucket := max bucketSecs 1
    let hourly := hourlyBucket bucket
    ((history scope).Pairwise fun p q => p.ts + p.spanSecs ≤ q.ts) ∧
    (∀ p ∈ history scope, 0 < p.spanSecs ∧ p.ts + p.spanSecs ≤ nowTs ∧
      p.toLedgerPending =
        ((ledger.rowsWithin scope p.ts p.spanSecs).map ShareInterval.toLedgerPending).sum) ∧
    (∀ r, ledger.inScope scope r.workerId → sinceTs / bucket * bucket ≤ r.ts →
      (r ∈ ledger.shareIntervals ∧ r.ts / bucket * bucket + bucket ≤ nowTs ∨
        r ∈ ledger.shareIntervalsHourly ∧ r.ts / hourly * hourly + hourly ≤ nowTs) →
      ∃! p, p ∈ history scope ∧ p.ts ≤ r.ts ∧ r.ts < p.ts + p.spanSecs) ∧
    SumsTo (history .pool) (ledger.users.map fun u => history (.user u.payoutAddress)) ∧
    ∀ u ∈ ledger.users, SumsTo (history (.user u.payoutAddress))
      ((ledger.workers.filter fun w => w.userId = u.id).map fun w =>
        history (.worker (scopeName u w))) := by
  intro history bucket hourly
  have h := hkept.gridded hbucket hapart
  have hcharts : Charts h.grid _ (history scope) := h.charts
  refine ⟨hcharts.pairwise_end_le h.pairwise_getWorkHistory, fun p hp => ⟨?_, ?_, ?_⟩,
    fun r hscope hsince helapsed => hcharts.existsUnique_point ?_, ?_, fun u hu => ?_⟩
  · rw [hcharts.span p hp]
    exact h.grid.span_pos p.ts
  · change p ∈ ledger.getWorkHistory sinceTs bucketSecs nowTs scope at hp
    rw [h.getWorkHistory_eq] at hp
    have hend := List.of_mem_filter hp
    exact of_decide_eq_true hend
  · exact h.toLedgerPending_eq hp
  · rw [List.mem_filter, rowsFrom, List.mem_filter, Bool.and_eq_true, decide_eq_true_eq,
      decide_eq_true_eq]
    rcases helapsed with ⟨hr, hend⟩ | ⟨hr, hend⟩
    · rw [h.start_minute hr, h.span_minute hr]
      exact ⟨⟨List.mem_append_left _ hr, hsince, hscope⟩, hend⟩
    · rw [h.start_hour hr, h.span_hour hr]
      exact ⟨⟨List.mem_append_right _ hr, hsince, hscope⟩, hend⟩
  · have hsums := hkept.splits_users.sumsTo h sinceTs nowTs
    rw [List.map_map] at hsums
    exact hsums
  · have hsums := (hkept.splits_workers hu).sumsTo h sinceTs nowTs
    rw [List.map_map] at hsums
    exact hsums

/-- Two workers of one address, an hour rolled up and two minutes of the next. -/
def seamLedger : ShareLedger where
  users := [⟨1, "a".toList, 0⟩]
  workers := [⟨1, 1, [], 0⟩, ⟨2, 1, "b.c".toList, 0⟩]
  shareIntervals := [⟨⟨5, 1, 0⟩, 1, 3600⟩, ⟨⟨7, 1, 0⟩, 2, 3600⟩, ⟨⟨9, 1, 1⟩, 2, 3660⟩]
  shareIntervalsHourly := [⟨⟨40, 4, 0⟩, 2, 0⟩]

theorem workHistory_exact_seam :
    (∃! p, p ∈ seamLedger.getWorkHistory 0 60 3700 .pool ∧ p.ts ≤ 3600 ∧ 3600 < p.ts + p.spanSecs) ∧
      SumsTo (seamLedger.getWorkHistory 0 60 3700 (.user "a".toList))
        [seamLedger.getWorkHistory 0 60 3700 (.worker "a".toList),
          seamLedger.getWorkHistory 0 60 3700 (.worker "a.b.c".toList)] := by
  have hkept : seamLedger.WellKept := by
    constructor
    · constructor <;> decide
    · decide
    · decide
  obtain ⟨-, -, hrows, -, hworkers⟩ :=
    workHistory_exact seamLedger 0 60 3700 .pool hkept (by decide) (by decide)
  refine ⟨hrows ⟨⟨5, 1, 0⟩, 1, 3600⟩ rfl (by decide) (.inl ⟨by decide, by decide⟩), ?_⟩
  exact hworkers ⟨1, "a".toList, 0⟩ (by decide)

end ShareLedger

end BtcPool.Stats
