import BtcPool.Foundations.Rows
import BtcPool.Foundations.Bytes
import BtcPool.Mining.Hashrate

/-!
# The pool's meters

`PoolStats` keeps a hashrate meter for each connection, under the name of the worker it last had a
share accepted for, and one meter of accepted shares for the pool. The share path only adds to what
is pending; a task ticks all meters at a fixed cadence and drops those that have decayed to nothing.
The rates by worker are written to the file with every snapshot, and a process that starts on the
file makes a meter of each, decayed across the time since.

Stopping the process for a while changes no reading by more than a cut for each connection of a
worker (`Meters.restart_unnoticed`). No reading exceeds the difficulty credited in all over its
window (`Meters.readings_le`).
-/

namespace BtcPool.Stats

open Rows Decay

variable {K : Type} [Field K] [LinearOrder K]

/-- The meter of a session and the worker it counts for. -/
structure SessionHashrate (K : Type) [Field K] [LinearOrder K] where
  sessionId : Str
  worker : Str
  decay : HashrateDecay K

/-- The meters of all sessions, and that of the pool's shares. -/
structure Meters (K : Type) [Field K] [LinearOrder K] where
  sessionHashrates : List (SessionHashrate K)
  pendingShares : ℕ
  shareRate : HashrateDecay K

/-- What a snapshot says about the meters. -/
structure Checkpoint (K : Type) where
  updatedTs : ℕ
  workerRates : List (Str × (Fin windowCount → K))
  shareRates : Fin windowCount → K

theorem dsps_of_isIdle {decay : HashrateDecay K} (h : decay.isIdle) (i : Fin windowCount) :
    decay.dsps i = 0 := by
  simp only [HashrateDecay.isIdle, decide_eq_true_eq] at h
  exact h.2 i

/-- The sum over the connections of a worker that were not dropped. -/
theorem sum_filter_not_idle (entries : List (SessionHashrate K)) {g : SessionHashrate K → K}
    (hg : ∀ entry, entry.decay.isIdle → g entry = 0) :
    ((entries.filter fun entry => ¬ entry.decay.isIdle).map g).sum = (entries.map g).sum := by
  induction entries with
  | nil => rfl
  | cons entry entries ih =>
    by_cases hidle : entry.decay.isIdle
    · rw [List.filter_cons_of_neg (by simpa using hidle), ih, List.map_cons, List.sum_cons,
        hg entry hidle, zero_add]
    · rw [List.filter_cons_of_pos (by simpa using hidle), List.map_cons, List.sum_cons, ih,
        List.map_cons, List.sum_cons]

namespace Meters

section Readings

variable (meters : Meters K)

/-- The rates of a worker: those of its connections, summed. -/
def workerRates (worker : Str) (i : Fin windowCount) : K :=
  ((meters.sessionHashrates.filter fun entry => entry.worker = worker).map fun entry =>
    entry.decay.hashrates i).sum

/-- The readings of all workers. -/
def hashratesByWorker : List (Str × (Fin windowCount → K)) :=
  (meters.sessionHashrates.map SessionHashrate.worker).dedup.map fun worker =>
    (worker, meters.workerRates worker)

/-- The rates of the pool: those of the workers, summed. -/
def poolRates (i : Fin windowCount) : K := (meters.hashratesByWorker.map fun row => row.2 i).sum

/-- What is saved of the meters. -/
def checkpoint (stateTs : ℕ) : Checkpoint K where
  updatedTs := stateTs
  workerRates := meters.hashratesByWorker
  shareRates := meters.shareRate.perMinute

/-- The row of a worker in the checkpoint, if the worker has a meter. -/
theorem filter_hashratesByWorker (worker : Str) :
    meters.hashratesByWorker.filter (fun row => row.1 = worker) =
      if worker ∈ meters.sessionHashrates.map SessionHashrate.worker then
        [(worker, meters.workerRates worker)] else [] := by
  have hpred : ((fun row : Str × (Fin windowCount → K) => decide (row.1 = worker)) ∘
      fun name => (name, meters.workerRates name)) = fun name => decide (name = worker) := rfl
  rw [hashratesByWorker, List.filter_map, hpred, List.filter_eq]
  split
  · rename_i hworker
    rw [List.count_eq_one_of_mem (List.nodup_dedup _) (List.mem_dedup.mpr hworker)]
    rfl
  · rename_i hnone
    rw [List.count_eq_zero.mpr fun hworker => hnone (List.mem_dedup.mp hworker)]
    rfl

end Readings

variable [IsStrictOrderedRing K] (E : Exponential K) (meters : Meters K)

/-- No session has a meter. -/
def new (now : Instant) : Meters K where
  sessionHashrates := []
  pendingShares := 0
  shareRate := .new now

/-- The meter of a connection follows the worker's name. -/
def addShareDiffAt (sessionId worker : Str) (difficulty : K) (now : Instant) : Meters K :=
  { meters with
    sessionHashrates := upsert SessionHashrate.sessionId
      (fun entry _ => { entry with worker, decay := entry.decay.addShare difficulty })
      { sessionId, worker, decay := (HashrateDecay.new now).addShare difficulty }
      meters.sessionHashrates }

/-- The part of counting an accepted share that the share rate is made of. -/
def shareAccepted : Meters K := { meters with pendingShares := meters.pendingShares + 1 }

/-- All meters tick, and those that have run out are dropped. -/
def tickHashratesAt (now : Instant) : Meters K where
  sessionHashrates :=
    (meters.sessionHashrates.map fun entry => { entry with decay := entry.decay.tick E now }).filter
      fun entry => ¬ entry.decay.isIdle
  pendingShares := 0
  shareRate := (meters.shareRate.addShare meters.pendingShares).tick E now

/-- The meter of a worker's checkpoint, if there is anything left to decay. -/
def restoredEntry (instantNow : Instant) (offlineFor : ℕ) (row : Str × (Fin windowCount → K)) :
    Option (SessionHashrate K) :=
  let decay := HashrateDecay.restored E instantNow row.2 offlineFor
  if decay.isIdle then none
  else some { sessionId := "restored:".toList ++ row.1, worker := row.1, decay }

/-- The meters of a process that starts on what was saved. -/
def fromPersisted (saved : Checkpoint K) (wallNow : ℕ) (instantNow : Instant) : Meters K where
  sessionHashrates := saved.workerRates.filterMap
    (restoredEntry E instantNow (secs (wallNow - saved.updatedTs)))
  pendingShares := 0
  shareRate := .restoredPerMinute E instantNow saved.shareRates (secs (wallNow - saved.updatedTs))

/-! ## Ticks without shares -/

variable {E} {meters}

theorem isIdle_tick {decay : HashrateDecay K} (h : decay.isIdle) (now : Instant) :
    (decay.tick E now).isIdle := by
  simp only [HashrateDecay.isIdle, decide_eq_true_eq] at h ⊢
  refine ⟨rfl, fun i => ?_⟩
  rw [HashrateDecay.dsps_tick, h.1, h.2, decayTime_idle E (saneTdiff_pos _ _), zero_mul,
    cut_zero leastAverage_pos]

theorem isIdle_foldl_tick {decay : HashrateDecay K} (h : decay.isIdle) (ticks : List Instant) :
    (ticks.foldl (HashrateDecay.tick E) decay).isIdle := by
  induction ticks generalizing decay with
  | nil => exact h
  | cons now ticks ih => exact ih (isIdle_tick h now)

/-- Dropping the meters that have decayed to nothing changes no rate. -/
theorem workerRates_foldl_tick (ticks : List Instant) (worker : Str) (i : Fin windowCount) :
    (ticks.foldl (tickHashratesAt E) meters).workerRates worker i =
      ((meters.sessionHashrates.filter fun entry => entry.worker = worker).map fun entry =>
        (ticks.foldl (HashrateDecay.tick E) entry.decay).hashrates i).sum := by
  induction ticks generalizing meters with
  | nil => rfl
  | cons now ticks ih =>
    rw [List.foldl_cons, ih, tickHashratesAt, List.filter_comm, sum_filter_not_idle]
    · rw [List.filter_map, List.map_map]
      rfl
    · intro entry hidle
      rw [HashrateDecay.hashrates_apply, dsps_of_isIdle (isIdle_foldl_tick hidle ticks), zero_mul]

/-! ## Stopped and started again -/

theorem workerRates_fromPersisted (saved : Checkpoint K) (wallNow : ℕ) (instantNow : Instant)
    (worker : Str) (i : Fin windowCount) :
    (fromPersisted E saved wallNow instantNow).workerRates worker i =
      ((saved.workerRates.filter fun row => row.1 = worker).map fun row =>
        (HashrateDecay.restored E instantNow row.2
          (secs (wallNow - saved.updatedTs))).hashrates i).sum := by
  unfold fromPersisted workerRates
  dsimp only
  induction saved.workerRates with
  | nil => rfl
  | cons row rows ih =>
    by_cases hidle : (HashrateDecay.restored E instantNow row.2
        (secs (wallNow - saved.updatedTs))).isIdle
    · have hnone : restoredEntry E instantNow (secs (wallNow - saved.updatedTs)) row = none :=
        if_pos hidle
      rw [List.filterMap_cons_none hnone, ih]
      by_cases hrow : row.1 = worker
      · rw [List.filter_cons_of_pos (by simpa using hrow), List.map_cons, List.sum_cons,
          HashrateDecay.hashrates_apply, dsps_of_isIdle hidle, zero_mul, zero_add]
      · rw [List.filter_cons_of_neg (by simpa using hrow)]
    · have hsome : restoredEntry E instantNow (secs (wallNow - saved.updatedTs)) row = some
          { sessionId := "restored:".toList ++ row.1
            worker := row.1
            decay := HashrateDecay.restored E instantNow row.2
              (secs (wallNow - saved.updatedTs)) } := if_neg hidle
      rw [List.filterMap_cons_some hsome]
      by_cases hrow : row.1 = worker
      · rw [List.filter_cons_of_pos (by simpa using hrow),
          List.filter_cons_of_pos (by simpa using hrow), List.map_cons, List.map_cons,
            List.sum_cons, List.sum_cons, ih]
      · rw [List.filter_cons_of_neg (by simpa using hrow),
          List.filter_cons_of_neg (by simpa using hrow), ih]

theorem tickHashratesAt_ticked {now : Instant} :
    ∀ entry ∈ (meters.tickHashratesAt E now).sessionHashrates,
      entry.decay.pending = 0 ∧ entry.decay.lastDecay = now := by
  intro entry hentry
  obtain ⟨old, -, rfl⟩ := List.mem_map.mp (List.mem_of_mem_filter hentry)
  exact ⟨rfl, rfl⟩

/-- The pool's share rate is one meter, ticked with the others. -/
theorem shareRate_foldl_tick (hpending : meters.pendingShares = 0) (ticks : List Instant) :
    (ticks.foldl (tickHashratesAt E) meters).shareRate =
      ticks.foldl (HashrateDecay.tick E) meters.shareRate := by
  induction ticks generalizing meters with
  | nil => rfl
  | cons now ticks ih =>
    rw [List.foldl_cons, List.foldl_cons, ih rfl, tickHashratesAt, hpending, Nat.cast_zero,
      HashrateDecay.addShare, dif_neg (lt_irrefl _)]

/-- A worker's rates after ticks without shares, by the closed form. -/
theorem workerRates_idleTicks {start : Instant}
    (hticked : ∀ entry ∈ meters.sessionHashrates,
      entry.decay.pending = 0 ∧ entry.decay.lastDecay = start)
    (elapsed : ℕ) (worker : Str) (i : Fin windowCount) :
    ((HashrateDecay.idleTicks start elapsed).foldl (tickHashratesAt E) meters).workerRates
        worker i =
      (((meters.sessionHashrates.filter fun entry => entry.worker = worker).map fun entry =>
        entry.decay.dsps i).map fun value =>
          decayIdleFor E value (secs elapsed) (windowSecs i)).sum * nonces := by
  rw [workerRates_foldl_tick, List.map_map, ← List.sum_map_mul_right]
  refine congrArg List.sum (List.map_congr_left fun entry hentry => ?_)
  obtain ⟨hpending, hlast⟩ := hticked entry (List.mem_of_mem_filter hentry)
  have hdsps := HashrateDecay.dsps_idleTicks E hpending elapsed i
  rw [hlast] at hdsps
  rw [HashrateDecay.hashrates_apply, hdsps, Function.comp_apply]

/-- A worker's rates restored from a checkpoint, by the closed form. -/
theorem workerRates_restored (stateTs elapsed : ℕ) (instantNow : Instant) (worker : Str)
    (i : Fin windowCount) :
    (fromPersisted E (meters.checkpoint stateTs) (stateTs + elapsed) instantNow).workerRates
        worker i =
      decayIdleFor E ((meters.sessionHashrates.filter fun entry => entry.worker = worker).map
        fun entry => entry.decay.dsps i).sum (secs elapsed) (windowSecs i) * nonces := by
  have hoffline : stateTs + elapsed - (meters.checkpoint stateTs).updatedTs = elapsed :=
    Nat.add_sub_cancel_left stateTs elapsed
  rw [workerRates_fromPersisted, hoffline, checkpoint, filter_hashratesByWorker]
  split
  · have hrate : meters.workerRates worker i / (nonces : K) =
        ((meters.sessionHashrates.filter fun entry => entry.worker = worker).map
          fun entry => entry.decay.dsps i).sum := by
      have hnonces : (nonces : K) ≠ 0 := by norm_num [nonces]
      rw [workerRates, div_eq_iff hnonces, ← List.sum_map_mul_right]
      simp only [HashrateDecay.hashrates_apply]
    rw [List.map_singleton, List.sum_singleton, HashrateDecay.hashrates_apply,
      HashrateDecay.restored, HashrateDecay.dsps_restoredRates, hrate]
    rw [hrate]
    refine List.sum_nonneg fun value hvalue => ?_
    obtain ⟨entry, -, rfl⟩ := List.mem_map.mp hvalue
    exact entry.decay.dsps_nonneg i
  · rename_i hnone
    have hown : meters.sessionHashrates.filter (fun entry => entry.worker = worker) = [] := by
      refine List.filter_eq_nil_iff.mpr fun entry hentry => ?_
      intro hworker
      exact hnone (List.mem_map.mpr ⟨entry, hentry, by simpa using hworker⟩)
    rw [hown, List.map_nil, List.map_nil, List.sum_nil, HashrateDecay.decayIdleFor_zero, zero_mul]

/-- The share rate after ticks without shares, by the closed form. -/
theorem perMinute_idleTicks {start : Instant} (hpending : meters.pendingShares = 0)
    (hticked : meters.shareRate.pending = 0 ∧ meters.shareRate.lastDecay = start) (elapsed : ℕ)
    (i : Fin windowCount) :
    ((HashrateDecay.idleTicks start elapsed).foldl (tickHashratesAt E) meters).shareRate.perMinute
        i =
      decayIdleFor E (meters.shareRate.dsps i) (secs elapsed) (windowSecs i) * secsPerMinute := by
  have hdsps := HashrateDecay.dsps_idleTicks E hticked.1 elapsed i
  rw [hticked.2] at hdsps
  rw [HashrateDecay.perMinute_apply, shareRate_foldl_tick hpending, hdsps]

/-- The share rate restored from a checkpoint, by the closed form. -/
theorem perMinute_restored (stateTs elapsed : ℕ) (instantNow : Instant) (i : Fin windowCount) :
    (fromPersisted E (meters.checkpoint stateTs) (stateTs + elapsed) instantNow).shareRate.perMinute
        i =
      decayIdleFor E (meters.shareRate.dsps i) (secs elapsed) (windowSecs i) * secsPerMinute := by
  have hoffline : stateTs + elapsed - (meters.checkpoint stateTs).updatedTs = elapsed :=
    Nat.add_sub_cancel_left stateTs elapsed
  have hminute : (secsPerMinute : K) ≠ 0 := by norm_num [secsPerMinute]
  have hrate : meters.shareRate.perMinute i / (secsPerMinute : K) = meters.shareRate.dsps i :=
    mul_div_cancel_right₀ _ hminute
  have hnonneg : 0 ≤ meters.shareRate.perMinute i / (secsPerMinute : K) := by
    rw [hrate]
    exact meters.shareRate.dsps_nonneg i
  have hrestored : (HashrateDecay.restoredRates E instantNow
      (fun i => meters.shareRate.perMinute i / (secsPerMinute : K)) (secs elapsed)).dsps i = _ :=
    HashrateDecay.dsps_restoredRates E instantNow (secs elapsed) hnonneg
  rw [HashrateDecay.perMinute_apply, ← hrate, ← hrestored]
  simp only [fromPersisted, hoffline]
  rfl

/-- A process stopped after a tick and started again a number of seconds later shows the rates that
a process that went on without shares shows: the share rate exactly, and those of a worker up to one
cut for each of its connections, which are one meter from then on. -/
theorem restart_unnoticed (E : Exponential K) (meters : Meters K) (start instantNow : Instant)
    (stateTs elapsed : ℕ) :
    let ticked := meters.tickHashratesAt E start
    let ranOn := (HashrateDecay.idleTicks start elapsed).foldl (tickHashratesAt E) ticked
    let restarted := fromPersisted E (ticked.checkpoint stateTs) (stateTs + elapsed) instantNow
    (∀ worker i, ranOn.workerRates worker i ≤ restarted.workerRates worker i ∧
      restarted.workerRates worker i ≤ ranOn.workerRates worker i +
        (ticked.sessionHashrates.countP fun entry => entry.worker = worker) *
          (leastAverage K * nonces)) ∧
      ∀ i, restarted.shareRate.perMinute i = ranOn.shareRate.perMinute i := by
  intro ticked ranOn restarted
  refine ⟨fun worker i => ?_, fun i => ?_⟩
  · have hnonces : (0 : K) ≤ nonces := Nat.cast_nonneg _
    have hvalues : ∀ value ∈ (ticked.sessionHashrates.filter fun entry => entry.worker = worker).map
        (fun entry => entry.decay.dsps i), 0 ≤ value := by
      intro value hvalue
      obtain ⟨entry, -, rfl⟩ := List.mem_map.mp hvalue
      exact entry.decay.dsps_nonneg i
    obtain ⟨hle, hge⟩ := HashrateDecay.sum_decayIdleFor E i elapsed hvalues
    have hcount : ((ticked.sessionHashrates.filter fun entry => entry.worker = worker).map
        fun entry => entry.decay.dsps i).length =
        ticked.sessionHashrates.countP fun entry => entry.worker = worker := by
      rw [List.length_map, List.countP_eq_length_filter]
    have hran : ranOn.workerRates worker i = _ :=
      workerRates_idleTicks (E := E) tickHashratesAt_ticked elapsed worker i
    have hrestarted : restarted.workerRates worker i = _ :=
      workerRates_restored stateTs elapsed instantNow worker i
    rw [hcount] at hge
    rw [hran, hrestarted]
    refine ⟨mul_le_mul_of_nonneg_right hle hnonces, ?_⟩
    rw [← mul_assoc, ← add_mul]
    exact mul_le_mul_of_nonneg_right hge hnonces
  · have hran : ranOn.shareRate.perMinute i = _ :=
      perMinute_idleTicks (E := E) rfl ⟨rfl, rfl⟩ elapsed i
    have hrestarted : restarted.shareRate.perMinute i = _ :=
      perMinute_restored stateTs elapsed instantNow i
    rw [hran, hrestarted]

/-- A worker with two connections, in a process that is stopped for two minutes. -/
theorem restart_unnoticed_twoConnections :
    let meters : Meters ℝ := ((new 0).addShareDiffAt "1".toList "rig".toList 8 0).addShareDiffAt
      "2".toList "rig".toList 16 0
    let ticked := meters.tickHashratesAt Exponential.real (secs 10)
    let ranOn := (HashrateDecay.idleTicks (secs 10) 120).foldl
      (tickHashratesAt Exponential.real) ticked
    let restarted := fromPersisted Exponential.real (ticked.checkpoint 1000) (1000 + 120) 0
    (meters.sessionHashrates.countP fun entry => entry.worker = "rig".toList) = 2 ∧
      restarted.workerRates "rig".toList 0 ≤ ranOn.workerRates "rig".toList 0 +
        (ticked.sessionHashrates.countP fun entry => entry.worker = "rig".toList) *
          (leastAverage ℝ * nonces) := by
  intro meters ticked ranOn restarted
  exact ⟨rfl, ((restart_unnoticed Exponential.real meters (secs 10) 0 1000 120).1 "rig".toList 0).2⟩

/-! ## Readings and credit -/

/-- One operation on the shared meters. The pass of a tick goes over the connections one by one, and
a connection it drops afterwards may have had a share in between. -/
inductive Step (K : Type)
  | addShareDiff (sessionId worker : Str) (difficulty : K) (now : Instant)
  | shareAccepted
  | tickSession (sessionId : Str) (now : Instant)
  | removeSession (sessionId : Str)
  | tickShareRate (now : Instant)

variable (E) (meters)

/-- The meter of a session ticks. -/
def tickSession (sessionId : Str) (now : Instant) : Meters K :=
  { meters with
    sessionHashrates := meters.sessionHashrates.map fun entry =>
      if entry.sessionId = sessionId then { entry with decay := entry.decay.tick E now }
        else entry }

/-- The meter of a session is dropped. -/
def removeSession (sessionId : Str) : Meters K :=
  { meters with
    sessionHashrates := meters.sessionHashrates.filter fun entry => entry.sessionId ≠ sessionId }

/-- The meter of the pool's shares ticks. -/
def tickShareRate (now : Instant) : Meters K :=
  { meters with
    pendingShares := 0
    shareRate := (meters.shareRate.addShare meters.pendingShares).tick E now }

/-- What a step does to the meters. -/
def step : Step K → Meters K
  | .addShareDiff sessionId worker difficulty now =>
    meters.addShareDiffAt sessionId worker difficulty now
  | .shareAccepted => meters.shareAccepted
  | .tickSession sessionId now => meters.tickSession E sessionId now
  | .removeSession sessionId => meters.removeSession sessionId
  | .tickShareRate now => meters.tickShareRate E now

/-- The difficulty a step credits. -/
def Step.credit : Step K → K
  | .addShareDiff _ _ difficulty _ => max difficulty 0
  | _ => 0

/-- The shares a step counts. -/
def Step.shares : Step K → ℕ
  | .shareAccepted => 1
  | _ => 0

variable {E} {meters}

/-- What an average and the shares pending stand for, as difficulty. -/
def weight (i : Fin windowCount) (decay : HashrateDecay K) : K :=
  decay.dsps i * windowSecs i + decay.pending

theorem weight_nonneg (i : Fin windowCount) (decay : HashrateDecay K) : 0 ≤ weight i decay :=
  add_nonneg (mul_nonneg (decay.dsps_nonneg i) (Nat.cast_nonneg _)) decay.pending_nonneg

theorem weight_tick (i : Fin windowCount) (decay : HashrateDecay K) (now : Instant) :
    weight i (decay.tick E now) ≤ weight i decay := by
  have hle : (decay.tick E now).dsps i * windowSecs i ≤
      decay.dsps i * windowSecs i + decay.pending :=
    HashrateDecay.dsps_tick_le E now i
  have hpending : (decay.tick E now).pending = 0 := rfl
  rw [weight, hpending, add_zero]
  exact hle

theorem weight_addShare (i : Fin windowCount) (decay : HashrateDecay K) (difficulty : K) :
    weight i (decay.addShare difficulty) = weight i decay + max difficulty 0 := by
  rw [weight, HashrateDecay.dsps_addShare, HashrateDecay.pending_addShare, ← add_assoc]
  rfl

/-- The weight of all connections. -/
def sessionsWeight (i : Fin windowCount) (meters : Meters K) : K :=
  (meters.sessionHashrates.map fun entry => weight i entry.decay).sum

/-- The weight of the shares in the meter of the pool, with those it has yet to count. -/
def sharesWeight (i : Fin windowCount) (meters : Meters K) : K :=
  weight i meters.shareRate + meters.pendingShares

theorem sessionsWeight_step (i : Fin windowCount) (step : Step K) :
    sessionsWeight i (meters.step E step) ≤ sessionsWeight i meters + step.credit := by
  cases step with
  | addShareDiff sessionId worker difficulty now =>
    have hnew : weight i ((HashrateDecay.new now : HashrateDecay K).addShare difficulty) =
        max difficulty 0 := by
      rw [weight_addShare, weight]
      change 0 * _ + 0 + _ = _
      rw [zero_mul, zero_add, zero_add]
    refine le_of_eq ?_
    rw [sessionsWeight, sessionsWeight, step, addShareDiffAt, sum_upsert, hnew]
    · rfl
    · intro entry _ _
      rw [weight_addShare, hnew]
  | shareAccepted => exact le_of_eq (add_zero _).symm
  | tickSession sessionId now =>
    have hnone : (Step.tickSession sessionId now : Step K).credit = 0 := rfl
    rw [hnone, add_zero, sessionsWeight, sessionsWeight, step, tickSession, List.map_map]
    refine List.sum_le_sum fun entry _ => ?_
    by_cases hid : entry.sessionId = sessionId
    · rw [Function.comp_apply, if_pos hid]
      exact weight_tick i entry.decay now
    · rw [Function.comp_apply, if_neg hid]
  | removeSession sessionId =>
    have hnone : (Step.removeSession sessionId : Step K).credit = 0 := rfl
    rw [hnone, add_zero]
    exact ((List.filter_sublist).map _).sum_le_sum (fun weight hweight => by
      obtain ⟨entry, -, rfl⟩ := List.mem_map.mp hweight
      exact weight_nonneg i entry.decay)
  | tickShareRate now => exact le_of_eq (add_zero _).symm

theorem sharesWeight_step (i : Fin windowCount) (step : Step K) :
    sharesWeight i (meters.step E step) ≤ sharesWeight i meters + step.shares := by
  cases step with
  | shareAccepted =>
    rw [sharesWeight, sharesWeight, step, shareAccepted, Step.shares, Nat.cast_add, Nat.cast_one,
      add_assoc]
  | tickShareRate now =>
    have htick := weight_tick (E := E) i (meters.shareRate.addShare meters.pendingShares) now
    rw [weight_addShare, max_eq_left (Nat.cast_nonneg _)] at htick
    have hnone : (Step.tickShareRate now : Step K).shares = 0 := rfl
    rw [hnone, sharesWeight, sharesWeight, step, tickShareRate, Nat.cast_zero, add_zero, add_zero]
    exact htick
  | addShareDiff | tickSession | removeSession =>
    exact le_of_eq ((add_zero _).symm.trans (congrArg (_ + ·) Nat.cast_zero.symm))

/-- What a run adds to the weight of the connections is at most what it credits. -/
theorem sessionsWeight_run (i : Fin windowCount) (steps : List (Step K)) :
    sessionsWeight i (steps.foldl (step E) meters) ≤
      sessionsWeight i meters + (steps.map Step.credit).sum := by
  induction steps generalizing meters with
  | nil => simp
  | cons first rest ih =>
    have hfirst : sessionsWeight i (meters.step E first) ≤ sessionsWeight i meters + first.credit :=
      sessionsWeight_step i first
    rw [List.foldl_cons, List.map_cons, List.sum_cons, ← add_assoc]
    exact ih.trans (add_le_add_left hfirst _)

/-- What a run adds to the weight of the shares is at most the shares it brings. -/
theorem sharesWeight_run (i : Fin windowCount) (steps : List (Step K)) :
    sharesWeight i (steps.foldl (step E) meters) ≤
      sharesWeight i meters + ((steps.map Step.shares).sum : ℕ) := by
  induction steps generalizing meters with
  | nil => simp
  | cons first rest ih =>
    have hfirst : sharesWeight i (meters.step E first) ≤ sharesWeight i meters + first.shares :=
      sharesWeight_step i first
    rw [List.foldl_cons, List.map_cons, List.sum_cons, Nat.cast_add, ← add_assoc]
    exact ih.trans (add_le_add_left hfirst _)

omit [IsStrictOrderedRing K] in
/-- The rates of the pool are those of all connections: each worker's are counted once. -/
theorem poolRates_eq (i : Fin windowCount) :
    meters.poolRates i =
      (meters.sessionHashrates.map fun entry => entry.decay.hashrates i).sum := by
  have hone : ∀ entry ∈ meters.sessionHashrates,
      ((meters.sessionHashrates.map SessionHashrate.worker).dedup.countP fun worker =>
        decide (entry.worker = worker)) = if true then 1 else 0 := by
    intro entry hentry
    have hcount := List.count_eq_one_of_mem (List.nodup_dedup _)
      (List.mem_dedup.mpr (List.mem_map_of_mem (f := SessionHashrate.worker) hentry))
    refine Eq.trans (List.countP_congr fun worker _ => ?_) hcount
    rw [decide_eq_true_eq, beq_iff_eq, eq_comm]
  have hparts := sum_eq_sum_parts (g := fun entry => entry.decay.hashrates i) hone
  rw [poolRates, hashratesByWorker, List.map_map]
  simp only [if_true] at hparts
  rw [hparts]
  refine congrArg List.sum (List.map_congr_left fun worker _ => ?_)
  exact sum_map_filter _

theorem poolRates_le (i : Fin windowCount) :
    meters.poolRates i * windowSecs i ≤ sessionsWeight i meters * nonces := by
  rw [poolRates_eq, sessionsWeight, ← List.sum_map_mul_right, ← List.sum_map_mul_right]
  refine List.sum_le_sum fun entry _ => ?_
  rw [HashrateDecay.hashrates_apply, mul_right_comm]
  exact mul_le_mul_of_nonneg_right (le_add_of_nonneg_right entry.decay.pending_nonneg)
    (Nat.cast_nonneg _)

/-- Whatever the operations and their order, no rate of the pool exceeds the difficulty credited in
all, spread over the window, and no share rate the shares accepted in all. -/
theorem readings_le (E : Exponential K) (start : Instant) (steps : List (Step K))
    (i : Fin windowCount) :
    let meters := steps.foldl (step E) (new start)
    meters.poolRates i * windowSecs i ≤ (steps.map Step.credit).sum * nonces ∧
      meters.shareRate.perMinute i * windowSecs i ≤
        (steps.map Step.shares).sum * secsPerMinute := by
  intro meters
  have hcredit : sessionsWeight i meters ≤ _ := sessionsWeight_run i steps
  have hshares : sharesWeight i meters ≤ _ := sharesWeight_run i steps
  have hnew : sessionsWeight i (new start : Meters K) = 0 := rfl
  have hnew' : sharesWeight i (new start : Meters K) = 0 := by
    change 0 * (windowSecs i : K) + 0 + ((0 : ℕ) : K) = 0
    simp
  rw [hnew, zero_add] at hcredit
  rw [hnew', zero_add] at hshares
  refine ⟨(poolRates_le i).trans (mul_le_mul_of_nonneg_right hcredit (Nat.cast_nonneg _)), ?_⟩
  have hweight : meters.shareRate.dsps i * windowSecs i ≤ sharesWeight i meters := by
    have hpending := meters.shareRate.pending_nonneg
    have hshare : (0 : K) ≤ meters.pendingShares := Nat.cast_nonneg _
    rw [sharesWeight, weight]
    linarith
  rw [HashrateDecay.perMinute_apply, mul_right_comm]
  exact mul_le_mul_of_nonneg_right (hweight.trans hshares) (Nat.cast_nonneg _)

/-- Two shares of one connection under two names, each of them ticked at once. -/
theorem readings_le_renamed :
    let steps : List (Step ℝ) := [.addShareDiff "1".toList "rig".toList 8 0, .shareAccepted,
      .tickSession "1".toList 0, .addShareDiff "1".toList "farm".toList 16 1, .shareAccepted,
      .tickSession "1".toList 1, .tickShareRate 1]
    let meters := steps.foldl (step Exponential.real) (new 0)
    meters.poolRates 0 * windowSecs 0 ≤ 24 * nonces ∧
      meters.shareRate.perMinute 0 * windowSecs 0 ≤ 2 * secsPerMinute := by
  intro steps meters
  have hcredit : (steps.map Step.credit).sum = 24 := by norm_num [steps, Step.credit]
  have hshares : (steps.map Step.shares).sum = 2 := rfl
  obtain ⟨hpool, hrate⟩ := readings_le Exponential.real 0 steps 0
  rw [hcredit] at hpool
  rw [hshares] at hrate
  exact ⟨hpool, by exact_mod_cast hrate⟩

end Meters

end BtcPool.Stats
