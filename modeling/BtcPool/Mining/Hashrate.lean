import BtcPool.Foundations.DecayingAverage
import BtcPool.Mining.Difficulty
import Mathlib.Data.Fin.VecNotation

/-!
# Decaying hashrate averages

A meter keeps seven averages of difficulty-shares per second, one for each window, and the
difficulty of the shares that came since its last tick; a tick folds these in. A meter that is
restored from a checkpoint is decayed across the time it was offline in closed form.

The arithmetic is exact, over any ordered field with an exponential function. The closed form is
that of idle ticks at the normal cadence (`dsps_idleTicks`). A tick lets an average grow by the
shares folded in over the window at most (`dsps_tick_le`), and brings it nearer to a rate the shares
come at steadily (`dsps_feed_sub`).
-/

namespace BtcPool

open Decay

/-- Expected hashes behind one share of difficulty 1. -/
def nonces : ℕ := 4294967296

/-- The seconds of a minute. -/
def secsPerMinute : ℕ := 60

/-- The number of windows a meter keeps. -/
abbrev windowCount : ℕ := 7

/-- Time constant of each window, in seconds. -/
def windowSecs : Fin windowCount → ℕ := ![60, 300, 600, 3600, 10800, 21600, 86400]

/-- Seconds between ticks. -/
def tickSecs : ℕ := 2

theorem windowSecs_ge (i : Fin windowCount) : 60 ≤ windowSecs i := by
  revert i
  decide

variable {K : Type} [Field K] [LinearOrder K]

/-- Averages below this are set to zero. -/
def leastAverage (K : Type) [Field K] : K := 2 / 10 ^ 16

/-- One average after an interval, in the order the program computes it. -/
def decayTime (E : Exponential K) (f fadd fsecs interval : K) : K :=
  if fsecs ≤ 0 then f
  else
    let dexp := min (fsecs / interval) 36
    let fprop := 1 - 1 / E.exp dexp
    let ftotal := 1 + fprop
    let f := (f + fadd / fsecs * fprop) / ftotal
    if f < leastAverage K then 0 else f

/-- Seconds between two instants, a thousandth at least. -/
def saneTdiff (later earlier : Instant) : K :=
  max (((later - earlier : ℕ) : K) / 10 ^ 9) (1 / 1000)

/-- One average, decayed across time without shares. -/
def decayIdleFor (E : Exponential K) (value : K) (elapsed : ℕ) (interval : K) : K :=
  if elapsed = 0 then value
  else
    let wholeTicks := elapsed / secs tickSecs
    let remainder : K := ((elapsed % secs tickSecs : ℕ) : K) / 10 ^ 9
    let stepFactor := 1 / (2 - E.exp (-(tickSecs : K) / interval))
    let value := value * stepFactor ^ wholeTicks
    let value := if 0 < remainder then decayTime E value 0 remainder interval else value
    if value < leastAverage K then 0 else value

/-! ## One average -/

/-- What a stretch of time replaces of an average. -/
def proportionOf (E : Exponential K) (fsecs interval : K) : K :=
  E.proportion (min (fsecs / interval) 36)

theorem decayTime_eq (E : Exponential K) {fsecs : K} (h : 0 < fsecs) (f fadd interval : K) :
    decayTime E f fadd fsecs interval =
      cut (leastAverage K) (toward (proportionOf E fsecs interval) (fadd / fsecs) f) :=
  if_neg (not_le.mpr h)

/-- Without shares an average is scaled down. -/
theorem decayTime_idle (E : Exponential K) {fsecs : K} (hsecs : 0 < fsecs) (f interval : K) :
    decayTime E f 0 fsecs interval =
      cut (leastAverage K) (f * (1 / (1 + proportionOf E fsecs interval))) := by
  rw [decayTime_eq E hsecs, zero_div, toward_zero]

section Average

variable [IsStrictOrderedRing K] (E : Exponential K) {f fadd fsecs interval value : K}

theorem leastAverage_pos : 0 < leastAverage K := by
  unfold leastAverage
  positivity

theorem proportionOf_nonneg (hsecs : 0 ≤ fsecs) (hinterval : 0 ≤ interval) :
    0 ≤ proportionOf E fsecs interval :=
  E.proportion_nonneg (le_min (div_nonneg hsecs hinterval) (by norm_num))

theorem proportionOf_le : proportionOf E fsecs interval ≤ fsecs / interval :=
  (E.proportion_le _).trans (min_le_left _ _)

theorem decayTime_nonneg (hf : 0 ≤ f) (hadd : 0 ≤ fadd) (hinterval : 0 ≤ interval) :
    0 ≤ decayTime E f fadd fsecs interval := by
  rcases le_or_gt fsecs 0 with hle | hlt
  · rw [decayTime, if_pos hle]
    exact hf
  · rw [decayTime_eq E hlt]
    exact cut_nonneg (toward_nonneg (proportionOf_nonneg E hlt.le hinterval)
      (div_nonneg hadd hlt.le) hf)

theorem saneTdiff_pos (later earlier : Instant) : 0 < (saneTdiff later earlier : K) :=
  lt_of_lt_of_le (by positivity) (le_max_right _ _)

theorem saneTdiff_add_secs {n : ℕ} (hn : 0 < n) (start : Instant) :
    (saneTdiff (start + secs n) start : K) = n := by
  have hdiff : start + secs n - start = n * 10 ^ 9 := Nat.add_sub_cancel_left start (secs n)
  have hone : (1 : K) ≤ n := by exact_mod_cast hn
  have hsmall : (1 : K) / 1000 ≤ n := le_trans (by norm_num) hone
  rw [saneTdiff, hdiff, Nat.cast_mul, Nat.cast_pow, Nat.cast_ofNat,
    mul_div_cancel_right₀ _ (by positivity), max_eq_left hsmall]

/-- The factor of the closed form is that of a tick. -/
theorem stepFactor_eq (hinterval : 60 ≤ interval) :
    1 / (2 - E.exp (-(tickSecs : K) / interval)) = 1 / (1 + proportionOf E tickSecs interval) := by
  have hpos : (0 : K) < interval := lt_of_lt_of_le (by norm_num) hinterval
  have hmin : min ((tickSecs : K) / interval) 36 = tickSecs / interval := by
    refine min_eq_left ((div_le_iff₀ hpos).mpr ?_)
    have htick : ((tickSecs : ℕ) : K) = 2 := by norm_num [tickSecs]
    rw [htick]
    linarith
  rw [proportionOf, hmin, E.proportion_eq, neg_div, ← add_sub_assoc, one_add_one_eq_two]

theorem decayIdleFor_nonneg (hvalue : 0 ≤ value) (elapsed : ℕ) (hinterval : 60 ≤ interval) :
    0 ≤ decayIdleFor E value elapsed interval := by
  have hpos : 0 ≤ interval := le_trans (by norm_num) hinterval
  have hp := proportionOf_nonneg E (Nat.cast_nonneg tickSecs) hpos
  unfold decayIdleFor
  split
  · exact hvalue
  · rw [stepFactor_eq E hinterval]
    have hwhole : 0 ≤ value * (1 / (1 + proportionOf E tickSecs interval)) ^
        (elapsed / secs tickSecs) := mul_nonneg hvalue (pow_nonneg (factor_nonneg hp) _)
    have hlast : 0 ≤ if 0 < ((elapsed % secs tickSecs : ℕ) : K) / 10 ^ 9 then
        decayTime E
          (value * (1 / (1 + proportionOf E tickSecs interval)) ^ (elapsed / secs tickSecs))
          0 (((elapsed % secs tickSecs : ℕ) : K) / 10 ^ 9) interval
        else value * (1 / (1 + proportionOf E tickSecs interval)) ^ (elapsed / secs tickSecs) := by
      split
      · exact decayTime_nonneg E hwhole le_rfl hpos
      · exact hwhole
    exact cut_nonneg hlast

end Average

/-! ## The meter -/

/-- The averages, and the difficulty that came in since the last tick. -/
structure HashrateDecay (K : Type) [Field K] [LinearOrder K] where
  dsps : Fin windowCount → K
  pending : K
  lastDecay : Instant
  dsps_nonneg : ∀ i, 0 ≤ dsps i
  pending_nonneg : 0 ≤ pending

namespace HashrateDecay

section Readings

variable (meter : HashrateDecay K)

/-- The averages as they are kept, in difficulty per second. -/
def rates : Fin windowCount → K := meter.dsps

/-- The averages per minute. -/
def perMinute : Fin windowCount → K := fun i => meter.dsps i * secsPerMinute

/-- The averages in hashes per second. -/
def hashrates : Fin windowCount → K := fun i => meter.dsps i * nonces

theorem hashrates_apply (i : Fin windowCount) : meter.hashrates i = meter.dsps i * nonces := rfl

theorem perMinute_apply (i : Fin windowCount) :
    meter.perMinute i = meter.dsps i * secsPerMinute :=
  rfl

/-- Nothing has been seen in any window. -/
def isIdle : Bool := meter.pending = 0 ∧ ∀ i, meter.dsps i = 0

end Readings

variable [IsStrictOrderedRing K] (E : Exponential K) (meter : HashrateDecay K)

/-- A meter that has seen nothing. -/
def new (now : Instant) : HashrateDecay K where
  dsps _ := 0
  pending := 0
  lastDecay := now
  dsps_nonneg _ := le_rfl
  pending_nonneg := le_rfl

/-- A share is counted at the next tick. -/
def addShare (diff : K) : HashrateDecay K :=
  if h : 0 < diff then
    { meter with
      pending := meter.pending + diff
      pending_nonneg := add_nonneg meter.pending_nonneg h.le }
  else meter

/-- Fold everything that came in since the last tick into the averages. -/
def tick (now : Instant) : HashrateDecay K where
  dsps i := decayTime E (meter.dsps i) meter.pending (saneTdiff now meter.lastDecay) (windowSecs i)
  pending := 0
  lastDecay := now
  dsps_nonneg i := decayTime_nonneg E (meter.dsps_nonneg i) meter.pending_nonneg (Nat.cast_nonneg _)
  pending_nonneg := le_rfl

/-- Restore a rate and decay it across the time offline. -/
def restoredRates (now : Instant) (rates : Fin windowCount → K) (offlineFor : ℕ) :
    HashrateDecay K where
  dsps i := decayIdleFor E (if 0 < rates i then rates i else 0) offlineFor (windowSecs i)
  pending := 0
  lastDecay := now
  dsps_nonneg i := by
    refine decayIdleFor_nonneg E ?_ offlineFor (by exact_mod_cast windowSecs_ge i)
    split
    · rename_i hpos
      exact hpos.le
    · exact le_rfl
  pending_nonneg := le_rfl

/-- A meter loaded with hashrates, decayed for the time the process was down. -/
def restored (now : Instant) (hashrates : Fin windowCount → K) (offlineFor : ℕ) : HashrateDecay K :=
  restoredRates E now (fun i => hashrates i / nonces) offlineFor

/-- A meter loaded with rates per minute, decayed for the time the process was down. -/
def restoredPerMinute (now : Instant) (perMinute : Fin windowCount → K) (offlineFor : ℕ) :
    HashrateDecay K :=
  restoredRates E now (fun i => perMinute i / secsPerMinute) offlineFor

/-! ## Offline and idle -/

/-- The ticks of a process that goes on for so many seconds: at the cadence, and once at the end. -/
def idleTicks (start : Instant) (elapsed : ℕ) : List Instant :=
  (List.range (elapsed / tickSecs)).map (fun k => start + secs (tickSecs * (k + 1))) ++
    if elapsed % tickSecs = 0 then [] else [start + secs elapsed]

/-- What one idle tick leaves of an average. -/
def idleFactor (i : Fin windowCount) : K := 1 / (1 + proportionOf E tickSecs (windowSecs i))

theorem dsps_tick (now : Instant) (i : Fin windowCount) :
    (meter.tick E now).dsps i =
      decayTime E (meter.dsps i) meter.pending (saneTdiff now meter.lastDecay) (windowSecs i) := rfl

variable {meter}

theorem idleFactor_nonneg (i : Fin windowCount) : 0 ≤ idleFactor E i :=
  factor_nonneg (proportionOf_nonneg E (Nat.cast_nonneg _) (Nat.cast_nonneg _))

theorem idleFactor_le_one (i : Fin windowCount) : idleFactor E i ≤ 1 :=
  factor_le_one (proportionOf_nonneg E (Nat.cast_nonneg _) (Nat.cast_nonneg _))

theorem dsps_tick_idle (hpending : meter.pending = 0) {n : ℕ} (hn : 0 < n) (i : Fin windowCount) :
    (meter.tick E (meter.lastDecay + secs n)).dsps i = cut (leastAverage K)
      (meter.dsps i * (1 / (1 + proportionOf E n (windowSecs i)))) := by
  have hsecs : (0 : K) < n := by exact_mod_cast hn
  rw [dsps_tick, hpending, saneTdiff_add_secs hn, decayTime_idle E hsecs]

/-- Ticks at the cadence without shares. -/
theorem foldl_tick_range (hpending : meter.pending = 0) (n : ℕ) :
    let ticked := ((List.range n).map fun k => meter.lastDecay + secs (tickSecs * (k + 1))).foldl
      (tick E) meter
    ticked.pending = 0 ∧ ticked.lastDecay = meter.lastDecay + secs (tickSecs * n) ∧
      ∀ i, ticked.dsps i = (fun y => cut (leastAverage K) (y * idleFactor E i))^[n]
        (meter.dsps i) := by
  induction n with
  | zero => exact ⟨hpending, rfl, fun i => rfl⟩
  | succ n ih =>
    intro ticked
    obtain ⟨hpending', hlast, hdsps⟩ := ih
    have hnext : meter.lastDecay + secs (tickSecs * (n + 1)) =
        meter.lastDecay + secs (tickSecs * n) + secs tickSecs := by
      unfold secs
      ring
    have hticked : ticked = (((List.range n).map fun k =>
        meter.lastDecay + secs (tickSecs * (k + 1))).foldl (tick E) meter).tick E
          (meter.lastDecay + secs (tickSecs * (n + 1))) := by
      simp only [ticked, List.range_succ, List.map_append, List.foldl_append, List.map_singleton,
        List.foldl_cons, List.foldl_nil]
    refine ⟨by rw [hticked]; rfl, by rw [hticked]; rfl, fun i => ?_⟩
    rw [hticked, hnext, ← hlast, dsps_tick_idle E hpending' (by decide), hdsps,
      Function.iterate_succ_apply']
    rfl

theorem cut_iterate_idle (i : Fin windowCount) {n : ℕ} (hn : 0 < n) (value : K) :
    cut (leastAverage K) ((fun y => cut (leastAverage K) (y * idleFactor E i))^[n] value) =
      (fun y => cut (leastAverage K) (y * idleFactor E i))^[n] value := by
  obtain ⟨m, rfl⟩ := Nat.exists_eq_succ_of_ne_zero hn.ne'
  rw [Function.iterate_succ_apply']
  exact cut_cut leastAverage_pos _

/-- An average restored after so many seconds offline. -/
theorem decayIdleFor_secs (i : Fin windowCount) (value : K) (elapsed : ℕ) :
    decayIdleFor E value (secs elapsed) (windowSecs i) =
      if elapsed = 0 then value
      else if elapsed % tickSecs = 0 then
        cut (leastAverage K) (value * idleFactor E i ^ (elapsed / tickSecs))
      else cut (leastAverage K) (value * idleFactor E i ^ (elapsed / tickSecs) *
        (1 / (1 + proportionOf E (elapsed % tickSecs : ℕ) (windowSecs i)))) := by
  have hinterval : (60 : K) ≤ windowSecs i := by exact_mod_cast windowSecs_ge i
  have hzero : secs elapsed = 0 ↔ elapsed = 0 := by simp [secs]
  have hdiv : secs elapsed / secs tickSecs = elapsed / tickSecs :=
    Nat.mul_div_mul_right _ _ (by norm_num)
  have hmod : ((secs elapsed % secs tickSecs : ℕ) : K) / 10 ^ 9 = (elapsed % tickSecs : ℕ) := by
    rw [secs, secs, Nat.mul_mod_mul_right, Nat.cast_mul, Nat.cast_pow, Nat.cast_ofNat,
      mul_div_cancel_right₀ _ (by positivity)]
  unfold decayIdleFor
  simp only [hzero, hdiv, hmod, stepFactor_eq E hinterval]
  by_cases hnone : elapsed = 0
  · rw [if_pos hnone, if_pos hnone]
  · rw [if_neg hnone, if_neg hnone]
    by_cases heven : elapsed % tickSecs = 0
    · rw [if_pos heven, heven, Nat.cast_zero, if_neg (lt_irrefl _)]
      rfl
    · have hpos : (0 : K) < (elapsed % tickSecs : ℕ) := by exact_mod_cast Nat.pos_of_ne_zero heven
      rw [if_neg heven, if_pos hpos, decayTime_idle E hpos]
      exact cut_cut leastAverage_pos _

/-- The closed form is a scaling and a cut. -/
theorem exists_decayIdleFor_eq (i : Fin windowCount) {elapsed : ℕ} (h : elapsed ≠ 0) :
    ∃ factor : K, 0 ≤ factor ∧ ∀ value, decayIdleFor E value (secs elapsed) (windowSecs i) =
      cut (leastAverage K) (value * factor) := by
  have hwhole := pow_nonneg (idleFactor_nonneg E i) (elapsed / tickSecs)
  by_cases heven : elapsed % tickSecs = 0
  · refine ⟨_, hwhole, fun value => ?_⟩
    rw [decayIdleFor_secs, if_neg h, if_pos heven]
  · have hp : 0 ≤ proportionOf E ((elapsed % tickSecs : ℕ) : K) (windowSecs i) :=
      proportionOf_nonneg E (Nat.cast_nonneg _) (Nat.cast_nonneg _)
    refine ⟨_, mul_nonneg hwhole (factor_nonneg hp), fun value => ?_⟩
    rw [decayIdleFor_secs, if_neg h, if_neg heven, mul_assoc]

theorem decayIdleFor_zero (i : Fin windowCount) (elapsed : ℕ) :
    decayIdleFor E 0 (secs elapsed) (windowSecs i) = 0 := by
  by_cases hnone : elapsed = 0
  · rw [decayIdleFor_secs, if_pos hnone]
  · obtain ⟨factor, -, heq⟩ := exists_decayIdleFor_eq E i hnone
    rw [heq, zero_mul, cut_zero leastAverage_pos]

/-- Decaying a sum of averages and decaying each of them differ by a cut for each. -/
theorem sum_decayIdleFor (i : Fin windowCount) (elapsed : ℕ) {values : List K}
    (hvalues : ∀ value ∈ values, 0 ≤ value) :
    let each := (values.map fun value => decayIdleFor E value (secs elapsed) (windowSecs i)).sum
    each ≤ decayIdleFor E values.sum (secs elapsed) (windowSecs i) ∧
      decayIdleFor E values.sum (secs elapsed) (windowSecs i) ≤
        each + values.length * leastAverage K := by
  intro each
  by_cases hnone : elapsed = 0
  · have hsame : ∀ value : K, decayIdleFor E value (secs elapsed) (windowSecs i) = value := by
      intro value
      rw [decayIdleFor_secs, if_pos hnone]
    have heach : each = values.sum := by simp only [each, hsame, List.map_id']
    have hcuts : 0 ≤ (values.length : K) * leastAverage K :=
      mul_nonneg (Nat.cast_nonneg _) leastAverage_pos.le
    rw [hsame, heach]
    exact ⟨le_rfl, le_add_of_nonneg_right hcuts⟩
  · obtain ⟨factor, hfactor, heq⟩ := exists_decayIdleFor_eq E i hnone
    have heach : each = ((values.map (· * factor)).map (cut (leastAverage K))).sum := by
      simp only [each, heq, List.map_map, Function.comp_def]
    have hscaled : ∀ value ∈ values.map (· * factor), 0 ≤ value := by
      intro value hvalue
      obtain ⟨old, hold, rfl⟩ := List.mem_map.mp hvalue
      exact mul_nonneg (hvalues old hold) hfactor
    have hsum : values.sum * factor = (values.map (· * factor)).sum := by
      rw [List.sum_map_mul_right, List.map_id']
    have hle := cut_sum_le leastAverage_pos.le hscaled
    rw [List.length_map] at hle
    rw [heq, heach, hsum]
    exact ⟨sum_cut_le hscaled, hle⟩

theorem dsps_restoredRates (now : Instant) {rates : Fin windowCount → K} (offlineFor : ℕ)
    {i : Fin windowCount} (hrate : 0 ≤ rates i) :
    (restoredRates E now rates offlineFor).dsps i =
      decayIdleFor E (rates i) offlineFor (windowSecs i) := by
  have hkept : (if 0 < rates i then rates i else 0) = rates i := by
    rcases hrate.eq_or_lt with hzero | hpos
    · rw [← hzero, if_neg (lt_irrefl _)]
    · exact if_pos hpos
  exact congrArg (decayIdleFor E · offlineFor (windowSecs i)) hkept

/-- Idle ticks at the cadence leave what the closed form says. -/
theorem dsps_idleTicks (hpending : meter.pending = 0) (elapsed : ℕ) (i : Fin windowCount) :
    ((idleTicks meter.lastDecay elapsed).foldl (tick E) meter).dsps i =
      decayIdleFor E (meter.dsps i) (secs elapsed) (windowSecs i) := by
  rw [decayIdleFor_secs, idleTicks, List.foldl_append]
  obtain ⟨hpending', hlast, hdsps⟩ := foldl_tick_range E hpending (elapsed / tickSecs)
  have hiterate := cut_iterate leastAverage_pos (idleFactor_nonneg E i) (idleFactor_le_one E i)
    (meter.dsps_nonneg i) (elapsed / tickSecs)
  by_cases hnone : elapsed = 0
  · subst hnone
    rfl
  · rw [if_neg hnone]
    by_cases heven : elapsed % tickSecs = 0
    · have hle : tickSecs ≤ elapsed :=
        Nat.le_of_dvd (Nat.pos_of_ne_zero hnone) (Nat.dvd_of_mod_eq_zero heven)
      rw [if_pos heven, if_pos heven, List.foldl_nil, hdsps, ← hiterate]
      exact (cut_iterate_idle E i (Nat.div_pos hle (by decide)) _).symm
    · have hend : meter.lastDecay + secs elapsed =
          meter.lastDecay + secs (tickSecs * (elapsed / tickSecs)) + secs (elapsed % tickSecs) := by
        have hsplit := Nat.div_add_mod elapsed tickSecs
        unfold secs
        rw [add_assoc, ← add_mul, hsplit]
      have hp : 0 ≤ proportionOf E ((elapsed % tickSecs : ℕ) : K) (windowSecs i) :=
        proportionOf_nonneg E (Nat.cast_nonneg _) (Nat.cast_nonneg _)
      rw [if_neg heven, if_neg heven, List.foldl_cons, List.foldl_nil, hend, ← hlast,
        dsps_tick_idle E hpending' (Nat.pos_of_ne_zero heven), hdsps]
      refine cut_mul_congr leastAverage_pos ?_ ?_ (factor_le_one hp) hiterate
      · rw [← hdsps]
        exact dsps_nonneg _ i
      · exact mul_nonneg (meter.dsps_nonneg i) (pow_nonneg (idleFactor_nonneg E i) _)

/-! ## Shares folded in -/

theorem pending_addShare (diff : K) :
    (meter.addShare diff).pending = meter.pending + max diff 0 := by
  unfold addShare
  split
  · rename_i hpos
    rw [max_eq_left hpos.le]
  · rename_i hneg
    rw [max_eq_right (not_lt.mp hneg), add_zero]

theorem dsps_addShare (diff : K) : (meter.addShare diff).dsps = meter.dsps := by
  unfold addShare
  split <;> rfl

theorem lastDecay_addShare (diff : K) : (meter.addShare diff).lastDecay = meter.lastDecay := by
  unfold addShare
  split <;> rfl

/-- However short the time, the shares folded in by a tick count for their difficulty over the
window at most. -/
theorem dsps_tick_le (now : Instant) (i : Fin windowCount) :
    (meter.tick E now).dsps i * windowSecs i ≤ meter.dsps i * windowSecs i + meter.pending := by
  have hinterval : (0 : K) < windowSecs i := by
    exact_mod_cast lt_of_lt_of_le (by norm_num) (windowSecs_ge i)
  have hsecs : (0 : K) < saneTdiff now meter.lastDecay := saneTdiff_pos _ _
  have hp := proportionOf_nonneg E hsecs.le hinterval.le
  have hrate : 0 ≤ meter.pending / (saneTdiff now meter.lastDecay : K) :=
    div_nonneg meter.pending_nonneg hsecs.le
  have htoward := toward_le hp hrate (meter.dsps_nonneg i)
  have hshares : meter.pending / (saneTdiff now meter.lastDecay : K) *
      proportionOf E (saneTdiff now meter.lastDecay) (windowSecs i) ≤
        meter.pending / windowSecs i := by
    calc _ ≤ meter.pending / (saneTdiff now meter.lastDecay : K) *
          (saneTdiff now meter.lastDecay / windowSecs i) :=
          mul_le_mul_of_nonneg_left (proportionOf_le E) hrate
      _ = meter.pending / windowSecs i := by field_simp
  rw [dsps_tick, decayTime_eq E hsecs]
  calc _ ≤ (meter.dsps i + meter.pending / windowSecs i) * windowSecs i := by
        refine mul_le_mul_of_nonneg_right ?_ hinterval.le
        exact (cut_le (toward_nonneg hp hrate (meter.dsps_nonneg i))).trans
          (htoward.trans (add_le_add_right hshares _))
    _ = meter.dsps i * windowSecs i + meter.pending := by
        rw [add_mul, div_mul_cancel₀ _ hinterval.ne']

/-! ## A steady rate -/

/-- A stretch of time that the floor of `saneTdiff` does not change. -/
theorem saneTdiff_add_of_le {gap : ℕ} (hgap : 10 ^ 6 ≤ gap) (start : Instant) :
    (saneTdiff (start + gap) start : K) = gap / 10 ^ 9 := by
  have hfloor : (1 : K) / 1000 ≤ gap / 10 ^ 9 := by
    have hle : ((10 ^ 6 : ℕ) : K) ≤ gap := by exact_mod_cast hgap
    rw [Nat.cast_pow, Nat.cast_ofNat] at hle
    rw [le_div_iff₀ (by positivity)]
    linarith
  rw [saneTdiff, Nat.add_sub_cancel_left, max_eq_left hfloor]

/-- The proportion of a tick so many nanoseconds after the last. -/
def gapProportion (gap : ℕ) (i : Fin windowCount) : K :=
  proportionOf E (gap / 10 ^ 9) (windowSecs i)

/-- A tick so many nanoseconds after the last, with the shares that came in at a rate meanwhile. -/
def feed (rate : K) (meter : HashrateDecay K) (gap : ℕ) : HashrateDecay K :=
  (meter.addShare (rate * (gap / 10 ^ 9))).tick E (meter.lastDecay + gap)

theorem gapProportion_pos {gap : ℕ} (hgap : 10 ^ 6 ≤ gap) (i : Fin windowCount) :
    0 < gapProportion E gap i := by
  have hinterval : (0 : K) < windowSecs i := by
    exact_mod_cast lt_of_lt_of_le (by norm_num) (windowSecs_ge i)
  have hpos : (0 : K) < gap := by
    exact_mod_cast lt_of_lt_of_le (by norm_num) hgap
  exact E.proportion_pos (lt_min (by positivity) (by norm_num))

theorem gapProportion_mono {gap gap' : ℕ} (h : gap ≤ gap') (i : Fin windowCount) :
    gapProportion E gap i ≤ gapProportion E gap' i := by
  have hgap : (gap : K) / 10 ^ 9 ≤ (gap' : K) / 10 ^ 9 :=
    div_le_div_of_nonneg_right (by exact_mod_cast h) (by positivity)
  exact E.proportion_mono (min_le_min
    (div_le_div_of_nonneg_right hgap (Nat.cast_nonneg _)) le_rfl)

/-- A tick brings an average nearer to the rate, if the average it comes to is not too small to be
kept. -/
theorem dsps_feed_sub (hpending : meter.pending = 0) {rate : K} (hrate : 0 < rate) {gap : ℕ}
    (hgap : 10 ^ 6 ≤ gap) (i : Fin windowCount)
    (hkept : leastAverage K ≤ toward (gapProportion E gap i) rate (meter.dsps i)) :
    (feed E rate meter gap).dsps i - rate =
      (meter.dsps i - rate) / (1 + gapProportion E gap i) := by
  have hsecs : (0 : K) < gap / 10 ^ 9 := by
    have hpos : (0 : K) < gap := by exact_mod_cast lt_of_lt_of_le (by norm_num) hgap
    positivity
  have hfold : (feed E rate meter gap).dsps i =
      cut (leastAverage K) (toward (gapProportion E gap i) rate (meter.dsps i)) := by
    rw [feed, dsps_tick, lastDecay_addShare, dsps_addShare, pending_addShare, hpending, zero_add,
      max_eq_left (mul_pos hrate hsecs).le, saneTdiff_add_of_le hgap, decayTime_eq E hsecs,
      mul_div_cancel_right₀ _ hsecs.ne']
    rfl
  rw [hfold, cut_of_le hkept, toward_sub (gapProportion_pos E hgap i).le]

/-- A meter fed at a steady rate comes to read it, however the ticks are spaced, if they are a
millisecond apart at least: each of them takes a fixed part of the distance away at least. The
average of the first tick must not be too small to be kept. -/
theorem steady_rate_approached (hpending : meter.pending = 0) {rate : K} (hrate : 0 < rate)
    {least : ℕ} (hleast : 10 ^ 6 ≤ least) {gaps : List ℕ} (hgaps : ∀ gap ∈ gaps, least ≤ gap)
    (i : Fin windowCount)
    (hkept : leastAverage K ≤ toward (gapProportion E least i) rate 0) :
    1 / (1 + gapProportion E least i) < 1 ∧
      |(gaps.foldl (feed E rate) meter).dsps i - rate| ≤
        |meter.dsps i - rate| * (1 / (1 + gapProportion E least i)) ^ gaps.length := by
  have hfloor := gapProportion_pos E hleast i
  refine ⟨(div_lt_one (by linarith)).mpr (by linarith), ?_⟩
  induction gaps generalizing meter with
  | nil => simp
  | cons gap gaps ih =>
    have hle := hgaps gap List.mem_cons_self
    have hgap := gapProportion_mono E hle i
    have hpos := gapProportion_pos E (hleast.trans hle) i
    have hkept' : leastAverage K ≤ toward (gapProportion E gap i) rate (meter.dsps i) :=
      hkept.trans (toward_zero_le hrate.le (meter.dsps_nonneg i) hfloor.le hgap)
    have hfirst : |(feed E rate meter gap).dsps i - rate| ≤
        |meter.dsps i - rate| * (1 / (1 + gapProportion E least i)) := by
      have hden : |1 + gapProportion E gap i| = 1 + gapProportion E gap i :=
        abs_of_pos (by linarith)
      rw [dsps_feed_sub E hpending hrate (hleast.trans hle) i hkept', abs_div, hden, ← mul_one_div]
      refine mul_le_mul_of_nonneg_left ?_ (abs_nonneg _)
      exact one_div_le_one_div_of_le (by linarith) (by linarith)
    have hrest := @ih (feed E rate meter gap) rfl fun g hg => hgaps g (List.mem_cons_of_mem gap hg)
    rw [List.foldl_cons, List.length_cons, pow_succ', ← mul_assoc]
    exact hrest.trans (mul_le_mul_of_nonneg_right hfirst (by positivity))

/-- A new meter, fed one share of difficulty 1 a second in two ticks. -/
theorem steady_rate_approached_twoTicks :
    |([secs 2, secs 30].foldl (feed Exponential.real 1) (new 0)).dsps 0 - 1| ≤
      |(0 : ℝ) - 1| * (1 / (1 + gapProportion Exponential.real (secs 2) 0)) ^ 2 := by
  have hpending : (new 0 : HashrateDecay ℝ).pending = 0 := rfl
  -- a thirtieth of the window has passed, so a thirty-first of the rate is in
  have hproportion : (1 : ℝ) / 31 ≤ gapProportion Exponential.real (secs 2) 0 := by
    have hmin : min (((secs 2 : ℕ) : ℝ) / 10 ^ 9 / windowSecs 0) 36 = 1 / 30 := by
      norm_num [secs, windowSecs]
    rw [gapProportion, proportionOf, hmin]
    exact le_trans (by norm_num) (Exponential.real.le_proportion (x := 1 / 30) (by norm_num))
  have hkept : leastAverage ℝ ≤ toward (gapProportion Exponential.real (secs 2) 0) 1 0 :=
    le_trans (by norm_num [leastAverage, toward])
      (toward_zero_le zero_le_one le_rfl (p := 1 / 31) (by norm_num) hproportion)
  exact (steady_rate_approached Exponential.real hpending one_pos (by decide) (by decide) 0 hkept).2

end HashrateDecay

end BtcPool
