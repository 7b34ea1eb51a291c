import BtcPool.Foundations.Histories
import BtcPool.Mining.Retargets

/-!
# Retarget windows

A `Vardiff` counts the shares since its window was opened and keeps a clock. A new window is opened
by a change, by an estimate close enough to the difficulty, by a retarget that comes to the same
difficulty and by a miner's hint; a retarget that would lower the difficulty after at most one share
resets the clock only (`Retarget`).

Over a run (`after`), the counter is the number of shares since the last opening and the clock is
not before any opening (`tracked_after`). So a change takes a full interval since any earlier
change, or enough shares in the present window, and one that lowers the difficulty takes two of them
(`retarget_spacing`).
-/

namespace BtcPool

open History

/-! ## Runs -/

/-- What the session asks of a `Vardiff`. -/
inductive VardiffEvent
  | share (time : Instant)
  | check (time : Instant) (networkDifficulty : Option UInt64) (rate : Bool → ℚ)
  | suggest (difficulty : UInt64) (time : Instant)

namespace VardiffEvent

/-- The time of an event. -/
def now : VardiffEvent → Instant
  | .share now => now
  | .check now _ _ => now
  | .suggest _ now => now

/-- Whether an event is a share. -/
def isShare : VardiffEvent → Bool
  | .share _ => true
  | .check .. | .suggest .. => false

end VardiffEvent

namespace Vardiff

/-- The state after an event. -/
def step (v : Vardiff) : VardiffEvent → Vardiff
  | .share now => v.recordShare now
  | .check now networkDifficulty rate => (v.checkRetarget now networkDifficulty rate).2
  | .suggest difficulty now => (v.suggest difficulty now).2

/-- The event opens a window: a hint, or a retarget that does. -/
def Opens (v : Vardiff) : VardiffEvent → Prop
  | .share _ => False
  | .check now networkDifficulty rate =>
    v.retarget now networkDifficulty rate ≠ .quiet ∧ v.retarget now networkDifficulty rate ≠ .held
  | .suggest .. => True

/-- The shares that allow a change before the interval is over. -/
def windowShares (cfg : VardiffConfig) : ℕ :=
  max 4 (roundU64 (cfg.retargetIntervalSecs.toNat / max cfg.targetShareTimeSecs.toNat 1)).toNat

theorem step_check (v : Vardiff) (now : Instant) (network : Option UInt64) (rate : Bool → ℚ) :
    v.step (.check now network rate) = (v.applyRetarget now (v.retarget now network rate)).2 :=
  congrArg Prod.snd (v.checkRetarget_eq now network rate)

theorem opens_check {v : Vardiff} {now : Instant} {network : Option UInt64} {rate : Bool → ℚ} :
    v.Opens (.check now network rate) ↔
      v.retarget now network rate ≠ .quiet ∧ v.retarget now network rate ≠ .held :=
  Iff.rfl

/-- What one event does to the counter and the clock. -/
theorem step_window (v : Vardiff) (e : VardiffEvent) :
    (v.Opens e → (v.step e).sharesSinceChange = 0 ∧ (v.step e).lastChange = e.now) ∧
    (¬ v.Opens e →
      (v.step e).sharesSinceChange = v.sharesSinceChange + (if e.isShare then 1 else 0) ∧
      ((v.step e).lastChange = v.lastChange ∨ (v.step e).lastChange = e.now)) := by
  cases e with
  | share now => exact ⟨False.elim, fun _ => ⟨rfl, Or.inl rfl⟩⟩
  | suggest difficulty now => exact ⟨fun _ => ⟨rfl, rfl⟩, fun h => absurd trivial h⟩
  | check now network rate =>
    rw [step_check, opens_check]
    cases hout : v.retarget now network rate with
    | quiet => exact ⟨fun h => absurd rfl h.1, fun _ => ⟨rfl, Or.inl rfl⟩⟩
    | held => exact ⟨fun h => absurd rfl h.2, fun _ => ⟨rfl, Or.inr rfl⟩⟩
    | reopened => exact ⟨fun _ => ⟨rfl, rfl⟩, fun h => absurd ⟨nofun, nofun⟩ h⟩
    | changed d => exact ⟨fun _ => ⟨rfl, rfl⟩, fun h => absurd ⟨nofun, nofun⟩ h⟩

theorem step_fixed (v : Vardiff) (e : VardiffEvent) :
    (v.step e).cfg = v.cfg ∧ (v.step e).retargetShares = v.retargetShares := by
  cases e with
  | share | suggest => exact ⟨rfl, rfl⟩
  | check now network rate =>
    rw [step_check]
    cases v.retarget now network rate <;> exact ⟨rfl, rfl⟩

section Runs

variable (cfg : VardiffConfig) (initialDifficulty : UInt64) (start : Instant)

/-- The state after the events, for a session created at `start`. -/
def after (events : List VardiffEvent) : Vardiff :=
  events.foldl step (new cfg initialDifficulty start)

theorem after_concat (past : List VardiffEvent) (e : VardiffEvent) :
    after cfg initialDifficulty start (past ++ [e]) =
      (after cfg initialDifficulty start past).step e := by
  simp [after]

/-- The event opens a window after those of `past`. -/
def OpensAfter (past : List VardiffEvent) (e : VardiffEvent) : Prop :=
  (after cfg initialDifficulty start past).Opens e

/-- The events since the window was last opened. -/
abbrev Window (past before since : List VardiffEvent) : Prop :=
  SinceLast (OpensAfter cfg initialDifficulty start) past before since

/-- The event is a retarget that changes the difficulty. -/
def Changes (past : List VardiffEvent) (e : VardiffEvent) : Prop :=
  ∃ now network rate d, e = .check now network rate ∧
    ((after cfg initialDifficulty start past).checkRetarget now network rate).1 = some d

/-- What the state says about the events so far. -/
structure Tracked (past : List VardiffEvent) : Prop where
  cfg_eq : (after cfg initialDifficulty start past).cfg = cfg
  retargetShares_eq :
    (after cfg initialDifficulty start past).retargetShares.toNat = windowShares cfg
  lastChange_mem :
    (after cfg initialDifficulty start past).lastChange ∈ start :: past.map VardiffEvent.now
  opened_le : ∀ before e, Occurs past before e → OpensAfter cfg initialDifficulty start before e →
    e.now ≤ (after cfg initialDifficulty start past).lastChange
  window : ∃ before since, Window cfg initialDifficulty start past before since ∧
    (after cfg initialDifficulty start past).sharesSinceChange =
      since.countP VardiffEvent.isShare

variable {cfg initialDifficulty start} {past before since : List VardiffEvent} {e : VardiffEvent}

/-- A change opens a window. -/
theorem Changes.opens (h : Changes cfg initialDifficulty start past e) :
    OpensAfter cfg initialDifficulty start past e := by
  obtain ⟨now, network, rate, d, rfl, hsome⟩ := h
  rw [checkRetarget_fst_eq_some] at hsome
  exact opens_check.mpr (by simp [hsome])

theorem tracked_nil : Tracked cfg initialDifficulty start [] where
  cfg_eq := rfl
  retargetShares_eq := by
    change (max _ 4 : UInt64).toNat = _
    rw [toNat_max, max_comm]
    rfl
  lastChange_mem := List.mem_cons_self
  opened_le := fun _ _ h => absurd h not_occurs_nil
  window := ⟨[], [], sinceLast_nil, rfl⟩

theorem Tracked.concat (h : Tracked cfg initialDifficulty start past)
    (horder : Ordered VardiffEvent.now start (past ++ [e])) :
    Tracked cfg initialDifficulty start (past ++ [e]) := by
  obtain ⟨hopens, hkeeps⟩ := step_window (after cfg initialDifficulty start past) e
  obtain ⟨hcfg, hshares⟩ := step_fixed (after cfg initialDifficulty start past) e
  rw [← after_concat] at hopens hkeeps hcfg hshares
  -- the clock stands still or moves to the event, which is not before it
  have hclock : (after cfg initialDifficulty start (past ++ [e])).lastChange =
      (after cfg initialDifficulty start past).lastChange ∨
        (after cfg initialDifficulty start (past ++ [e])).lastChange = e.now := by
    by_cases hopen : (after cfg initialDifficulty start past).Opens e
    · exact Or.inr (hopens hopen).2
    · exact (hkeeps hopen).2
  have hmono : (after cfg initialDifficulty start past).lastChange ≤
      (after cfg initialDifficulty start (past ++ [e])).lastChange := by
    rcases hclock with hsame | hnow
    · exact hsame.ge
    · rw [hnow]
      exact horder.le_time h.lastChange_mem
  refine ⟨hcfg.trans h.cfg_eq, hshares ▸ h.retargetShares_eq, ?_, ?_, ?_⟩
  · rcases hclock with hsame | hnow
    · rw [hsame]
      have hmem := h.lastChange_mem
      simp only [List.map_append, List.mem_cons, List.mem_append] at hmem ⊢
      exact hmem.imp_right Or.inl
    · simp [hnow]
  · intro before other hoccurs hopen
    rcases occurs_concat.mp hoccurs with ⟨rfl, rfl⟩ | hoccurs
    · exact (hopens hopen).2.ge
    · exact (h.opened_le before other hoccurs hopen).trans hmono
  · by_cases hopen : OpensAfter cfg initialDifficulty start past e
    · exact ⟨_, [], sinceLast_concat hopen, (hopens hopen).1⟩
    · obtain ⟨before, since, hwindow, hcount⟩ := h.window
      refine ⟨before, since ++ [e], hwindow.concat hopen, ?_⟩
      rw [(hkeeps hopen).1, hcount, List.countP_append, List.countP_singleton]

/-- The counter and the clock stand for the events, in every run. -/
theorem tracked_after (horder : Ordered VardiffEvent.now start past) :
    Tracked cfg initialDifficulty start past := by
  induction past using List.reverseRecOn with
  | nil => exact tracked_nil
  | append_singleton past e ih => exact (ih horder.of_concat).concat horder

end Runs

/-- When a retarget changes the difficulty, in any run with any estimates of the rate. -/
theorem retarget_spacing (cfg : VardiffConfig) (initialDifficulty : UInt64) (start : Instant)
    (past : List VardiffEvent) (now : Instant) (network : Option UInt64) (rate : Bool → ℚ)
    (d : UInt64) (horder : Ordered VardiffEvent.now start past)
    (hchange : ((after cfg initialDifficulty start past).checkRetarget now network rate).1 =
      some d) :
    (∃ before since, Window cfg initialDifficulty start past before since) ∧
    ∀ before since, Window cfg initialDifficulty start past before since →
      (∀ earlier e, Occurs past earlier e → Changes cfg initialDifficulty start earlier e →
        secs cfg.retargetIntervalSecs.toNat ≤ now - e.now ∨
          windowShares cfg ≤ since.countP VardiffEvent.isShare) ∧
      (d < (after cfg initialDifficulty start past).current →
        2 ≤ since.countP VardiffEvent.isShare) := by
  have htracked : Tracked cfg initialDifficulty start past := tracked_after horder
  obtain ⟨before, since, hwindow, hcount⟩ := htracked.window
  refine ⟨⟨before, since, hwindow⟩, fun before' since' hwindow' => ?_⟩
  obtain ⟨rfl, rfl⟩ := hwindow.unique hwindow'
  rw [checkRetarget_fst_eq_some] at hchange
  obtain ⟨hdue, hlower, -⟩ := of_retarget_changed hchange
  rw [htracked.cfg_eq, htracked.retargetShares_eq, hcount] at hdue
  rw [hcount] at hlower
  refine ⟨fun earlier e hoccurs hearlier => ?_, hlower⟩
  rcases hdue with htime | hshares
  · -- the clock was started by the earlier change, or after it
    have hle := htracked.opened_le earlier e hoccurs hearlier.opens
    exact Or.inl (htime.trans (Nat.sub_le_sub_left hle now))
  · exact Or.inr hshares

/-- A share every ten seconds, retargets every minute. -/
def minuteConfig : VardiffConfig where
  targetShareTimeSecs := 10
  retargetIntervalSecs := 60
  minDifficulty := 1
  maxDifficulty := 1000000
  maxRetargetFactor := 4
  deadzoneLow := 1 / 2
  deadzoneHigh := 2

/-- A miner that is raised from 10 to 40 and then sends six shares in as many seconds. -/
def raisedRun : List VardiffEvent :=
  [.share (secs 1), .check (secs 61) none fun _ => 100, .share (secs 62), .share (secs 63),
    .share (secs 64), .share (secs 65), .share (secs 66), .share (secs 67)]

theorem retarget_spacing_raised :
    ((after minuteConfig 10 0 raisedRun).checkRetarget (secs 68) none fun _ => 0).1 = some 10 ∧
      ∃ before since, Window minuteConfig 10 0 raisedRun before since ∧
        (secs 60 ≤ secs 68 - secs 61 ∨
          windowShares minuteConfig ≤ since.countP VardiffEvent.isShare) ∧
        2 ≤ since.countP VardiffEvent.isShare := by
  have hchange : ((after minuteConfig 10 0 raisedRun).checkRetarget (secs 68) none
      fun _ => 0).1 = some 10 := by decide +kernel
  have hraised : ((after minuteConfig 10 0 [.share (secs 1)]).checkRetarget (secs 61) none
      fun _ => 100).1 = some 40 := by decide +kernel
  have horder : Ordered VardiffEvent.now 0 raisedRun := by decide
  obtain ⟨⟨before, since, hwindow⟩, hspacing⟩ :=
    retarget_spacing minuteConfig 10 0 raisedRun (secs 68) none (fun _ => 0) 10 horder hchange
  obtain ⟨hearlier, hlower⟩ := hspacing before since hwindow
  refine ⟨hchange, before, since, hwindow, ?_, hlower (by decide +kernel)⟩
  exact hearlier [.share (secs 1)] _ ⟨_, rfl⟩ ⟨_, _, _, _, rfl, hraised⟩

end Vardiff

end BtcPool
