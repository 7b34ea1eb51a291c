import BtcPool.Foundations.SlidingWindow
import BtcPool.Mining.Difficulty
import Mathlib.Data.List.Pairwise
import Mathlib.Logic.Function.Basic

/-!
# The limit on connections

`ConnectionRateLimiter` of `security/mod.rs`: for each address the times of its recent connections,
trimmed when the address connects again, and dropped by `prune` once all are old. Each call reads
the clock once. `Decision`s are what the callers of `checkAndRecord` get.

The limiter decides like one that never forgets a connection (`Remembers.run_eq`): that one counts,
at each call, the connections it let in during the last minute (`runKeeping`).
-/

namespace BtcPool

open SlidingWindow

/-- When each address connected in the last minute. -/
structure ConnectionRateLimiter (ι : Type) where
  windows : ι → Option (List Instant)
  maxPerMinute : ℕ

/-- The result of a call of `checkAndRecord`, with its address and the clock it read. -/
structure Decision (ι : Type) where
  ip : ι
  now : Instant
  allowed : Bool
deriving DecidableEq

namespace ConnectionRateLimiter

variable {ι : Type} [DecidableEq ι]

/-- No address has connected. -/
def new (maxPerMinute : ℕ) : ConnectionRateLimiter ι where
  windows _ := none
  maxPerMinute := maxPerMinute

/-- The start of the window: none when the clock has not run for a minute. -/
def oneMinuteAgo (now : Instant) : Option Instant :=
  if secs 60 ≤ now then some (now - secs 60) else none

/-- Whether an address may connect, which is recorded if it may. -/
def checkAndRecord (l : ConnectionRateLimiter ι) (now : Instant) (ip : ι) :
    Bool × ConnectionRateLimiter ι :=
  let entry := (l.windows ip).getD []
  let entry := match oneMinuteAgo now with
    | some cutoff => entry.filter fun t => cutoff < t
    | none => entry
  if entry.length ≥ l.maxPerMinute then
    (false, { l with windows := Function.update l.windows ip (some entry) })
  else (true, { l with windows := Function.update l.windows ip (some (entry ++ [now])) })

/-- Forget the addresses that have not connected for a minute. -/
def prune (l : ConnectionRateLimiter ι) (now : Instant) : ConnectionRateLimiter ι :=
  match oneMinuteAgo now with
  | none => l
  | some cutoff =>
    { l with windows := fun ip => (l.windows ip).filter fun times => times.any fun t => cutoff < t }

/-- A call on the limiter. -/
inductive Call (ι : Type)
  | checkAndRecord (ip : ι) (now : Instant)
  | prune (now : Instant)
  deriving DecidableEq

/-- The time of a call. -/
def Call.now : Call ι → Instant
  | .checkAndRecord _ now => now
  | .prune now => now

/-- Whether a call is a check. -/
def Call.isCheck : Call ι → Bool
  | .checkAndRecord _ _ => true
  | .prune _ => false

/-- The decisions of a sequence of calls. -/
def run (l : ConnectionRateLimiter ι) : List (Call ι) → List (Decision ι)
  | [] => []
  | .checkAndRecord ip now :: calls =>
    ⟨ip, now, (l.checkAndRecord now ip).1⟩ :: (l.checkAndRecord now ip).2.run calls
  | .prune now :: calls => (l.prune now).run calls

/-- The times an address was let in. -/
def allowedTimes (ip : ι) (decisions : List (Decision ι)) : List Instant :=
  (decisions.filter fun d => d.ip = ip ∧ d.allowed).map Decision.now

/-! ## A limiter that keeps everything -/

/-- The decisions of a limiter that keeps the time of every connection it lets in. -/
def runKeeping (maxPerMinute : ℕ) (history : ι → List Instant) : List (Call ι) → List (Decision ι)
  | [] => []
  | .checkAndRecord ip now :: calls =>
    if (counting (secs 60) now (history ip)).length < maxPerMinute then
      ⟨ip, now, true⟩ ::
        runKeeping maxPerMinute (Function.update history ip (history ip ++ [now])) calls
    else ⟨ip, now, false⟩ :: runKeeping maxPerMinute history calls
  | .prune _ :: calls => runKeeping maxPerMinute history calls

/-- It does not notice calls of `prune`. -/
theorem runKeeping_filter (maxPerMinute : ℕ) (history : ι → List Instant) (calls : List (Call ι)) :
    runKeeping maxPerMinute history (calls.filter Call.isCheck) =
      runKeeping maxPerMinute history calls := by
  induction calls generalizing history with
  | nil => rfl
  | cons call calls ih =>
    cases call with
    | checkAndRecord ip now =>
      rw [List.filter_cons_of_pos rfl, runKeeping, runKeeping, ih, ih]
    | prune now => rw [List.filter_cons_of_neg Bool.false_ne_true, runKeeping, ih]

theorem allowedTimes_cons_allowed (ip ip' : ι) (now : Instant) (decisions : List (Decision ι)) :
    allowedTimes ip (⟨ip', now, true⟩ :: decisions) =
      (if ip = ip' then [now] else []) ++ allowedTimes ip decisions := by
  unfold allowedTimes
  by_cases h : ip = ip'
  · rw [if_pos h, List.filter_cons_of_pos (by simp [h])]
    rfl
  · rw [if_neg h, List.filter_cons_of_neg (by simp [Ne.symm h])]
    rfl

theorem allowedTimes_cons_refused (ip ip' : ι) (now : Instant) (decisions : List (Decision ι)) :
    allowedTimes ip (⟨ip', now, false⟩ :: decisions) = allowedTimes ip decisions := by
  unfold allowedTimes
  rw [List.filter_cons_of_neg (by simp)]

/-- A connection that is let in belongs to the history of what follows. -/
theorem update_append_allowedTimes (history : ι → List Instant) (ip ip' : ι) (now : Instant)
    (decisions : List (Decision ι)) :
    Function.update history ip' (history ip' ++ [now]) ip ++ allowedTimes ip decisions =
      history ip ++ allowedTimes ip (⟨ip', now, true⟩ :: decisions) := by
  rw [allowedTimes_cons_allowed]
  by_cases h : ip = ip'
  · subst h
    rw [Function.update_self, if_pos rfl, List.append_assoc]
  · rw [Function.update_of_ne h, if_neg h, List.nil_append]

/-- No stretch of a minute holds more than the limit. -/
theorem countP_runKeeping_le {p : Instant → Prop} [DecidablePred p] (hp : Narrow (secs 60) p)
    {maxPerMinute : ℕ} (history : ι → List Instant)
    (h : ∀ ip, (history ip).countP p ≤ maxPerMinute) (calls : List (Call ι)) (ip : ι) :
    (history ip ++ allowedTimes ip (runKeeping maxPerMinute history calls)).countP p ≤
      maxPerMinute := by
  induction calls generalizing history with
  | nil =>
    change (history ip ++ []).countP p ≤ maxPerMinute
    rw [List.append_nil]
    exact h ip
  | cons call calls ih =>
    cases call with
    | prune now => exact ih history h
    | checkAndRecord ip' now =>
      rw [runKeeping]
      split
      · rename_i hroom
        rw [← update_append_allowedTimes]
        refine ih _ fun i => ?_
        by_cases hi : i = ip'
        · subst hi
          rw [Function.update_self]
          exact countP_concat_le hp (h i) hroom
        · rw [Function.update_of_ne hi]
          exact h i
      · rw [allowedTimes_cons_refused]
        exact ih history h

/-- Each decision counts what was let in before it. -/
theorem runKeeping_split {maxPerMinute : ℕ} {history : ι → List Instant} {calls : List (Call ι)}
    {before after : List (Decision ι)} {d : Decision ι}
    (h : runKeeping maxPerMinute history calls = before ++ d :: after) :
    d.allowed ↔
      (counting (secs 60) d.now (history d.ip ++ allowedTimes d.ip before)).length <
        maxPerMinute := by
  induction calls generalizing history before with
  | nil =>
    rw [runKeeping] at h
    exact absurd h.symm (by simp)
  | cons call calls ih =>
    cases call with
    | prune now => exact ih h
    | checkAndRecord ip now =>
      rw [runKeeping] at h
      cases before with
      | nil =>
        have hnone : allowedTimes d.ip ([] : List (Decision ι)) = [] := rfl
        rw [hnone, List.append_nil]
        split at h
        · rename_i hroom
          obtain ⟨rfl, -⟩ := List.cons.inj h
          exact iff_of_true rfl hroom
        · rename_i hfull
          obtain ⟨rfl, -⟩ := List.cons.inj h
          exact iff_of_false Bool.false_ne_true hfull
      | cons first before =>
        split at h
        · obtain ⟨rfl, hrest⟩ := List.cons.inj h
          rw [ih hrest, update_append_allowedTimes]
        · obtain ⟨rfl, hrest⟩ := List.cons.inj h
          rw [ih hrest, allowedTimes_cons_refused]

/-! ## The limiter decides like it -/

/-- The windows stand for the times at which the addresses were let in. -/
def Remembers (now : Instant) (history : ι → List Instant) (l : ConnectionRateLimiter ι) : Prop :=
  ∀ ip, StandsFor (secs 60) now (history ip) ((l.windows ip).getD [])

omit [DecidableEq ι] in
theorem remembers_new (maxPerMinute : ℕ) :
    Remembers 0 (fun _ : ι => []) (new maxPerMinute) :=
  fun _ => .refl _ _ _

/-- Trimming an entry leaves what still counts. -/
theorem trim_eq_counting (now : Instant) (entry : List Instant) :
    (match oneMinuteAgo now with
      | some cutoff => entry.filter fun t => cutoff < t
      | none => entry) = counting (secs 60) now entry := by
  unfold oneMinuteAgo counting
  by_cases h : secs 60 ≤ now
  · rw [if_pos h]
    refine List.filter_congr fun t _ => ?_
    rw [decide_eq_decide]
    exact tsub_lt_iff_right h
  · rw [if_neg h]
    refine (List.filter_eq_self.mpr fun t _ => ?_).symm
    rw [decide_eq_true_eq]
    omega

omit [DecidableEq ι] in
theorem maxPerMinute_prune (l : ConnectionRateLimiter ι) (now : Instant) :
    (l.prune now).maxPerMinute = l.maxPerMinute := by
  unfold prune
  split <;> rfl

theorem checkAndRecord_eq (l : ConnectionRateLimiter ι) (now : Instant) (ip : ι) :
    l.checkAndRecord now ip =
      let entry := counting (secs 60) now ((l.windows ip).getD [])
      if entry.length ≥ l.maxPerMinute then
        (false, { l with windows := Function.update l.windows ip (some entry) })
      else (true, { l with windows := Function.update l.windows ip (some (entry ++ [now])) }) := by
  unfold checkAndRecord
  dsimp only
  rw [trim_eq_counting]

namespace Remembers

variable {now later : Instant} {history : ι → List Instant} {l : ConnectionRateLimiter ι}

/-- An entry is replaced by one that stands for the history of its address. -/
theorem update (h : Remembers now history l) (ip : ι) {times entry : List Instant}
    (hentry : StandsFor (secs 60) now times entry) :
    Remembers now (Function.update history ip times)
      { l with windows := Function.update l.windows ip (some entry) } := by
  intro i
  dsimp only
  by_cases hi : i = ip
  · subst hi
    rw [Function.update_self, Function.update_self]
    exact hentry
  · rw [Function.update_of_ne hi, Function.update_of_ne hi]
    exact h i

omit [DecidableEq ι] in
theorem mono (h : Remembers now history l) (hle : now ≤ later) : Remembers later history l :=
  fun ip => (h ip).mono hle

omit [DecidableEq ι] in
theorem prune (h : Remembers now history l) : Remembers now history (l.prune now) := by
  intro ip
  unfold ConnectionRateLimiter.prune oneMinuteAgo
  by_cases hclock : secs 60 ≤ now
  · rw [if_pos hclock]
    dsimp only
    cases hentry : l.windows ip with
    | none =>
      have hip := h ip
      rw [hentry] at hip
      exact hip
    | some times =>
      have hip : StandsFor (secs 60) now (history ip) times := by
        have hip := h ip
        rwa [hentry] at hip
      by_cases hany : times.any fun t => now - secs 60 < t
      · have hkept : (some times).filter (fun times => times.any fun t => now - secs 60 < t) =
            some times := if_pos hany
        rw [hkept]
        exact hip
      · have hdropped : (some times).filter (fun times => times.any fun t => now - secs 60 < t) =
            none := if_neg hany
        rw [hdropped]
        refine hip.drop (List.filter_eq_nil_iff.mpr fun t ht => ?_)
        rw [List.any_eq_true, not_exists] at hany
        have hold := hany t
        rw [not_and, decide_eq_true_eq, tsub_lt_iff_right hclock] at hold
        rw [decide_eq_true_eq]
        exact hold ht
  · rw [if_neg hclock]
    exact h ip

theorem run_eq {calls : List (Call ι)} (h : Remembers now history l)
    (hfrom : ∀ call ∈ calls, now ≤ call.now) (hsorted : (calls.map Call.now).Pairwise (· ≤ ·)) :
    l.run calls = runKeeping l.maxPerMinute history calls := by
  induction calls generalizing now history l with
  | nil => rfl
  | cons call calls ih =>
    rw [List.map_cons, List.pairwise_cons] at hsorted
    have hrest : ∀ c ∈ calls, call.now ≤ c.now :=
      fun c hc => hsorted.1 c.now (List.mem_map_of_mem hc)
    have hnow : Remembers call.now history l := h.mono (hfrom call List.mem_cons_self)
    cases call with
    | prune time =>
      have hpruned := ih hnow.prune hrest hsorted.2
      rw [maxPerMinute_prune] at hpruned
      exact hpruned
    | checkAndRecord ip time =>
      have hcount : counting (secs 60) time ((l.windows ip).getD []) =
          counting (secs 60) time (history ip) := hnow ip time le_rfl
      rw [run, runKeeping, checkAndRecord_eq]
      by_cases hroom : (counting (secs 60) time (history ip)).length < l.maxPerMinute
      · rw [if_pos hroom, if_neg (by rw [hcount]; omega)]
        have hpushed := hnow.update ip ((hnow ip).evict.push time)
        exact congrArg _ (ih hpushed hrest hsorted.2)
      · rw [if_neg hroom, if_pos (by rw [hcount]; omega)]
        have hevicted := hnow.update ip (hnow ip).evict
        rw [Function.update_eq_self] at hevicted
        exact congrArg _ (ih hevicted hrest hsorted.2)

end Remembers

/-! ## The limit -/

theorem mem_allowedTimes {ip : ι} {decisions : List (Decision ι)} {t : Instant}
    (h : t ∈ allowedTimes ip decisions) : ∃ d ∈ decisions, d.now = t := by
  obtain ⟨d, hd, rfl⟩ := List.mem_map.mp h
  exact ⟨d, (List.mem_filter.mp hd).1, rfl⟩

/-- The decisions are made in the order of the calls. -/
theorem run_sublist (l : ConnectionRateLimiter ι) (calls : List (Call ι)) :
    ((l.run calls).map Decision.now).Sublist (calls.map Call.now) := by
  induction calls generalizing l with
  | nil => exact List.Sublist.refl _
  | cons call calls ih =>
    cases call with
    | prune now => exact (ih (l.prune now)).cons _
    | checkAndRecord ip now => exact (ih (l.checkAndRecord now ip).2).cons_cons now

/-- From the start on, the limiter decides like the one that keeps everything. -/
theorem run_new {calls : List (Call ι)} (hsorted : (calls.map Call.now).Pairwise (· ≤ ·))
    (maxPerMinute : ℕ) :
    (new maxPerMinute).run calls = runKeeping maxPerMinute (fun _ => []) calls :=
  (remembers_new maxPerMinute).run_eq (fun _ _ => Nat.zero_le _) hsorted

theorem countP_run_le {p : Instant → Prop} [DecidablePred p] (hp : Narrow (secs 60) p)
    {calls : List (Call ι)} (hsorted : (calls.map Call.now).Pairwise (· ≤ ·)) (maxPerMinute : ℕ)
    (ip : ι) : (allowedTimes ip ((new maxPerMinute).run calls)).countP p ≤ maxPerMinute := by
  rw [run_new hsorted]
  exact countP_runKeeping_le hp (fun _ => []) (fun _ => Nat.zero_le _) calls ip

section Split

variable {l : ConnectionRateLimiter ι} {calls : List (Call ι)} {before after : List (Decision ι)}
  {d : Decision ι}

/-- What was let in before a call was let in at an earlier time. -/
theorem le_now_of_split (hsorted : (calls.map Call.now).Pairwise (· ≤ ·))
    (hsplit : l.run calls = before ++ d :: after) {t : Instant}
    (ht : t ∈ allowedTimes d.ip before) : t ≤ d.now := by
  obtain ⟨e, he, rfl⟩ := mem_allowedTimes ht
  have hdecisions := hsorted.sublist (run_sublist l calls)
  rw [hsplit, List.map_append, List.map_cons, List.pairwise_append] at hdecisions
  exact hdecisions.2.2 e.now (List.mem_map_of_mem he) d.now List.mem_cons_self

theorem length_counting_of_split (hsorted : (calls.map Call.now).Pairwise (· ≤ ·))
    (hsplit : l.run calls = before ++ d :: after) :
    (counting (secs 60) d.now (allowedTimes d.ip before)).length =
      (allowedTimes d.ip before).countP fun t => d.now < t + secs 60 ∧ t ≤ d.now := by
  rw [counting, ← List.countP_eq_length_filter]
  refine List.countP_congr fun t ht => ?_
  rw [decide_eq_true_eq, decide_eq_true_eq, and_iff_left (le_now_of_split hsorted hsplit ht)]

end Split

/-- **At most so many connections a minute.** Over any calls at times that do not decrease, no
half-open minute holds more connections of an address than the limit; a connection is refused
exactly if as many as the limit were let in during the minute up to it; and calls of `prune` change
no decision. -/
theorem connections_limited (maxPerMinute : ℕ) (calls : List (Call ι))
    (hsorted : (calls.map Call.now).Pairwise (· ≤ ·)) :
    (∀ ip a,
      (allowedTimes ip ((new maxPerMinute).run calls)).countP (· ∈ Set.Ico a (a + secs 60)) ≤
        maxPerMinute ∧
      (allowedTimes ip ((new maxPerMinute).run calls)).countP (· ∈ Set.Ioc a (a + secs 60)) ≤
        maxPerMinute) ∧
    (∀ before d after, (new maxPerMinute).run calls = before ++ d :: after →
      (d.allowed = false ↔ (allowedTimes d.ip before).countP
        (fun t => d.now < t + secs 60 ∧ t ≤ d.now) = maxPerMinute)) ∧
    ∀ calls' : List (Call ι), (calls'.map Call.now).Pairwise (· ≤ ·) →
      calls'.filter Call.isCheck = calls.filter Call.isCheck →
      (new maxPerMinute).run calls' = (new maxPerMinute).run calls := by
  refine ⟨fun ip a => ⟨countP_run_le (narrow_Ico _ a) hsorted maxPerMinute ip,
    countP_run_le (narrow_Ioc _ a) hsorted maxPerMinute ip⟩, ?_, ?_⟩
  · intro before d after hsplit
    have hdecided := hsplit
    rw [run_new hsorted] at hdecided
    have hallowed := runKeeping_split hdecided
    rw [List.nil_append, length_counting_of_split hsorted hsplit] at hallowed
    have hle : (allowedTimes d.ip before).countP (fun t => d.now < t + secs 60 ∧ t ≤ d.now) ≤
        maxPerMinute := by
      have hnarrow : Narrow (secs 60) fun t => d.now < t + secs 60 ∧ t ≤ d.now :=
        fun t t' ht ht' => lt_of_le_of_lt ht'.2 ht.1
      refine le_trans (List.Sublist.countP_le ?_) (countP_run_le hnarrow hsorted maxPerMinute d.ip)
      rw [hsplit]
      exact (List.Sublist.filter _ (List.sublist_append_left _ _)).map _
    rw [← Bool.not_eq_true, hallowed, not_lt]
    exact ⟨fun hfull => le_antisymm hle hfull, fun heq => heq.ge⟩
  · intro calls' hsorted' hchecks
    rw [run_new hsorted', run_new hsorted, ← runKeeping_filter, hchecks, runKeeping_filter]

/-- Two addresses, one connection a minute: the second one of an address is refused, and let in once
the minute is over, pruned or not. -/
theorem connections_limited_one :
    (new 1).run [.checkAndRecord false 0, .checkAndRecord true 1, .checkAndRecord false 2,
        .checkAndRecord false (secs 60)] =
      [⟨false, 0, true⟩, ⟨true, 1, true⟩, ⟨false, 2, false⟩, ⟨false, secs 60, true⟩] ∧
    (new 1).run [.checkAndRecord false 0, .checkAndRecord true 1, .prune 1,
        .checkAndRecord false 2, .prune (secs 60), .checkAndRecord false (secs 60)] =
      (new 1).run [.checkAndRecord false 0, .checkAndRecord true 1, .checkAndRecord false 2,
        .checkAndRecord false (secs 60)] :=
  ⟨by decide, (connections_limited 1 _ (by decide)).2.2 _ (by decide) (by decide)⟩

end ConnectionRateLimiter

end BtcPool
