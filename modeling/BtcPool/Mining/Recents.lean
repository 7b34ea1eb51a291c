import BtcPool.Foundations.Recents
import BtcPool.Foundations.Rows
import BtcPool.Mining.Jobs

/-!
# What the histories of a session hold

The issued jobs and the accepted shares of a session are queues of bounded length. Over any sequence
of calls:

* `ShareSet.holds_recent`: the set of shares holds the last 4096 keys that were new when they came;
* `IssuedJobs.Holds.run`: the history of jobs holds the last sixteen jobs issued, each marked as
  superseded if a clean one came after it, and a job is found under its id while it is among them
  (`IssuedJobs.Holds.find_eq_some_iff`).
-/

namespace BtcPool

open Bitcoin Recents

/-! ## Accepted shares -/

/-- A call on the share set. -/
inductive ShareCall
  | insert (key : ShareKey)
  | clear
  deriving DecidableEq

namespace ShareSet

/-- The share set after a call. -/
def step (s : ShareSet) : ShareCall → ShareSet
  | .insert key => s.insert key
  | .clear => s.clear

/-- The share set after a sequence of calls. -/
def run (s : ShareSet) (calls : List ShareCall) : ShareSet := calls.foldl step s

/-- The keys newly inserted since the last clear, after one more call: a key that is present when it
is inserted does not count. -/
def noteNew (s : ShareSet) (keys : List ShareKey) : ShareCall → List ShareKey
  | .insert key => if s.contains key then keys else keys ++ [key]
  | .clear => []

/-- The keys newly inserted since the last clear, in order, by calls made on a set. -/
def newKeys (s : ShareSet) (keys : List ShareKey) : List ShareCall → List ShareKey
  | [] => keys
  | call :: calls => newKeys (s.step call) (s.noteNew keys call) calls

/-- The set and the queue hold the same keys, the last of those that were new. -/
structure Holds (keys : List ShareKey) (s : ShareSet) : Prop where
  pos : 0 < s.maxSize
  nodup : s.order.Nodup
  order : s.order = keys.rtake s.maxSize
  seen : s.seen = s.order.toFinset

namespace Holds

variable {keys : List ShareKey} {s : ShareSet}

theorem mem_seen (h : Holds keys s) {key : ShareKey} : key ∈ s.seen ↔ key ∈ s.order := by
  rw [h.seen, List.mem_toFinset]

theorem card_seen (h : Holds keys s) : s.seen.card = s.order.length := by
  rw [h.seen, List.toFinset_card_of_nodup h.nodup]

/-- Dropping the oldest key of a full set keeps the set and the queue together. -/
theorem evict (h : Holds keys s) :
    s.evict.maxSize = s.maxSize ∧
      s.evict.order = (if s.maxSize ≤ s.order.length then s.order.tail else s.order) ∧
      s.evict.seen = s.evict.order.toFinset := by
  unfold ShareSet.evict
  rw [h.card_seen]
  by_cases hfull : s.maxSize ≤ s.order.length
  · rw [if_pos hfull, if_pos hfull]
    cases horder : s.order with
    | nil => exact ⟨rfl, horder, h.seen⟩
    | cons oldest rest =>
      have hnew : oldest ∉ rest := (List.nodup_cons.mp (horder ▸ h.nodup)).1
      refine ⟨rfl, rfl, ?_⟩
      simp only [h.seen, horder, List.toFinset_cons]
      exact Finset.erase_insert (by simpa using hnew)
  · rw [if_neg hfull, if_neg hfull]
    exact ⟨rfl, rfl, h.seen⟩

theorem insert (h : Holds keys s) (key : ShareKey) :
    Holds (s.noteNew keys (.insert key)) (s.insert key) := by
  by_cases hmem : key ∈ s.seen
  · have hinsert : s.insert key = s := if_pos hmem
    rw [hinsert, noteNew, if_pos (contains_iff.mpr hmem)]
    exact h
  · obtain ⟨hmax, horder, hseen⟩ := h.evict
    have hnote : s.noteNew keys (.insert key) = keys ++ [key] :=
      if_neg fun hc => hmem (contains_iff.mp hc)
    have hpushed : s.evict.order ++ [key] = (keys ++ [key]).rtake s.maxSize := by
      rw [horder, h.order]
      exact makeRoom_concat h.pos keys key
    have hsub : s.evict.order <:+ s.order := by
      rw [horder]
      split
      · exact List.tail_suffix _
      · exact List.suffix_refl _
    have hnew : key ∉ s.evict.order := fun hk => hmem (h.mem_seen.mpr (hsub.subset hk))
    unfold ShareSet.insert
    rw [if_neg hmem, hnote]
    refine ⟨hmax ▸ h.pos, ?_, hmax ▸ hpushed, ?_⟩
    · exact (List.concat_eq_append ▸ (h.nodup.sublist hsub.sublist).concat hnew :)
    · dsimp only
      rw [hseen, List.toFinset_append, List.toFinset_cons, List.toFinset_nil, insert_empty_eq,
        Finset.union_comm, Finset.insert_eq]

theorem clear (h : Holds keys s) : Holds [] s.clear :=
  ⟨h.pos, List.nodup_nil, by rw [List.rtake_nil]; rfl, rfl⟩

theorem step (h : Holds keys s) (call : ShareCall) : Holds (s.noteNew keys call) (s.step call) := by
  cases call with
  | insert key => exact h.insert key
  | clear => exact h.clear

theorem run (h : Holds keys s) (calls : List ShareCall) :
    Holds (s.newKeys keys calls) (s.run calls) := by
  induction calls generalizing keys s with
  | nil => exact h
  | cons call calls ih => exact ih (h.step call)

end Holds

theorem holds_new : Holds [] new := ⟨by decide, List.nodup_nil, rfl, rfl⟩

@[simp] theorem maxSize_run (s : ShareSet) (calls : List ShareCall) :
    (s.run calls).maxSize = s.maxSize := by
  induction calls generalizing s with
  | nil => rfl
  | cons call calls ih =>
    have hstep : (s.step call).maxSize = s.maxSize := by
      cases call with
      | insert key => exact maxSize_insert s key
      | clear => rfl
    exact (ih (s.step call)).trans hstep

/-- **The set of accepted shares.** After any calls on a new set, the queue lists every key of the
set once, it has at most 4096 of them, and they are the last 4096 that were new when they came,
since the last clear. -/
theorem holds_recent (calls : List ShareCall) :
    (new.run calls).order.Nodup ∧
    (∀ key, key ∈ (new.run calls).order ↔ key ∈ (new.run calls).seen) ∧
    (new.run calls).order.length ≤ 4096 ∧
    ∀ key, (new.run calls).contains key ↔ key ∈ (new.newKeys [] calls).rtake 4096 := by
  have h := holds_new.run calls
  have hmax : (new.run calls).maxSize = 4096 := maxSize_run new calls
  have horder := h.order
  rw [hmax] at horder
  refine ⟨h.nodup, fun key => h.mem_seen.symm, ?_, fun key => ?_⟩
  · rw [horder, length_rtake]
    exact min_le_left _ _
  · rw [contains_iff, h.mem_seen, horder]

end ShareSet

/-! ## Issued jobs -/

/-- A call of `issue`. -/
structure Issue where
  job : StratumJob
  clean : Bool
  difficulty : UInt64
deriving DecidableEq

/-- A call on the issued jobs. -/
inductive JobCall
  | issue (issue : Issue)
  | clear
  deriving DecidableEq

namespace IssuedJobs

/-- The jobs after a call. -/
def step (jobs : IssuedJobs) : JobCall → IssuedJobs
  | .issue i => jobs.issue i.job i.clean i.difficulty
  | .clear => jobs.clear

/-- The jobs after a sequence of calls. -/
def run (jobs : IssuedJobs) (calls : List JobCall) : IssuedJobs := calls.foldl step jobs

/-- The jobs issued since the last clear. -/
def issuedSince : List Issue → List JobCall → List Issue
  | issues, [] => issues
  | issues, .issue i :: calls => issuedSince (issues ++ [i]) calls
  | _, .clear :: calls => issuedSince [] calls

/-- All jobs issued. -/
def issuedIn (calls : List JobCall) : List Issue :=
  calls.filterMap fun
    | .issue i => some i
    | .clear => none

/-- The entry of a job that was followed by others. -/
def entryOf (i : Issue) (after : List Issue) : JobEntry where
  job := i.job
  supersededByClean := after.any Issue.clean
  difficulty := i.difficulty

/-- The entries of a list of jobs: a job is superseded if a later one is clean. -/
def entriesOf : List Issue → List JobEntry
  | [] => []
  | i :: issues => entryOf i issues :: entriesOf issues

@[simp] theorem length_entriesOf (issues : List Issue) :
    (entriesOf issues).length = issues.length := by
  induction issues with
  | nil => rfl
  | cons i issues ih => rw [entriesOf, List.length_cons, ih, List.length_cons]

@[simp] theorem map_job_entriesOf (issues : List Issue) :
    (entriesOf issues).map JobEntry.job = issues.map Issue.job := by
  induction issues with
  | nil => rfl
  | cons i issues ih => rw [entriesOf, List.map_cons, ih, List.map_cons, entryOf]

theorem entriesOf_concat (issues : List Issue) (i : Issue) :
    entriesOf (issues ++ [i]) = retire i.clean (entriesOf issues) ++ [entryOf i []] := by
  induction issues with
  | nil =>
    cases hclean : i.clean <;> rfl
  | cons j issues ih =>
    rw [List.cons_append, entriesOf, ih, entriesOf]
    cases hclean : i.clean with
    | false => simp [retire, entryOf, hclean]
    | true => simp [retire, entryOf, hclean]

theorem entriesOf_drop (issues : List Issue) (n : ℕ) :
    entriesOf (issues.drop n) = (entriesOf issues).drop n := by
  induction issues generalizing n with
  | nil => simp [entriesOf]
  | cons i issues ih =>
    cases n with
    | zero => rfl
    | succ n => rw [List.drop_succ_cons, ih, entriesOf, List.drop_succ_cons]

theorem entriesOf_rtake (issues : List Issue) (n : ℕ) :
    entriesOf (issues.rtake n) = (entriesOf issues).rtake n := by
  rw [List.rtake, List.rtake, entriesOf_drop, length_entriesOf]

/-- The last sixteen jobs are held. -/
def Holds (issues : List Issue) (jobs : IssuedJobs) : Prop :=
  jobs.entries = entriesOf (issues.rtake jobHistoryDepth)

theorem holds_new : Holds [] new := rfl

theorem Holds.issue {issues : List Issue} {jobs : IssuedJobs} (h : Holds issues jobs) (i : Issue) :
    Holds (issues ++ [i]) (jobs.issue i.job i.clean i.difficulty) := by
  have hretired : retire i.clean jobs.entries =
      (retire i.clean (entriesOf issues)).rtake jobHistoryDepth := by
    rw [h, entriesOf_rtake]
    unfold retire
    split
    · exact map_rtake _ _ _
    · rfl
  change makeRoom (retire i.clean jobs.entries) ++ [entryOf i []] = _
  rw [entriesOf_rtake, entriesOf_concat, hretired]
  exact makeRoom_concat (by decide) _ _

theorem Holds.run {issues : List Issue} {jobs : IssuedJobs} (h : Holds issues jobs)
    (calls : List JobCall) : Holds (issuedSince issues calls) (jobs.run calls) := by
  induction calls generalizing issues jobs with
  | nil => exact h
  | cons call calls ih =>
    cases call with
    | issue i => exact ih (h.issue i)
    | clear => exact ih holds_new

/-- What was issued since the last clear is the end of what was issued. -/
theorem issuedSince_suffix (issues : List Issue) (calls : List JobCall) :
    issuedSince issues calls <:+ issues ++ issuedIn calls := by
  induction calls generalizing issues with
  | nil => exact ⟨[], by simp [issuedSince, issuedIn]⟩
  | cons call calls ih =>
    cases call with
    | issue i => simpa [issuedSince, issuedIn] using ih (issues ++ [i])
    | clear => exact (ih []).trans (List.suffix_append _ _)

theorem mem_entriesOf {issues : List Issue} {entry : JobEntry} :
    entry ∈ entriesOf issues ↔ ∃ i after, i :: after <:+ issues ∧ entry = entryOf i after := by
  induction issues with
  | nil => simp [entriesOf]
  | cons j issues ih =>
    rw [entriesOf, List.mem_cons, ih]
    simp only [List.suffix_cons_iff, List.cons.injEq, or_and_right, exists_or]
    refine or_congr_left ?_
    constructor
    · rintro rfl
      exact ⟨j, issues, ⟨rfl, rfl⟩, rfl⟩
    · rintro ⟨i, after, ⟨rfl, rfl⟩, rfl⟩
      rfl

/-- The entries held are those of the jobs that fewer than sixteen came after. -/
theorem Holds.mem_entries {issues : List Issue} {jobs : IssuedJobs} (h : Holds issues jobs)
    {entry : JobEntry} :
    entry ∈ jobs.entries ↔
      ∃ i after, i :: after <:+ issues ∧ after.length < jobHistoryDepth ∧
      entry = entryOf i after := by
  rw [h]
  simp only [mem_entriesOf, suffix_rtake_iff, List.length_cons, Nat.succ_le_iff, and_assoc]

theorem Holds.nodup_ids {issues : List Issue} {jobs : IssuedJobs} (h : Holds issues jobs)
    (hids : (issues.map fun i => i.job.jobId).Nodup) :
    (jobs.entries.map fun e => e.job.jobId).Nodup := by
  have hjobs : jobs.entries.map JobEntry.job = (issues.rtake jobHistoryDepth).map Issue.job := by
    rw [h, map_job_entriesOf]
  have hmap : jobs.entries.map (fun e => e.job.jobId) =
      (issues.rtake jobHistoryDepth).map fun i => i.job.jobId := by
    have := congrArg (List.map fun job : StratumJob => job.jobId) hjobs
    rwa [List.map_map, List.map_map] at this
  rw [hmap]
  exact hids.sublist ((rtake_suffix issues _).sublist.map _)

/-- A job is found while fewer than sixteen came after it. -/
theorem Holds.find_eq_some_iff {issues : List Issue} {jobs : IssuedJobs} (h : Holds issues jobs)
    (hids : (issues.map fun i => i.job.jobId).Nodup) {jobId : Str} {entry : JobEntry} :
    jobs.find jobId = some entry ↔ ∃ i after, i :: after <:+ issues ∧
      after.length < jobHistoryDepth ∧ i.job.jobId = jobId ∧ entry = entryOf i after := by
  rw [find, Rows.find?_eq_some_iff_of_nodup (h.nodup_ids hids), h.mem_entries]
  constructor
  · rintro ⟨⟨i, after, hsuffix, hafter, rfl⟩, hid⟩
    exact ⟨i, after, hsuffix, hafter, hid, rfl⟩
  · rintro ⟨i, after, hsuffix, hafter, hid, rfl⟩
    exact ⟨⟨i, after, hsuffix, hafter, rfl⟩, hid⟩

end IssuedJobs

end BtcPool
