import BtcPool.Bitcoin.Template
import Mathlib.Data.Finset.Card

/-!
# The history of a session: issued jobs and accepted shares

`IssuedJobs` is the bounded history of the jobs sent to a session; `ShareSet` the bounded set of the
shares accepted from it, which a clean job clears. Each operation has the few lemmas later proofs
use; they never unfold it.
-/

namespace BtcPool

open Bitcoin

/-! ## Issued jobs -/

/-- The number of jobs a session can resolve a submit to. -/
def jobHistoryDepth : ℕ := 16

/-- A job that was issued, with the difficulty it was issued at. -/
structure JobEntry where
  job : StratumJob
  supersededByClean : Bool
  difficulty : UInt64
deriving DecidableEq

/-- The jobs a session can still resolve a submit to, oldest first. -/
structure IssuedJobs where
  entries : List JobEntry
  length_le : entries.length ≤ jobHistoryDepth

namespace IssuedJobs

/-- No job was issued. -/
def new : IssuedJobs := ⟨[], by decide⟩

/-- The entries with everything outstanding retired, if the new job is a clean one. -/
def retire (clean : Bool) (entries : List JobEntry) : List JobEntry :=
  if clean then entries.map fun entry => { entry with supersededByClean := true } else entries

/-- The entries with room for one more. -/
def makeRoom (entries : List JobEntry) : List JobEntry :=
  if entries.length ≥ jobHistoryDepth then entries.tail else entries

@[simp] theorem length_retire (clean : Bool) (entries : List JobEntry) :
    (retire clean entries).length = entries.length := by
  unfold retire
  split <;> simp

theorem length_makeRoom_lt {entries : List JobEntry} (h : entries.length ≤ jobHistoryDepth) :
    (makeRoom entries).length < jobHistoryDepth := by
  unfold makeRoom
  have hpos : 0 < jobHistoryDepth := by decide
  split
  · rw [List.length_tail]
    omega
  · omega

/-- A job is issued; a clean one supersedes the others, and the oldest makes room. -/
def issue (jobs : IssuedJobs) (job : StratumJob) (clean : Bool) (difficulty : UInt64) :
    IssuedJobs where
  entries := makeRoom (retire clean jobs.entries) ++
    [{ job, supersededByClean := false, difficulty }]
  length_le := by
    have h : (makeRoom (retire clean jobs.entries)).length < jobHistoryDepth :=
      length_makeRoom_lt (by rw [length_retire]; exact jobs.length_le)
    rw [List.length_append]
    exact h

/-- The job a submit names. -/
def find (jobs : IssuedJobs) (jobId : Str) : Option JobEntry :=
  jobs.entries.find? fun entry => entry.job.jobId == jobId

/-- All jobs are dropped. -/
def clear (_ : IssuedJobs) : IssuedJobs := new

@[simp] theorem entries_new : new.entries = [] := rfl

@[simp] theorem entries_clear (jobs : IssuedJobs) : jobs.clear.entries = [] := rfl

theorem subset_of_eq_or_clear {jobs jobs' : IssuedJobs} (h : jobs' = jobs ∨ jobs' = jobs.clear) :
    ∀ entry ∈ jobs'.entries, entry ∈ jobs.entries := by
  rcases h with rfl | rfl
  · exact fun _ => id
  · simp

theorem mem_of_find {jobs : IssuedJobs} {jobId : Str} {entry : JobEntry}
    (h : jobs.find jobId = some entry) : entry ∈ jobs.entries ∧ entry.job.jobId = jobId :=
  ⟨List.mem_of_find?_eq_some h, by simpa using List.find?_some h⟩

theorem mem_of_mem_makeRoom {entries : List JobEntry} {entry : JobEntry}
    (h : entry ∈ makeRoom entries) : entry ∈ entries := by
  unfold makeRoom at h
  split at h
  · exact List.mem_of_mem_tail h
  · exact h

/-- After a job is issued, an entry is the new one or an old one, retired by a clean job. -/
theorem eq_of_mem_issue {jobs : IssuedJobs} {job : StratumJob} {clean : Bool} {difficulty : UInt64}
    {entry : JobEntry} (h : entry ∈ (jobs.issue job clean difficulty).entries) :
    entry = { job, supersededByClean := false, difficulty } ∨
      ∃ old ∈ jobs.entries,
        entry = { old with supersededByClean := clean || old.supersededByClean } := by
  rcases List.mem_append.mp h with h | h
  · right
    have hold := mem_of_mem_makeRoom h
    unfold retire at hold
    split at hold
    · obtain ⟨old, hmem, rfl⟩ := List.mem_map.mp hold
      exact ⟨old, hmem, by simp [*]⟩
    · exact ⟨entry, hold, by simp [*]⟩
  · exact Or.inl (by simpa using h)

theorem mem_issue {jobs : IssuedJobs} {job : StratumJob} {clean : Bool} {difficulty : UInt64}
    {entry : JobEntry} (h : entry ∈ (jobs.issue job clean difficulty).entries) :
    entry = { job, supersededByClean := false, difficulty } ∨
      ∃ old ∈ jobs.entries, entry.job = old.job ∧
        entry.supersededByClean = (clean || old.supersededByClean) := by
  rcases eq_of_mem_issue h with h | ⟨old, hmem, rfl⟩
  · exact Or.inl h
  · exact Or.inr ⟨old, hmem, rfl, rfl⟩

/-- Retired jobs come before all others: a clean job retires everything before it. -/
def Ordered (jobs : IssuedJobs) : Prop :=
  jobs.entries.Pairwise fun a b => b.supersededByClean = true → a.supersededByClean = true

theorem ordered_new : new.Ordered := List.Pairwise.nil

theorem ordered_clear (jobs : IssuedJobs) : jobs.clear.Ordered := ordered_new

theorem Ordered.issue {jobs : IssuedJobs} (h : jobs.Ordered) (job : StratumJob) (clean : Bool)
    (difficulty : UInt64) : (jobs.issue job clean difficulty).Ordered := by
  have hretire : (retire clean jobs.entries).Pairwise fun a b =>
      b.supersededByClean = true → a.supersededByClean = true := by
    unfold retire
    split
    · exact List.pairwise_map.mpr (h.imp fun _ _ => rfl)
    · exact h
  have hroom : (makeRoom (retire clean jobs.entries)).Pairwise fun a b =>
      b.supersededByClean = true → a.supersededByClean = true := by
    unfold makeRoom
    split
    · exact hretire.sublist (List.tail_sublist _)
    · exact hretire
  refine List.pairwise_append.mpr ⟨hroom, List.pairwise_singleton _ _, fun a _ b hb hsup => ?_⟩
  obtain rfl : b = _ := by simpa using hb
  cases hsup

/-- If the job an id resolves to is outstanding, so is every other job of that id. -/
theorem Ordered.live_of_find {jobs : IssuedJobs} (h : jobs.Ordered) {jobId : Str}
    {entry other : JobEntry} (hfind : jobs.find jobId = some entry)
    (hlive : entry.supersededByClean = false) (hother : other ∈ jobs.entries)
    (hid : other.job.jobId = jobId) : other.supersededByClean = false := by
  obtain ⟨-, before, after, hsplit, hbefore⟩ := List.find?_eq_some_iff_append.mp hfind
  rw [Ordered, hsplit] at h
  rw [hsplit] at hother
  rcases List.mem_append.mp hother with hmem | hmem
  · exact absurd hid (by simpa using hbefore other hmem)
  · rcases List.mem_cons.mp hmem with rfl | hmem
    · exact hlive
    · have hpair := List.rel_of_pairwise_cons (List.pairwise_append.mp h).2.1 hmem
      cases hsup : other.supersededByClean with
      | false => rfl
      | true => rw [hpair hsup] at hlive; cases hlive

end IssuedJobs

/-! ## Accepted shares -/

/-- What makes two submits the same share. -/
@[ext] structure ShareKey where
  jobId : Str
  extranonce2 : Bytes
  ntime : UInt32
  nonce : UInt32
  versionBits : UInt32
deriving DecidableEq

/-- The shares accepted from a session, with the order in which they came for eviction. -/
structure ShareSet where
  seen : Finset ShareKey
  order : List ShareKey
  maxSize : ℕ
deriving DecidableEq

namespace ShareSet

/-- No share was seen. -/
def new : ShareSet := { seen := ∅, order := [], maxSize := 4096 }

/-- Whether a share was seen. -/
def contains (s : ShareSet) (key : ShareKey) : Bool := key ∈ s.seen

/-- The set after the oldest share was dropped, if it is full. -/
def evict (s : ShareSet) : ShareSet :=
  if s.seen.card ≥ s.maxSize then
    match s.order with
    | [] => s
    | oldest :: rest => { s with seen := s.seen.erase oldest, order := rest }
  else s

/-- A share is remembered, and the oldest makes room. -/
def insert (s : ShareSet) (key : ShareKey) : ShareSet :=
  if key ∈ s.seen then s
  else
    let s := s.evict
    { s with seen := Insert.insert key s.seen, order := s.order ++ [key] }

/-- All shares are forgotten. -/
def clear (s : ShareSet) : ShareSet := { s with seen := ∅, order := [] }

@[simp] theorem contains_iff {s : ShareSet} {key : ShareKey} : s.contains key ↔ key ∈ s.seen := by
  simp [contains]

@[simp] theorem seen_new : new.seen = ∅ := rfl

@[simp] theorem seen_clear (s : ShareSet) : s.clear.seen = ∅ := rfl

@[simp] theorem maxSize_clear (s : ShareSet) : s.clear.maxSize = s.maxSize := rfl

@[simp] theorem maxSize_insert (s : ShareSet) (key : ShareKey) :
    (s.insert key).maxSize = s.maxSize := by
  unfold insert evict
  split
  · rfl
  · dsimp only
    split
    · split <;> rfl
    · rfl

theorem mem_of_mem_insert {s : ShareSet} {key other : ShareKey} (h : other ∈ (s.insert key).seen) :
    other = key ∨ other ∈ s.seen := by
  have hevict : ∀ {k}, k ∈ s.evict.seen → k ∈ s.seen := by
    intro k hk
    unfold evict at hk
    split at hk
    · split at hk
      · exact hk
      · exact Finset.mem_of_mem_erase hk
    · exact hk
  unfold insert at h
  split at h
  · exact Or.inr h
  · exact (Finset.mem_insert.mp h).imp id hevict

/-- A set that is not full only grows. -/
theorem seen_insert {s : ShareSet} {key : ShareKey} (h : s.seen.card < s.maxSize) :
    (s.insert key).seen = Insert.insert key s.seen := by
  unfold insert
  split
  · rw [Finset.insert_eq_of_mem ‹_›]
  · rw [evict, if_neg (by omega)]

end ShareSet

end BtcPool
