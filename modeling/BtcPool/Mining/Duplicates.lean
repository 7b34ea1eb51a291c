import BtcPool.Mining.Headers
import Mathlib.Data.List.Pairwise

/-!
# Which shares are taken for duplicates

A session remembers the keys of the shares it accepted until a clean job clears them, and refuses a
share whose key it remembers. `history` cuts a run of the session core at these clears into
stretches, each with the jobs issued and the shares accepted in it, and `Tracks` relates the
last stretch to the state: the keys remembered are those of its shares, and every job that is not
retired was issued in it.

What this is worth is said in terms of headers. In a stretch whose jobs are all of different work no
two accepted shares have one header (`Stretch.Sound.headers_nodup`). For a single job, a share is
taken for a duplicate exactly when its header was accepted before (`seen_iff_header`).
-/

namespace BtcPool.Core

open Bitcoin

/-! ## Stretches -/

/-- What happened between two clears. -/
@[ext] structure Stretch where
  issued : List (JobTemplate × StratumJob)
  accepted : List AcceptedShare

/-- The stretches of a session, each from one time its share set is emptied to the next. -/
structure History where
  current : Stretch
  earlier : List Stretch

namespace History

/-- A session that has done nothing yet. -/
def new : History := ⟨⟨[], []⟩, []⟩

/-- The stretches, the last one first. -/
def stretches (h : History) : List Stretch := h.current :: h.earlier

/-- What an action adds to the history. -/
def next (h : History) : Action → History
  | .retire => ⟨⟨[], []⟩, h.stretches⟩
  | .clearShares => ⟨⟨[], []⟩, h.stretches⟩
  | .renew template job _ => ⟨⟨[(template, job)], []⟩, h.stretches⟩
  | .issue template job _ _ =>
    { h with current := { h.current with issued := h.current.issued ++ [(template, job)] } }
  | .accept share =>
    { h with current := { h.current with accepted := h.current.accepted ++ [share] } }
  | _ => h

/-- The ids of all jobs issued. -/
def jobIds (h : History) : List Str :=
  h.stretches.flatMap fun st => st.issued.map fun issued => issued.2.jobId

end History

/-- The history of a trace. -/
def history (trace : List Action) : History := trace.foldl History.next .new

@[simp] theorem history_nil : history [] = .new := rfl

@[simp] theorem history_concat (trace : List Action) (a : Action) :
    history (trace ++ [a]) = (history trace).next a := by
  simp [history]

/-- Every accepted share is in one of the stretches. -/
theorem mem_accepted_iff {trace : List Action} {share : AcceptedShare} :
    Action.accept share ∈ trace ↔ ∃ st ∈ (history trace).stretches, share ∈ st.accepted := by
  induction trace using List.reverseRecOn with
  | nil => simp [History.new, History.stretches]
  | append_singleton trace a ih =>
    rw [List.mem_append, ih, history_concat]
    generalize history trace = h
    cases a <;> simp [History.next, History.stretches]
    grind

theorem mem_of_current {trace : List Action} {share : AcceptedShare}
    (h : share ∈ (history trace).current.accepted) : Action.accept share ∈ trace :=
  mem_accepted_iff.mpr ⟨_, List.mem_cons_self, h⟩

/-! ## Rules -/

/-- The frontend accepts regular shares only, and negotiates version bits only while no job is
out. -/
structure Rules.Strict (R : Rules) : Prop where
  regular : ∀ {share}, R.form share → share.Regular
  negotiate : ∀ {c mask}, R.mayNegotiate c mask → c.Idle

/-- What is known of a stretch in a session with the given extranonce and mask. -/
structure Stretch.Sound (R : Rules) (extranonce1 : Bytes) (size : ℕ) (mask : UInt32)
    (st : Stretch) : Prop where
  issued : ∀ p ∈ st.issued, ∃ identity : MinerIdentity, identity.Checked R.A R.network ∧
    BuiltJob p.1 identity.payout R.tag extranonce1.length size p.2
  accepted : ∀ share ∈ st.accepted, Acceptable R share ∧ R.form share ∧
    share.session.extranonce1 = extranonce1 ∧ share.session.extranonce2Size = size ∧
    share.session.rollMask = mask ∧ ∃ template, (template, share.entry.job) ∈ st.issued
  keys : st.accepted.length ≤ 4096 → (st.accepted.map AcceptedShare.key).Nodup

/-- How the state of a session stands to the stretch it is in. -/
structure Tracks (c : Core) (st : Stretch) : Prop where
  maxSize : c.shareSet.maxSize = 4096
  seen : st.accepted.length ≤ 4096 →
    c.shareSet.seen = (st.accepted.map AcceptedShare.key).toFinset
  live : ∀ entry ∈ c.issuedJobs.entries, entry.supersededByClean = false →
    ∃ template, (template, entry.job) ∈ st.issued
  idle : c.Idle → st.issued = []

/-- The invariant of a run with strict rules. -/
structure Accounted (R : Rules) (h : History) (c : Core) : Prop where
  valid : c.Valid R
  tracks : c.Tracks h.current
  current : h.current.Sound R c.extranonce1 c.extranonce2Size c.rollMask
  earlier : ∀ st ∈ h.earlier, ∃ extranonce1 size mask, st.Sound R extranonce1 size mask

variable {R : Rules} {c : Core} {h : History}

theorem Stretch.sound_nil (extranonce1 : Bytes) (size : ℕ) (mask : UInt32) :
    Stretch.Sound R extranonce1 size mask ⟨[], []⟩ :=
  ⟨by simp, by simp, by simp⟩

/-- While no job is out nothing was issued or accepted since the last clear. -/
theorem Accounted.current_eq_of_idle (ha : Accounted R h c) (hidle : c.Idle) :
    h.current = ⟨[], []⟩ := by
  have hissued := ha.tracks.idle hidle
  have haccepted : h.current.accepted = [] := by
    refine List.eq_nil_iff_forall_not_mem.mpr fun share hmem => ?_
    obtain ⟨-, -, -, -, -, template, hmem⟩ := ha.current.accepted share hmem
    rw [hissued] at hmem
    cases hmem
  exact Stretch.ext hissued haccepted

theorem Accounted.stretches (ha : Accounted R h c) :
    ∀ st ∈ h.stretches, ∃ extranonce1 size mask, st.Sound R extranonce1 size mask := by
  intro st hst
  rcases List.mem_cons.mp hst with rfl | hst
  · exact ⟨_, _, _, ha.current⟩
  · exact ha.earlier st hst

/-! ## The invariant along a run -/

/-- After a clear the stretch is a new one. -/
theorem Accounted.clear {job : List (JobTemplate × StratumJob)} {c' : Core}
    (ha : Accounted R h c) (hvalid : c'.Valid R) (hmax : c'.shareSet.maxSize = 4096)
    (hseen : c'.shareSet.seen = ∅)
    (hlive : ∀ entry ∈ c'.issuedJobs.entries, entry.supersededByClean = false →
      ∃ template, (template, entry.job) ∈ job)
    (hidle : c'.Idle → job = [])
    (hissued : ∀ p ∈ job, ∃ identity : MinerIdentity, identity.Checked R.A R.network ∧
      BuiltJob p.1 identity.payout R.tag c'.extranonce1.length c'.extranonce2Size p.2) :
    Accounted R ⟨⟨job, []⟩, h.stretches⟩ c' :=
  ⟨hvalid, ⟨hmax, fun _ => by simpa using hseen, hlive, hidle⟩,
    ⟨hissued, by simp, by simp⟩, ha.stretches⟩

/-- What is given to a session before it has jobs can change. -/
theorem Accounted.of_idle (ha : Accounted R h c) (hidle : c.Idle) {extranonce1 : Bytes} {size : ℕ}
    {mask : UInt32} (hvalid : Valid R { c with
      extranonce1 := extranonce1, extranonce2Size := size, rollMask := mask }) :
    Accounted R h { c with
      extranonce1 := extranonce1, extranonce2Size := size, rollMask := mask } := by
  refine ⟨hvalid, ⟨ha.tracks.maxSize, ha.tracks.seen, ha.tracks.live, ha.tracks.idle⟩, ?_,
    ha.earlier⟩
  rw [ha.current_eq_of_idle hidle]
  exact Stretch.sound_nil _ _ _

theorem Accounted.issue (ha : Accounted R h c) {template : JobTemplate} {job : StratumJob}
    {clean : Bool} {difficulty : UInt64} (hmat : c.Materialized R template job)
    (hvalid : Valid R (c.next (.issue template job clean difficulty))) :
    Accounted R (h.next (.issue template job clean difficulty))
      (c.next (.issue template job clean difficulty)) := by
  obtain ⟨identity, hidentity, -, hbuilt⟩ := hmat
  refine ⟨hvalid, ⟨ha.tracks.maxSize, ha.tracks.seen, fun entry hmem hlive => ?_, fun hidle => ?_⟩,
    ⟨fun p hp => ?_, fun share hshare => ?_, ha.current.keys⟩, ha.earlier⟩
  · rcases IssuedJobs.mem_issue hmem with rfl | ⟨old, hold, hsame, hsuper⟩
    · exact ⟨template, List.mem_append_right _ List.mem_cons_self⟩
    · have hkept : old.supersededByClean = false := by
        rw [hlive] at hsuper
        exact (Bool.or_eq_false_iff.mp hsuper.symm).2
      obtain ⟨t, ht⟩ := ha.tracks.live old hold hkept
      exact ⟨t, List.mem_append_left _ (hsame ▸ ht)⟩
  · simp [Idle, Core.next, IssuedJobs.issue] at hidle
  · rcases List.mem_append.mp hp with hp | hp
    · exact ha.current.issued p hp
    · obtain rfl : p = (template, job) := by simpa using hp
      exact ⟨identity, ha.valid.checked identity hidentity, hbuilt⟩
  · obtain ⟨hacc, hform, he1, hsize, hmask, t, ht⟩ := ha.current.accepted share hshare
    exact ⟨hacc, hform, he1, hsize, hmask, t, List.mem_append_left _ ht⟩

theorem Accounted.accept (ha : Accounted R h c) {share : AcceptedShare}
    (henabled : Enabled R c (.accept share)) (hvalid : Valid R (c.next (.accept share))) :
    Accounted R (h.next (.accept share)) (c.next (.accept share)) := by
  obtain ⟨rfl, hnew, hacc, hform⟩ := henabled
  obtain ⟨header, hvalidated, -⟩ := validateShareNoDedup_eq_ok.mp hacc.valid
  obtain ⟨template, htemplate⟩ := ha.tracks.live _ hacc.mem hvalidated.live
  -- while the stretch is short the keys remembered are those accepted in it, each once
  have hkeys : h.current.accepted.length + 1 ≤ 4096 →
      (h.current.accepted.map AcceptedShare.key).Nodup ∧
      share.session.shareSet.seen = (h.current.accepted.map AcceptedShare.key).toFinset :=
    fun hle => ⟨ha.current.keys (by omega), ha.tracks.seen (by omega)⟩
  refine ⟨hvalid, ⟨?_, fun hle => ?_, ha.tracks.live, ha.tracks.idle⟩,
    ⟨ha.current.issued, fun s hs => ?_, fun hle => ?_⟩, ha.earlier⟩
  · exact (ShareSet.maxSize_insert _ _).trans ha.tracks.maxSize
  · obtain ⟨hnodup, hseen⟩ := hkeys (by simpa [History.next] using hle)
    have hcard : share.session.shareSet.seen.card < share.session.shareSet.maxSize := by
      have hlen : h.current.accepted.length + 1 ≤ 4096 := by simpa [History.next] using hle
      rw [ha.tracks.maxSize, hseen, List.toFinset_card_of_nodup hnodup, List.length_map]
      omega
    simp only [Core.next, History.next, ShareSet.seen_insert hcard, hseen]
    ext k
    simp [eq_comm]
  · rcases List.mem_append.mp hs with hs | hs
    · exact ha.current.accepted s hs
    · obtain rfl : s = share := by simpa using hs
      exact ⟨hacc, hform, rfl, rfl, rfl, template, htemplate⟩
  · obtain ⟨hnodup, hseen⟩ := hkeys (by simpa [History.next] using hle)
    rw [hseen] at hnew
    simp only [History.next, List.map_append, List.map_cons, List.map_nil]
    rw [← List.concat_eq_append]
    exact hnodup.concat (by simpa using hnew)

theorem Accounted.next (hR : R.Strict) (hA : R.A.Lawful) (ha : Accounted R h c) {a : Action}
    (henabled : Enabled R c a) : Accounted R (h.next a) (c.next a) := by
  have hvalid := ha.valid.next hA henabled
  cases a with
  | retire =>
    exact ha.clear hvalid ha.tracks.maxSize rfl (by simp [Core.next]) (fun _ => rfl) (by simp)
  | identify identity =>
    exact ⟨hvalid, ⟨ha.tracks.maxSize, ha.tracks.seen, ha.tracks.live, ha.tracks.idle⟩, ha.current,
      ha.earlier⟩
  | assign e1 size => exact ha.of_idle henabled hvalid
  | negotiate mask => exact ha.of_idle (hR.negotiate henabled) hvalid
  | clearShares =>
    have hidle : c.issuedJobs.entries = [] := henabled
    exact ha.clear hvalid ha.tracks.maxSize rfl (by simp [Core.next, hidle]) (fun _ => rfl)
      (by simp)
  | issue template job clean difficulty => exact ha.issue henabled hvalid
  | renew template job difficulty =>
    obtain ⟨identity, hidentity, -, hbuilt⟩ := henabled
    refine ha.clear hvalid ha.tracks.maxSize rfl (fun entry hmem hlive => ?_) (fun hidle => ?_) ?_
    · -- the clean job has retired the others
      rcases IssuedJobs.mem_issue hmem with rfl | ⟨old, -, -, hsuper⟩
      · exact ⟨template, List.mem_cons_self⟩
      · rw [hlive] at hsuper
        cases hsuper
    · simp [Idle, Core.next, IssuedJobs.issue] at hidle
    · intro p hp
      obtain rfl : p = (template, job) := by simpa using hp
      exact ⟨identity, ha.valid.checked identity hidentity, hbuilt⟩
  | accept share => exact ha.accept henabled hvalid

/-- Every state of a run is accounted for by the history of the run. -/
theorem accounted_of_run (hR : R.Strict) (hA : R.A.Lawful) {c' : Core} {trace : List Action}
    (hrun : (machine R).Run c trace c') (hvalid : c.Valid R) (hidle : c.Idle)
    (hshares : c.shareSet = .new) : Accounted R (history trace) c' := by
  refine hrun.invariant (P := fun past c => Accounted R (history past) c) ?_ ?_
  · intro past s a ha henabled
    rw [history_concat]
    exact ha.next hR hA henabled
  · refine ⟨hvalid, ⟨by rw [hshares]; rfl, fun _ => by rw [hshares]; rfl, fun entry hmem => ?_,
      fun _ => rfl⟩, Stretch.sound_nil _ _ _, by simp [History.new]⟩
    rw [hidle] at hmem
    cases hmem

/-! ## Headers -/

theorem Stretch.Sound.made (hR : R.Strict) {st : Stretch} {extranonce1 : Bytes} {size : ℕ}
    {mask : UInt32} (hs : st.Sound R extranonce1 size mask) {share : AcceptedShare}
    (hmem : share ∈ st.accepted) :
    ∃ (template : JobTemplate) (identity : MinerIdentity),
      (template, share.entry.job) ∈ st.issued ∧ identity.Checked R.A R.network ∧
      BuiltJob template identity.payout R.tag extranonce1.length size share.entry.job ∧
      share.Made R extranonce1 size mask template := by
  obtain ⟨hacc, hform, he1, hsize, hmask, template, hissued⟩ := hs.accepted share hmem
  obtain ⟨identity, hchecked, hbuilt⟩ := hs.issued _ hissued
  exact ⟨template, identity, hissued, hchecked, hbuilt,
    hacc, hR.regular hform, he1, hsize, hmask, _, hbuilt⟩

/-- In a stretch of fewer than 4096 shares whose jobs are of different work, every header was
accepted once. -/
theorem Stretch.Sound.headers_nodup (hR : R.Strict) (hscripts : R.A.StandardScripts) {st : Stretch}
    {extranonce1 : Bytes} {size : ℕ} {mask : UInt32} (hs : st.Sound R extranonce1 size mask)
    (hcount : st.accepted.length < 4096)
    (hwork : st.issued.Pairwise fun p q => ¬ SameWork mask p.1 q.1)
    (hinj : Set.InjOn R.H (AcceptedShare.hashedBy R.H st.accepted)) :
    (st.accepted.map (AcceptedShare.header R.H)).Nodup := by
  have hkeys := hs.keys hcount.le
  rw [List.Nodup, List.pairwise_map] at hkeys ⊢
  refine hkeys.imp_of_mem fun {a b} ha hb hne hheader => hne ?_
  obtain ⟨t, i, hissued, hchecked, hbuilt, hmade⟩ := hs.made hR ha
  obtain ⟨t', i', hissued', hchecked', hbuilt', hmade'⟩ := hs.made hR hb
  have hinj' : Set.InjOn R.H (a.hashed R.H ∪ b.hashed R.H) :=
    hinj.mono (Set.union_subset (AcceptedShare.hashed_subset_hashedBy ha)
      (AcceptedShare.hashed_subset_hashedBy hb))
  obtain ⟨hsame, hkey⟩ := hmade.key_eq_of_header_eq hmade' hinj'
    (Or.inr fun x y =>
      ⟨hmade.hashPair_ne_coinbase hbuilt (hchecked.four_le_length_script hscripts) x y,
      hmade'.hashPair_ne_coinbase hbuilt' (hchecked'.four_le_length_script hscripts) x y⟩) hheader
  -- the same work is the same job
  by_cases hjob : (t, a.entry.job) = (t', b.entry.job)
  · exact hkey (congrArg (fun p => p.2.jobId) hjob)
  · have : Std.Symm fun p q : JobTemplate × StratumJob => ¬ SameWork mask p.1 q.1 :=
      ⟨fun _ _ h h' => h h'.symm⟩
    exact absurd hsame (hwork.forall hissued hissued' hjob)

/-- For a job that is out, and as long as fewer than 4096 shares were accepted since the last clear,
a share has a key that is remembered exactly when its header is that of a share of the job accepted
before. -/
theorem seen_iff_header (hR : R.Strict) (ha : Accounted R h c)
    (hcount : h.current.accepted.length < 4096) (hids : h.jobIds.Nodup) {share : AcceptedShare}
    (hsession : share.session = c) (hacc : Acceptable R share) (hregular : share.Regular)
    (hinj : Set.InjOn R.H
      (AcceptedShare.hashedBy R.H (share :: h.stretches.flatMap fun st => st.accepted))) :
    share.key ∈ c.shareSet.seen ↔ ∃ st ∈ h.stretches, ∃ a ∈ st.accepted,
      a.entry.job = share.entry.job ∧ a.header R.H = share.header R.H := by
  subst hsession
  rw [History.jobIds, List.nodup_flatMap] at hids
  obtain ⟨hnodup, hdisjoint⟩ := hids
  obtain ⟨header, hvalidated, -⟩ := validateShareNoDedup_eq_ok.mp hacc.valid
  obtain ⟨t, hissued⟩ := ha.tracks.live _ hacc.mem hvalidated.live
  obtain ⟨identity, -, hbuilt⟩ := ha.current.issued _ hissued
  have hmade : share.Made R share.session.extranonce1 share.session.extranonce2Size
      share.session.rollMask t := ⟨hacc, hregular, rfl, rfl, rfl, _, hbuilt⟩
  rw [ha.tracks.seen hcount.le, List.mem_toFinset, List.mem_map]
  constructor
  · rintro ⟨a, hmem, hkey⟩
    obtain ⟨t', -, hissued', -, -, hmade'⟩ := ha.current.made hR hmem
    -- the key names the job, and no two jobs have one id
    have hid : a.entry.job.jobId = share.entry.job.jobId := by
      rw [← hmade'.acceptable.jobId, ← hacc.jobId, hkey]
    have hsame : (t', a.entry.job) = (t, share.entry.job) :=
      List.inj_on_of_nodup_map (hnodup _ List.mem_cons_self) hissued' hissued hid
    obtain ⟨rfl, hjob⟩ := Prod.mk.inj hsame
    exact ⟨h.current, List.mem_cons_self, a, hmem, hjob, hmade'.header_eq_of_key_eq hmade hjob hkey⟩
  · rintro ⟨st, hst, a, hmem, hjob, hheader⟩
    rcases List.mem_cons.mp hst with rfl | hearlier
    · refine ⟨a, hmem, ?_⟩
      obtain ⟨t', i', -, -, hbuilt', hmade'⟩ := ha.current.made hR hmem
      have hinj' : Set.InjOn R.H (a.hashed R.H ∪ share.hashed R.H) :=
        hinj.mono (Set.union_subset (AcceptedShare.hashed_subset_hashedBy
          (List.mem_cons_of_mem _ (List.mem_flatMap.mpr ⟨_, hst, hmem⟩)))
          (AcceptedShare.hashed_subset_hashedBy List.mem_cons_self))
      have hbranch : t'.merkleBranchRaw = t.merkleBranchRaw := by
        rw [← hbuilt'.merkleBranchRaw, hjob, hbuilt.merkleBranchRaw]
      exact (hmade'.key_eq_of_header_eq hmade hinj' (Or.inl (by rw [hbranch])) hheader).2
        (by rw [hjob])
    · -- the job is out, so it was not issued before the last clear
      obtain ⟨e1, size, mask, hs⟩ := ha.earlier st hearlier
      obtain ⟨t', -, hissued', -⟩ := hs.made hR hmem
      have hids := (List.pairwise_cons.mp hdisjoint).1 st hearlier
      exact absurd (List.mem_map.mpr ⟨_, hissued', by rw [hjob]⟩)
        (hids (List.mem_map.mpr ⟨_, hissued, rfl⟩))

end BtcPool.Core
