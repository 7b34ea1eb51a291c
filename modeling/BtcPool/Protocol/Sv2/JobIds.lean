import BtcPool.Mining.Recents
import BtcPool.Network.Work

/-!
# The job ids of a Stratum V2 session

A device names a job by a number, the engine by a string. The session keeps two bounded queues for
the way from one to the other: `jobIds` from numbers to strings, trimmed in `assignJobId`, and the
issued jobs, trimmed in `IssuedJobs.issue`. Over any run they stay in step (`Told`): after every job
that went out completely, both hold the last sixteen jobs announced, and the numbers given to jobs
count up from one and skip zero (`jobNumber`), so that the last sixteen are pairwise different. A
number then leads to the job it was announced under while fewer than sixteen came after it, and any
other number leads nowhere (`Resolves`).
-/

namespace BtcPool.Sv2

open Bitcoin Recents

/-! ## Announcements -/

/-- The job an effect sends. -/
def extendedJob : Effect Message → Option NewExtendedMiningJob
  | .send (.newExtendedMiningJob newJob) => some newJob
  | _ => none

/-- The job an effect issues. A renewal issues a clean one. -/
def issueOf : Effect Message → Option Issue
  | .core (.issue _ job clean difficulty) => some ⟨job, clean, difficulty⟩
  | .core (.renew _ job difficulty) => some ⟨job, true, difficulty⟩
  | _ => none

/-- A job as the device was told of it and as it was issued. -/
structure Announcement where
  message : NewExtendedMiningJob
  issue : Issue
deriving DecidableEq

/-- The jobs sent and issued, in order. -/
def announcements (outputs : List (Effect Message)) : List Announcement :=
  List.zipWith Announcement.mk (outputs.filterMap extendedJob) (outputs.filterMap issueOf)

theorem announcements_append {outputs : List (Effect Message)}
    (h : (outputs.filterMap extendedJob).length = (outputs.filterMap issueOf).length)
    (more : List (Effect Message)) :
    announcements (outputs ++ more) = announcements outputs ++ announcements more := by
  rw [announcements, List.filterMap_append, List.filterMap_append, List.zipWith_append h]
  rfl

theorem filterMap_of_workless {effects : List (Effect Message)} (h : Workless isWork effects) :
    effects.filterMap extendedJob = [] ∧ effects.filterMap issueOf = [] := by
  constructor
  · rw [List.filterMap_eq_nil_iff]
    intro e he
    have hwork := h e he
    unfold extendedJob
    split
    · cases hwork
    · rfl
  · rw [List.filterMap_eq_nil_iff]
    intro e he
    have hwork := h e he
    unfold issueOf
    split
    · cases hwork
    · cases hwork
    · rfl

/-! ## Numbers -/

/-- The number of the `k`-th job of a session: from one up, without zero. -/
def jobNumber (k : ℕ) : UInt32 := UInt32.ofNat (k % (2 ^ 32 - 1) + 1)

theorem toNat_jobNumber (k : ℕ) : (jobNumber k).toNat = k % (2 ^ 32 - 1) + 1 := by
  rw [jobNumber, UInt32.toNat_ofNat']
  omega

theorem jobNumber_succ (k : ℕ) :
    (if jobNumber k + 1 = 0 then 1 else jobNumber k + 1) = jobNumber (k + 1) := by
  have hadd : (jobNumber k + 1).toNat = (k % (2 ^ 32 - 1) + 2) % 2 ^ 32 := by
    rw [UInt32.toNat_add, toNat_jobNumber]
    rfl
  rw [← UInt32.toNat_inj, toNat_jobNumber]
  split
  · rename_i hzero
    rw [hzero, UInt32.toNat_zero] at hadd
    rw [UInt32.toNat_one]
    omega
  · rename_i hzero
    rw [← UInt32.toNat_inj, hadd, UInt32.toNat_zero] at hzero
    rw [hadd]
    omega

/-- Two jobs fewer than 2³² - 1 apart have different numbers. -/
theorem jobNumber_injOn {j k : ℕ} (hlt : j < k) (hnear : k < j + (2 ^ 32 - 1)) :
    jobNumber j ≠ jobNumber k := by
  intro heq
  have hnat := congrArg UInt32.toNat heq
  rw [toNat_jobNumber, toNat_jobNumber] at hnat
  omega

theorem nodup_jobNumbers (k : ℕ) : (((List.range k).map jobNumber).rtake 16).Nodup := by
  rw [← map_rtake]
  have hrange : ∀ j ∈ (List.range k).rtake 16, j < k ∧ k ≤ j + 16 := by
    intro j hj
    rw [List.rtake, List.length_range, List.mem_drop_iff_getElem] at hj
    obtain ⟨i, hi, rfl⟩ := hj
    rw [List.length_range] at hi
    rw [List.getElem_range]
    omega
  refine List.Nodup.map_on ?_ (List.nodup_range.sublist (rtake_suffix _ _).sublist)
  intro i hi j hj heq
  have hi := hrange i hi
  have hj := hrange j hj
  rcases lt_trichotomy i j with hlt | rfl | hlt
  · exact absurd heq (jobNumber_injOn hlt (by omega))
  · rfl
  · exact absurd heq.symm (jobNumber_injOn hlt (by omega))

namespace Session

/-! ## What the two queues hold -/

/-- The session holds the last sixteen of the jobs announced, under their numbers. -/
structure Tracks (W : Wire) (sent : List Announcement) (s : Session) : Prop where
  numbered : (sent.map fun a => a.message.jobId) = (List.range sent.length).map jobNumber
  next : s.nextJobId = jobNumber sent.length
  jobIds : s.jobIds = (sent.map fun a => (a.message.jobId, a.issue.job.jobId)).rtake 16
  held : IssuedJobs.Holds (sent.map Announcement.issue) s.issuedJobs
  built : ∀ a ∈ sent, ∃ channelId,
    buildNewExtendedJob W a.issue.job channelId a.message.jobId a.issue.clean = .ok a.message

/-- A number leads to the job announced under it while fewer than sixteen came after it, with the
difficulty it was issued at, and to nothing else. -/
structure Resolves (W : Wire) (sent : List Announcement) (s : Session) : Prop where
  numbers : ((sent.map fun a => a.message.jobId).rtake 16).Nodup
  engineJobId : ∀ sv2JobId, (s.engineJobId sv2JobId).isSome ↔
    sv2JobId ∈ (sent.map fun a => a.message.jobId).rtake 16
  find : ∀ sv2JobId entry, (s.engineJobId sv2JobId).bind s.issuedJobs.find = some entry ↔
    ∃ a after, a :: after <:+ sent ∧ after.length < 16 ∧ a.message.jobId = sv2JobId ∧
      entry = IssuedJobs.entryOf a.issue (after.map Announcement.issue)
  built : ∀ a ∈ sent, ∃ channelId,
    buildNewExtendedJob W a.issue.job channelId a.message.jobId a.issue.clean = .ok a.message

namespace Tracks

variable {W : Wire} {sent : List Announcement} {s : Session}

theorem numbers_nodup (h : Tracks W sent s) :
    ((sent.map fun a => a.message.jobId).rtake 16).Nodup := by
  rw [h.numbered]
  exact nodup_jobNumbers _

theorem engineJobId_eq_some_iff (h : Tracks W sent s) {sv2JobId : UInt32} {jobId : Str} :
    s.engineJobId sv2JobId = some jobId ↔ ∃ a after, a :: after <:+ sent ∧ after.length < 16 ∧
      a.message.jobId = sv2JobId ∧ a.issue.job.jobId = jobId := by
  have hkeys : (s.jobIds.map Prod.fst).Nodup := by
    rw [h.jobIds, map_rtake, List.map_map]
    exact h.numbers_nodup
  have hmem : ∀ pair : UInt32 × Str, pair ∈ s.jobIds ↔ ∃ a after, a :: after <:+ sent ∧
      after.length < 16 ∧ (a.message.jobId, a.issue.job.jobId) = pair := by
    intro pair
    rw [h.jobIds, ← map_rtake, List.mem_map]
    simp only [mem_rtake_iff]
    constructor
    · rintro ⟨a, ⟨after, hsuffix, hafter⟩, heq⟩
      exact ⟨a, after, hsuffix, hafter, heq⟩
    · rintro ⟨a, after, hsuffix, hafter, heq⟩
      exact ⟨a, ⟨after, hsuffix, hafter⟩, heq⟩
  rw [engineJobId, Option.map_eq_some_iff]
  constructor
  · rintro ⟨pair, hfind, rfl⟩
    obtain ⟨hpair, rfl⟩ := (Rows.find?_eq_some_iff_of_nodup hkeys).mp hfind
    obtain ⟨a, after, hsuffix, hafter, rfl⟩ := (hmem pair).mp hpair
    exact ⟨a, after, hsuffix, hafter, rfl, rfl⟩
  · rintro ⟨a, after, hsuffix, hafter, rfl, rfl⟩
    refine ⟨(a.message.jobId, a.issue.job.jobId), ?_, rfl⟩
    exact (Rows.find?_eq_some_iff_of_nodup hkeys).mpr
      ⟨(hmem _).mpr ⟨a, after, hsuffix, hafter, rfl⟩, rfl⟩

theorem find_of_suffix (h : Tracks W sent s)
    (hids : (sent.map fun a => a.issue.job.jobId).Nodup) {a : Announcement}
    {after : List Announcement} (hsuffix : a :: after <:+ sent) (hafter : after.length < 16) :
    s.issuedJobs.find a.issue.job.jobId =
      some (IssuedJobs.entryOf a.issue (after.map Announcement.issue)) := by
  rw [h.held.find_eq_some_iff (by rwa [List.map_map])]
  exact ⟨a.issue, after.map Announcement.issue, hsuffix.map _, by rwa [List.length_map], rfl, rfl⟩

theorem resolves (h : Tracks W sent s) (hids : (sent.map fun a => a.issue.job.jobId).Nodup) :
    Resolves W sent s where
  numbers := h.numbers_nodup
  built := h.built
  engineJobId sv2JobId := by
    rw [Option.isSome_iff_exists, ← map_rtake, List.mem_map]
    simp only [h.engineJobId_eq_some_iff, mem_rtake_iff]
    constructor
    · rintro ⟨-, a, after, hsuffix, hafter, hid, -⟩
      exact ⟨a, ⟨after, hsuffix, hafter⟩, hid⟩
    · rintro ⟨a, ⟨after, hsuffix, hafter⟩, hid⟩
      exact ⟨_, a, after, hsuffix, hafter, hid, rfl⟩
  find sv2JobId entry := by
    rw [Option.bind_eq_some_iff]
    constructor
    · rintro ⟨jobId, hengine, hfind⟩
      obtain ⟨a, after, hsuffix, hafter, hid, rfl⟩ := h.engineJobId_eq_some_iff.mp hengine
      rw [h.find_of_suffix hids hsuffix hafter, Option.some_inj] at hfind
      exact ⟨a, after, hsuffix, hafter, hid, hfind.symm⟩
    · rintro ⟨a, after, hsuffix, hafter, hid, rfl⟩
      exact ⟨a.issue.job.jobId, h.engineJobId_eq_some_iff.mpr ⟨a, after, hsuffix, hafter, hid, rfl⟩,
        h.find_of_suffix hids hsuffix hafter⟩

theorem new (W : Wire) (cfg : Config) (network : Network) (sessionId : Str)
    (extranoncePrefix : Bytes) (template : Option JobTemplate) (now : Instant) :
    Tracks W [] (Session.new cfg network sessionId extranoncePrefix template now) :=
  ⟨rfl, rfl, rfl, IssuedJobs.holds_new, List.forall_mem_nil _⟩

/-- One more job, under the next number. -/
theorem announce (h : Tracks W sent s) {job : StratumJob} {newJob : NewExtendedMiningJob}
    {clean : Bool}
    (hnew : buildNewExtendedJob W job s.channelId s.nextJobId clean = .ok newJob) :
    Tracks W (sent ++ [⟨newJob, job, clean, s.difficulty⟩])
      { (s.assignJobId job.jobId).2 with
        issuedJobs := s.issuedJobs.issue job clean s.difficulty } := by
  have hid : newJob.jobId = s.nextJobId := by
    simp only [buildNewExtendedJob, bind_eq_ok, ensure_eq_ok, pure_eq_ok] at hnew
    obtain ⟨-, -, -, -, -, -, rfl⟩ := hnew
    rfl
  constructor
  · rw [List.map_append, h.numbered, List.length_append, List.length_singleton, List.range_succ,
      List.map_append, List.map_singleton, List.map_singleton, hid, h.next]
  · change (if s.nextJobId + 1 = 0 then 1 else s.nextJobId + 1) = _
    rw [h.next, jobNumber_succ, List.length_append, List.length_singleton]
  · change (s.jobIds ++ [(s.nextJobId, job.jobId)]).rtake 16 = _
    rw [h.jobIds, trim_concat, List.map_append, List.map_singleton, hid]
  · rw [List.map_append, List.map_singleton]
    exact h.held.issue ⟨job, clean, s.difficulty⟩
  · intro a ha
    rcases List.mem_append.mp ha with ha | ha
    · exact h.built a ha
    · obtain rfl := List.mem_singleton.mp ha
      exact ⟨s.channelId, by rw [hid]; exact hnew⟩

end Tracks

/-! ## Turns -/

/-- What the device was told and what was issued come in pairs, and the session holds the last of
them. -/
structure Told (W : Wire) (outputs : List (Effect Message)) (s : Session) : Prop where
  paired : (outputs.filterMap extendedJob).length = (outputs.filterMap issueOf).length
  tracks : Tracks W (announcements outputs) s

/-- The queues of jobs are as they were. -/
structure SameJobs (s s' : Session) : Prop where
  nextJobId : s'.nextJobId = s.nextJobId
  jobIds : s'.jobIds = s.jobIds
  issuedJobs : s'.issuedJobs = s.issuedJobs

variable {W : Wire} {H : Bytes → ByteVec 32} {A : AddressLib} {env : Surroundings} {s s' : Session}
  {past effects : List (Effect Message)}

/-- A job that went out completely has the next number, and is issued under it. -/
theorem sendJob_of_sent {template : JobTemplate} {future cleared : Bool}
    (hclean : cleared → future)
    (h : (sendJob W env s template future cleared effects).1 = true) :
    ∃ job newJob more,
      buildNewExtendedJob W job s.channelId s.nextJobId future = .ok newJob ∧
      (sendJob W env s template future cleared effects).2.1 =
        { (s.assignJobId job.jobId).2 with
          issuedJobs := s.issuedJobs.issue job future s.difficulty } ∧
      (sendJob W env s template future cleared effects).2.2 = effects ++ more ∧
      more.filterMap extendedJob = [newJob] ∧
      more.filterMap issueOf = [⟨job, future, s.difficulty⟩] := by
  have haction : ∀ job, issueOf (.core (if cleared then .renew template job s.difficulty
      else .issue template job future s.difficulty)) = some ⟨job, future, s.difficulty⟩ := by
    intro job
    cases cleared with
    | false => rfl
    | true =>
      rw [hclean rfl]
      rfl
  revert h
  unfold sendJob
  split
  · exact fun h => by cases h
  · split
    · exact fun h => by cases h
    · rename_i job _
      dsimp only
      split
      · exact fun h => by cases h
      · rename_i newJob hnew
        split
        · exact fun h => by cases h
        · split
          · refine fun _ => ⟨job, newJob, _, hnew, rfl, List.append_assoc _ _ _, rfl, ?_⟩
            exact List.filterMap_cons_some (haction job)
          · split
            · exact fun h => by cases h
            · split
              · exact fun h => by cases h
              · refine fun _ => ⟨job, newJob, _, hnew, rfl, List.append_assoc _ _ _, rfl, ?_⟩
                exact List.filterMap_cons_some (haction job)

namespace Told

theorem of_sameJobs (h : Told W past s) (hsame : SameJobs s s') : Told W past s' where
  paired := h.paired
  tracks := {
    numbered := h.tracks.numbered
    next := by rw [hsame.nextJobId, h.tracks.next]
    jobIds := by rw [hsame.jobIds, h.tracks.jobIds]
    held := by rw [hsame.issuedJobs]; exact h.tracks.held
    built := h.tracks.built }

theorem of_workless (h : Told W past s) (hmore : Workless isWork effects) :
    Told W (past ++ effects) s := by
  obtain ⟨hjobs, hissues⟩ := filterMap_of_workless hmore
  constructor
  · rw [List.filterMap_append, hjobs, List.append_nil, List.filterMap_append, hissues,
      List.append_nil]
    exact h.paired
  · rw [announcements_append h.paired, announcements.eq_1 effects, hjobs, List.zipWith_nil_left,
      List.append_nil]
    exact h.tracks

/-- A handler that did no work and left the jobs alone. -/
theorem of_rests (h : Told W past s) {handled : Handled} (hrests : Rests s handled)
    (hsame : SameJobs s handled.session) : Told W (past ++ handled.effects) handled.session :=
  (h.of_sameJobs hsame).of_workless hrests.effects

theorem sendJob (h : Told W (past ++ effects) s) {template : JobTemplate} {future cleared : Bool}
    (hclean : cleared → future)
    (hsent : (Session.sendJob W env s template future cleared effects).1 = true) :
    Told W (past ++ (Session.sendJob W env s template future cleared effects).2.2)
      (Session.sendJob W env s template future cleared effects).2.1 := by
  obtain ⟨job, newJob, more, hnew, hstate, heffects, hjobs, hissues⟩ := sendJob_of_sent hclean hsent
  rw [hstate, heffects, ← List.append_assoc]
  constructor
  · rw [List.filterMap_append, List.length_append, h.paired, hjobs,
      List.filterMap_append (l := past ++ effects), List.length_append, hissues]
    rfl
  · rw [announcements_append h.paired, announcements.eq_1 more, hjobs, hissues]
    exact h.tracks.announce hnew

theorem say (h : Told W (past ++ effects) s) (message : Message)
    (hmessage : isWork (.send message) = false) (name : String) :
    Told W (past ++ (Session.say W env s effects message name).effects)
      (Session.say W env s effects message name).session := by
  unfold Session.say
  split
  · rw [← List.append_assoc]
    exact h.of_workless (List.forall_mem_singleton.mpr hmessage)
  · exact h
  · exact h

theorem announceChannel (h : Told W (past ++ effects) s) (o : OpenExtended)
    (hflow : (Session.announceChannel W env s o effects).flow = .continue) :
    Told W (past ++ (Session.announceChannel W env s o effects).effects)
      (Session.announceChannel W env s o effects).session := by
  revert hflow
  unfold Session.announceChannel
  split
  · exact fun hflow => by cases hflow
  · have hsaid : Told W (past ++ (Session.say W env s effects (s.openExtendedSuccess o)
        "OpenExtendedMiningChannelSuccess").effects) s := by
      have hsay : Told W _ (Session.say W env s effects _ _).session :=
        h.say (s.openExtendedSuccess o) rfl "OpenExtendedMiningChannelSuccess"
      rwa [(say_eq ..).1] at hsay
    dsimp only
    split
    · rename_i reason hreason
      intro hflow
      rw [hreason] at hflow
      cases hflow
    · have hopened : Told W (past ++ (Session.say W env s effects (s.openExtendedSuccess o)
          "OpenExtendedMiningChannelSuccess").effects) { s with channelOpen := true } :=
        hsaid.of_sameJobs ⟨rfl, rfl, rfl⟩
      split
      · exact fun _ => hopened
      · rename_i template _
        intro hflow
        refine hopened.sendJob (by simp) ?_
        by_contra hfailed
        dsimp only at hflow
        rw [if_neg hfailed] at hflow
        cases hflow

theorem grantChannel (h : Told W (past ++ effects) s) (o : OpenExtended) (identity : MinerIdentity)
    (isNew : Bool)
    (hflow : (Session.grantChannel W env s o identity isNew effects).flow = .continue) :
    Told W (past ++ (Session.grantChannel W env s o identity isNew effects).effects)
      (Session.grantChannel W env s o identity isNew effects).session := by
  revert hflow
  unfold Session.grantChannel
  dsimp only
  split
  · rw [← List.append_assoc]
    exact fun _ => h.of_workless (workless_trySend rfl)
  · refine Told.announceChannel ?_ o
    rw [← List.append_assoc, ← List.append_assoc]
    refine of_workless (of_workless (h.of_sameJobs ⟨rfl, rfl, rfl⟩) ?_) ?_
    · simp [Workless, isWork]
    · split <;> simp [Workless, isWork]

theorem handleOpenExtended (h : Told W past s) (decoded : Except String OpenExtended)
    (hflow : (Session.handleOpenExtended W A env s decoded).flow = .continue) :
    Told W (past ++ (Session.handleOpenExtended W A env s decoded).effects)
      (Session.handleOpenExtended W A env s decoded).session := by
  have h' : Told W (past ++ []) s := by rwa [List.append_nil]
  revert hflow
  unfold Session.handleOpenExtended
  split
  · exact fun hflow => by cases hflow
  · split
    · exact fun hflow => by cases hflow
    · split
      · exact fun _ => h'.say _ rfl _
      · split
        · exact fun _ => h'.say _ rfl _
        · split
          · exact fun _ => h'.say _ rfl _
          · split
            · exact h'.grantChannel _ _ _
            · dsimp only
              split
              · exact fun hflow => by cases hflow
              · have hoffline := workless_worker isWork .workerOffline (fun _ => rfl) s.statsWorker
                have hdropped : Told W past { s with
                    guard := s.guard.recordNewAuthorization.2, worker := none, identity := none } :=
                  h.of_sameJobs ⟨rfl, rfl, rfl⟩
                exact (hdropped.of_workless
                  (hoffline.append (by simp [Workless, isWork]))).grantChannel _ _ _

end Told

theorem sameJobs_handleSetupConnection (decoded : Except String SetupConn) :
    SameJobs s (handleSetupConnection W env s decoded).session := by
  unfold handleSetupConnection
  cases decoded with
  | error e => exact ⟨rfl, rfl, rfl⟩
  | ok setup =>
    dsimp only
    split
    · exact ⟨rfl, rfl, rfl⟩
    · split
      · exact ⟨rfl, rfl, rfl⟩
      · split
        · exact ⟨rfl, rfl, rfl⟩
        · rw [(say_eq ..).1]
          exact ⟨rfl, rfl, rfl⟩

theorem sameJobs_handleSubmit (decoded : Except String SubmitExtended) :
    SameJobs s (handleSubmit W H env s decoded).session := by
  rcases handleSubmit_cases W H env s decoded with ⟨reason, hs⟩ | ⟨seq, reason, code, hs⟩ |
    ⟨submit, entry, result, rfl, h, hnew⟩
  · rw [hs]
    exact ⟨rfl, rfl, rfl⟩
  · rw [hs]
    unfold refuse
    dsimp only
    split
    · exact ⟨rfl, rfl, rfl⟩
    · rw [(say_eq ..).1]
      exact ⟨rfl, rfl, rfl⟩
  · rw [handleSubmit_of_new h hnew]
    unfold acceptShare
    dsimp only
    rw [(say_eq ..).1]
    exact ⟨rfl, rfl, rfl⟩

/-- A template is answered on a session with the same jobs, less the shares if it is clean. -/
theorem handleBroadcast_eq (W : Wire) (env : Surroundings) (s : Session) (template : JobTemplate)
    (clean : Bool) : ∃ kept, SameJobs s kept ∧ handleBroadcast W env s template clean =
      if kept.channelOpen then
        if (sendJob W env kept template clean clean []).1 then
          applyRetarget W env
            { (sendJob W env kept template clean clean []).2.1 with
              pendingTemplate := some template }
            (sendJob W env kept template clean clean []).2.2
        else (sendJob W env kept template clean clean []).2.1.finish
          (sendJob W env kept template clean clean []).2.2
      else applyRetarget W env { kept with pendingTemplate := some template }
        (if clean then [.core .clearShares] else []) := by
  cases clean with
  | false => exact ⟨s, ⟨rfl, rfl, rfl⟩, rfl⟩
  | true => exact ⟨{ s with shareSet := s.shareSet.clear }, ⟨rfl, rfl, rfl⟩, rfl⟩

theorem sameJobs_applyRetarget :
    SameJobs s (applyRetarget W env s effects).state := by
  unfold applyRetarget
  split
  · exact ⟨rfl, rfl, rfl⟩
  · dsimp only
    split
    · exact ⟨rfl, rfl, rfl⟩
    · split <;> exact ⟨rfl, rfl, rfl⟩

namespace Told

theorem handleMessage (h : Told W past s) (frame : Frame)
    (hflow : (Session.handleMessage W H A env s frame).flow = .continue) :
    Told W (past ++ (Session.handleMessage W H A env s frame).effects)
      (Session.handleMessage W H A env s frame).session := by
  revert hflow
  unfold Session.handleMessage
  split
  · exact fun hflow => by cases hflow
  · cases frame with
    | setupConnection decoded =>
      exact fun _ => h.of_rests (rests_handleSetupConnection decoded)
        (sameJobs_handleSetupConnection decoded)
    | openExtended decoded => exact h.handleOpenExtended decoded
    | submitExtended decoded =>
      exact fun _ => h.of_rests (rests_handleSubmit decoded) (sameJobs_handleSubmit decoded)
    | other msgType => exact fun _ => h.of_workless workless_nil

theorem applyRetarget (h : Told W (past ++ effects) s) :
    Told W (past ++ (Session.applyRetarget W env s effects).outputs)
      (Session.applyRetarget W env s effects).state := by
  obtain ⟨after, hout, hafter, -⟩ := applyRetarget_adds W env s effects
  rw [hout, ← List.append_assoc]
  exact (h.of_sameJobs sameJobs_applyRetarget).of_workless hafter

theorem handleBroadcast (h : Told W past s) (template : JobTemplate) (clean : Bool)
    (hlive : (Session.handleBroadcast W env s template clean).live) :
    Told W (past ++ (Session.handleBroadcast W env s template clean).outputs)
      (Session.handleBroadcast W env s template clean).state := by
  obtain ⟨kept, hkept, heq⟩ := handleBroadcast_eq W env s template clean
  have h' : Told W (past ++ []) kept := by
    rw [List.append_nil]
    exact h.of_sameJobs hkept
  rw [heq] at hlive ⊢
  revert hlive
  split
  · split
    · rename_i hok
      have hsent : Told W (past ++ (Session.sendJob W env kept template clean clean []).2.2)
          { (Session.sendJob W env kept template clean clean []).2.1 with
            pendingTemplate := some template } :=
        (h'.sendJob (fun hclean => hclean) hok).of_sameJobs ⟨rfl, rfl, rfl⟩
      exact fun _ => hsent.applyRetarget
    · exact fun hlive => by cases hlive
  · rw [List.append_nil] at h'
    have hwaits : Told W past { kept with pendingTemplate := some template } :=
      h'.of_sameJobs ⟨rfl, rfl, rfl⟩
    refine fun _ => (hwaits.of_workless ?_).applyRetarget
    split <;> simp [Workless, isWork]

theorem step (h : Told W past s) {input : Input} (hlive : (Session.step W H A s input).live) :
    Told W (past ++ (Session.step W H A s input).outputs) (Session.step W H A s input).state := by
  obtain ⟨event, env⟩ := input
  have h' : Told W (past ++ []) s := by rwa [List.append_nil]
  cases event with
  | frame payloadLen frame =>
    revert hlive
    unfold Session.step
    dsimp only
    split
    · exact fun hlive => by cases hlive
    · split
      · rename_i hflow
        exact fun _ => (h.handleMessage frame hflow).applyRetarget
      · exact fun hlive => by cases hlive
  | broadcast template clean => exact h.handleBroadcast template clean hlive
  | lagged missed => exact h'.applyRetarget
  | closed => cases hlive

theorem run (W : Wire) (H : Bytes → ByteVec 32) (A : AddressLib) (cfg : Config) (network : Network)
    (sessionId : Str) (extranoncePrefix : Bytes) (template : Option JobTemplate) (now : Instant)
    (inputs : List Input)
    (hlive : ((process W H A).run (new cfg network sessionId extranoncePrefix template now)
      inputs).live) :
    Told W ((process W H A).run (new cfg network sessionId extranoncePrefix template now)
        inputs).outputs
      ((process W H A).run (new cfg network sessionId extranoncePrefix template now)
        inputs).state := by
  refine (Process.run_invariant (C := fun _ _ => True) (P := Told W) (Q := fun _ => True)
    (fun _ => trivial) (fun h _ => ⟨fun hl => h.step hl, trivial⟩)
    ⟨rfl, .new W cfg network sessionId extranoncePrefix template now⟩
    (Process.meets_of_forall (fun _ _ _ => trivial) _)).2 hlive

end Told

/-- **Job ids lead to the jobs announced under them.** After any calls with different job ids, the
history holds the last sixteen jobs issued since it was cleared, in order, and finds each under its
id with the difficulty it was issued at, as superseded if a later one was clean. In a session,
whatever came before, the same holds through the numbers of the protocol: of every session that goes
on, and of one that just sent a job completely, be it the answer to an open or to a template. The
names the engine gave to the jobs announced are different, as they come from one counter. -/
theorem jobs_resolve_by_id (calls : List JobCall)
    (hcalls : ((IssuedJobs.issuedIn calls).map fun i => i.job.jobId).Nodup)
    (W : Wire) (H : Bytes → ByteVec 32) (A : AddressLib) (cfg : Config) (network : Network)
    (sessionId : Str) (extranoncePrefix : Bytes) (pending : Option JobTemplate) (now : Instant)
    (inputs : List Input) (outputs : List (Effect Message)) (reached : Session)
    (hrun : (process W H A).run (new cfg network sessionId extranoncePrefix pending now) inputs =
      ⟨reached, outputs, true⟩)
    (env : Surroundings) (sender : Session) (template : JobTemplate) (future cleared : Bool)
    (effects : List (Effect Message)) (hsender : SameJobs reached sender)
    (hclean : cleared → future) (heffects : Workless isWork effects)
    (hsent : (sendJob W env sender template future cleared effects).1 = true)
    (hids : ((announcements (outputs ++
      (sendJob W env sender template future cleared effects).2.2)).map
        fun a => a.issue.job.jobId).Nodup) :
    ((((IssuedJobs.new.run calls).entries.map JobEntry.job) =
        ((IssuedJobs.issuedSince [] calls).map Issue.job).rtake 16 ∧
      (IssuedJobs.new.run calls).entries.length =
        min 16 (IssuedJobs.issuedSince [] calls).length ∧
      ∀ jobId entry, (IssuedJobs.new.run calls).find jobId = some entry ↔
        ∃ i after, i :: after <:+ IssuedJobs.issuedSince [] calls ∧ after.length < 16 ∧
          i.job.jobId = jobId ∧
          entry = ⟨i.job, decide (∃ later ∈ after, later.clean), i.difficulty⟩)) ∧
    Resolves W (announcements outputs) reached ∧
    Resolves W (announcements (outputs ++
        (sendJob W env sender template future cleared effects).2.2))
      (sendJob W env sender template future cleared effects).2.1 := by
  have hheld := IssuedJobs.holds_new.run calls
  have hreached : Told W outputs reached := by
    have hrunning := Told.run W H A cfg network sessionId extranoncePrefix pending now inputs
    rw [hrun] at hrunning
    exact hrunning rfl
  have hafter : Told W (outputs ++ (sendJob W env sender template future cleared effects).2.2)
      (sendJob W env sender template future cleared effects).2.1 :=
    ((hreached.of_sameJobs hsender).of_workless heffects).sendJob hclean hsent
  refine ⟨⟨?_, ?_, fun jobId entry => ?_⟩, hreached.tracks.resolves ?_, hafter.tracks.resolves hids⟩
  · rw [hheld, IssuedJobs.map_job_entriesOf, map_rtake]
    rfl
  · rw [hheld, IssuedJobs.length_entriesOf, length_rtake]
    rfl
  · have hentry : ∀ (i : Issue) (after : List Issue), IssuedJobs.entryOf i after =
        ⟨i.job, decide (∃ later ∈ after, later.clean), i.difficulty⟩ := by
      intro i after
      simp [IssuedJobs.entryOf, List.any_eq]
    have hsince := IssuedJobs.issuedSince_suffix [] calls
    rw [hheld.find_eq_some_iff (hcalls.sublist (hsince.sublist.map _))]
    simp only [hentry]
    rfl
  · rw [announcements_append hreached.paired, List.map_append] at hids
    exact hids.of_append_left

end Session

/-- A regtest session with an open channel, and a clean job after the first. -/
def regtestOpened : Outcome Session (Effect Message) :=
  (Session.process .exact zeroHash regtestAddresses).run regtestSession regtestInputs

/-- The open session gets its job anew. -/
def regtestRenewal : Bool × Session × List (Effect Message) :=
  Session.sendJob .exact
    { toEnv := .regtest "2".toList, extranonceCounter := 2, nextChannelId := 2 } regtestOpened.state
    regtestTemplate true true []

theorem jobs_resolve_by_id_regtest :
    (announcements (regtestOpened.outputs ++ regtestRenewal.2.2)).length = 2 ∧
    Session.Resolves .exact (announcements (regtestOpened.outputs ++ regtestRenewal.2.2))
      regtestRenewal.2.1 := by
  have hrun : regtestOpened = ⟨regtestOpened.state, regtestOpened.outputs, true⟩ :=
    Outcome.eq_of_live (by decide +kernel)
  refine ⟨by decide +kernel, ?_⟩
  unfold regtestRenewal
  exact (Session.jobs_resolve_by_id [.issue ⟨regtestJob, true, 1⟩, .clear] (by decide +kernel)
    .exact zeroHash regtestAddresses regtestConfig .regtest "s".toList [1, 2, 3, 4]
    (some regtestTemplate) 0 regtestInputs _ _ hrun _ regtestOpened.state regtestTemplate true true
    [] ⟨rfl, rfl, rfl⟩ (fun h => h) workless_nil (by decide +kernel) (by decide +kernel)).2.2

end BtcPool.Sv2
