import BtcPool.Protocol.Sv2.Session

/-!
# The Stratum V2 session refines the session core

As for Stratum V1, each handler has one lemma that says what it did to the core, and
`Session.refinement` puts them together for the loop. Before its channel is open a session has no
jobs and no shares, so taking another identity drops nothing; afterwards the identity and the
extranonce stay.

`step_effects` says where an accepted share or a submitted block comes from: a submit of the granted
extranonce size, to a job of the history, under a key that is new.
-/

namespace BtcPool.Sv2.Session

open Bitcoin BtcPool.Core

variable {W : Wire} {R : Core.Rules} {s : Session} {env : Surroundings}

/-- What stays true of a session besides the invariant of its core. -/
structure Inv (R : Core.Rules) (s : Session) : Prop where
  network : s.network = R.network
  tag : s.coinbaseTag = R.tag
  template : ∀ template, s.pendingTemplate = some template → R.offered template
  closed : s.channelOpen = false → s.issuedJobs = .new ∧ s.shareSet = .new

theorem inv_new {cfg : Config} (htag : cfg.pool.coinbaseTag = R.tag)
    {template : Option JobTemplate} (htemplate : ∀ t, template = some t → R.offered t)
    (sessionId : Str) (extranoncePrefix : Bytes) (now : Instant) :
    (new cfg R.network sessionId extranoncePrefix template now).Inv R :=
  ⟨rfl, htag, htemplate, fun _ => ⟨rfl, rfl⟩⟩

/-! ## Messages and jobs -/

theorem actions_trySend (message : Message) : Effect.actions (trySend W env message) = [] := by
  unfold trySend
  split <;> rfl

/-- Saying something changes nothing but the list of messages written. -/
theorem say_eq (W : Wire) (env : Surroundings) (s : Session) (effects : List (Effect Message))
    (message : Message) (name : String) :
    (say W env s effects message name).session = s ∧
      Effect.actions (say W env s effects message name).effects = Effect.actions effects := by
  unfold say
  split <;> simp

theorem say_does {c : Core} {effects : List (Effect Message)} (h : Does core Inv R c effects s)
    (message : Message) (name : String) :
    Does core Inv R c (say W env s effects message name).effects
      (say W env s effects message name).session := by
  obtain ⟨hs, ha⟩ := say_eq W env s effects message name
  refine ⟨?_, by rw [hs]; exact h.inv⟩
  rw [hs, ha]
  exact h.run

/-- What sending a job can come to: nothing is sent; the job is sent, but not the previous hash it
waits for; or all is sent, and the job is issued. The numbers given to jobs move on in any case. -/
inductive JobSent (W : Wire) (env : Surroundings) (s : Session) (template : JobTemplate)
    (future cleared : Bool) (effects : List (Effect Message)) :
    Bool → Session → List (Effect Message) → Prop
  | unsent {jobIds : List (UInt32 × Str)} {nextJobId : UInt32} :
    JobSent W env s template future cleared effects false { s with jobIds, nextJobId } effects
  | cut {jobIds : List (UInt32 × Str)} {nextJobId : UInt32} {identity : MinerIdentity}
      {job : StratumJob} {sv2JobId : UInt32} {newJob : NewExtendedMiningJob}
      (hjob : buildJobForPayout env.jobId template identity.payout s.coinbaseTag
        s.extranoncePrefix.length s.extranonceSize = .ok job)
      (hnew : buildNewExtendedJob W job s.channelId sv2JobId future = .ok newJob) :
    JobSent W env s template future cleared effects false { s with jobIds, nextJobId }
      (effects ++ [.send (.newExtendedMiningJob newJob)])
  | sent {jobIds : List (UInt32 × Str)} {nextJobId : UInt32} {identity : MinerIdentity}
      {job : StratumJob} {sv2JobId : UInt32} {newJob : NewExtendedMiningJob}
      (prev : List SetNewPrevHash) (hidentity : s.identity = some identity)
      (hjob : buildJobForPayout env.jobId template identity.payout s.coinbaseTag
        s.extranoncePrefix.length s.extranonceSize = .ok job)
      (hnew : buildNewExtendedJob W job s.channelId sv2JobId future = .ok newJob) :
    JobSent W env s template future cleared effects true
      { s with jobIds, nextJobId, issuedJobs := s.issuedJobs.issue job future s.difficulty }
      (effects ++ [.send (.newExtendedMiningJob newJob)] ++
        (prev.map (fun setPrev => .send (.setNewPrevHash setPrev)) ++
          [.core (if cleared then .renew template job s.difficulty
            else .issue template job future s.difficulty)]))

theorem jobSent_sendJob {template : JobTemplate} {future cleared ok : Bool} {s' : Session}
    {effects effects' : List (Effect Message)}
    (h : sendJob W env s template future cleared effects = (ok, s', effects')) :
    JobSent W env s template future cleared effects ok s' effects' := by
  unfold sendJob at h
  split at h
  · cases h
    exact .unsent
  · rename_i identity hidentity
    split at h
    · cases h
      exact .unsent
    · rename_i job hjob
      dsimp only at h
      split at h
      · cases h
        exact .unsent
      · rename_i newJob hnew
        split at h
        · cases h
          exact .unsent
        · split at h
          · cases h
            exact .sent [] hidentity hjob hnew
          · split at h
            · cases h
              exact .cut hjob hnew
            · rename_i setPrev _
              split at h
              · cases h
                exact .cut hjob hnew
              · cases h
                exact .sent [setPrev] hidentity hjob hnew

/-- A job that was sent is issued; one that was not leaves the core as it is. -/
theorem sendJob_cases {template : JobTemplate} {future cleared ok : Bool} {s' : Session}
    {effects effects' : List (Effect Message)}
    (h : sendJob W env s template future cleared effects = (ok, s', effects')) :
    ∃ jobIds nextJobId,
      (ok = false ∧ s' = { s with jobIds, nextJobId } ∧
        Effect.actions effects' = Effect.actions effects) ∨
      ∃ identity job, ok = true ∧ s.identity = some identity ∧
        buildJobForPayout env.jobId template identity.payout s.coinbaseTag
          s.extranoncePrefix.length s.extranonceSize = .ok job ∧
        s' = { s with
          jobIds, nextJobId, issuedJobs := s.issuedJobs.issue job future s.difficulty } ∧
        Effect.actions effects' = Effect.actions effects ++
          [if cleared then .renew template job s.difficulty
            else .issue template job future s.difficulty] := by
  cases jobSent_sendJob h with
  | unsent => exact ⟨_, _, Or.inl ⟨rfl, rfl, rfl⟩⟩
  | cut => exact ⟨_, _, Or.inl ⟨rfl, rfl, by simp⟩⟩
  | sent prev hidentity hjob hnew =>
    have hprev : Effect.actions
        (prev.map fun setPrev => .send (Message.setNewPrevHash setPrev)) = [] := by
      simp [Effect.actions, Effect.action]
    refine ⟨_, _, Or.inr ⟨_, _, rfl, hidentity, hjob, rfl, ?_⟩⟩
    rw [Effect.actions_append, Effect.actions_append, Effect.actions_append, hprev]
    simp

theorem materialized (hinv : s.Inv R) {jobId : Str} {template : JobTemplate} {job : StratumJob}
    {identity : MinerIdentity} (hoffered : R.offered template)
    (hidentity : s.identity = some identity)
    (h : buildJobForPayout jobId template identity.payout s.coinbaseTag s.extranoncePrefix.length
      s.extranonceSize = .ok job) : s.core.Materialized R template job := by
  have hbuilt := (buildJobForPayout_spec h).2
  rw [hinv.tag] at hbuilt
  exact ⟨identity, hidentity, hoffered, hbuilt⟩

/-! ## Opening a channel -/

/-- The first job of a channel. -/
theorem sendJob_does {c : Core} {effects : List (Effect Message)} (h : Does core Inv R c effects s)
    (hopen : s.channelOpen = true) {template : JobTemplate} (hoffered : R.offered template) :
    Does core Inv R c (sendJob W env s template true false effects).2.2
      (sendJob W env s template true false effects).2.1 := by
  rcases hsend : sendJob W env s template true false effects with ⟨ok, s', effects'⟩
  obtain ⟨jobIds, nextJobId, ⟨-, rfl, ha⟩ | ⟨identity, job, -, hidentity, hjob, rfl, ha⟩⟩ :=
    sendJob_cases hsend
  · refine ⟨?_, h.inv.network, h.inv.tag, h.inv.template, h.inv.closed⟩
    rw [ha]
    exact h.run
  · refine ⟨?_, h.inv.network, h.inv.tag, h.inv.template, fun hc => ?_⟩
    · have hissue : Enabled R s.core (.issue template job true s.difficulty) :=
        materialized h.inv hoffered hidentity hjob
      rw [ha]
      exact h.run.append (.single hissue)
    · rw [hopen] at hc
      cases hc

theorem announceChannel_does {c : Core} {effects : List (Effect Message)}
    (h : Does core Inv R c effects s) (o : OpenExtended) :
    Does core Inv R c (announceChannel W env s o effects).effects
      (announceChannel W env s o effects).session := by
  unfold announceChannel
  dsimp only
  split
  · exact h
  · split
    · exact say_does h _ _
    · have hopened : Does core Inv R c (say W env s effects (s.openExtendedSuccess o)
          "OpenExtendedMiningChannelSuccess").effects { s with channelOpen := true } := by
        refine ⟨?_, h.inv.network, h.inv.tag, h.inv.template, by simp⟩
        rw [(say_eq ..).2]
        exact h.run
      split
      · exact hopened
      · rename_i template htemplate
        exact sendJob_does hopened rfl (h.inv.template template htemplate)

theorem grantChannel_does {c : Core} {effects : List (Effect Message)}
    (h : Does core Inv R c effects s) (hclosed : s.channelOpen = false) (o : OpenExtended)
    {identity : MinerIdentity} (hchecked : identity.Checked R.A R.network)
    (hheld : s.identity = none ∨
      ∃ held, s.identity = some held ∧ held.canonicalName = identity.canonicalName)
    (isNew : Bool) :
    Does core Inv R c (grantChannel W env s o identity isNew effects).effects
      (grantChannel W env s o identity isNew effects).session := by
  have hidle : s.core.Idle := by
    rw [Idle]
    exact congrArg IssuedJobs.entries (h.inv.closed hclosed).1
  unfold grantChannel
  dsimp only
  split
  · refine ⟨?_, h.inv⟩
    rw [Effect.actions_append, actions_trySend, List.append_nil]
    exact h.run
  · refine announceChannel_does ?_ o
    refine ⟨?_, h.inv.network, h.inv.tag, h.inv.template, h.inv.closed⟩
    have honline : Effect.actions (if isNew then
        [(.stats (.workerOnline identity.canonicalName s.difficulty) : Effect Message),
          .stats (.workerProtocol identity.canonicalName "sv2")] else []) = [] := by
      cases isNew <;> rfl
    rw [Effect.actions_append, Effect.actions_append, honline, List.append_nil]
    change (machine R).Run c (Effect.actions effects ++ [.assign _ _, .identify identity]) _
    exact h.run.append
      (.cons hidle (.single ⟨hchecked, hheld.imp (fun hnone => ⟨hnone, hidle⟩) id⟩))

theorem handleOpenExtended_does (hinv : s.Inv R) (decoded : Except String OpenExtended) :
    Does core Inv R s.core (handleOpenExtended W R.A env s decoded).effects
      (handleOpenExtended W R.A env s decoded).session := by
  have hrefl : Does core Inv R s.core ([] : List (Effect Message)) s := .refl hinv
  unfold handleOpenExtended
  split
  · exact hrefl
  · split
    · exact hrefl
    · rename_i o
      split
      · exact say_does hrefl _ _
      · split
        · exact say_does hrefl _ _
        · rename_i identity hparse
          have hchecked : identity.Checked R.A R.network :=
            hinv.network ▸ MinerIdentity.checked_of_parse hparse
          split
          · exact say_does hrefl _ _
          · rename_i hclosed
            have hclosed : s.channelOpen = false := by simpa using hclosed
            split
            · rename_i hsame
              exact grantChannel_does hrefl hclosed o hchecked
                (Or.inr (by simpa [statsWorker] using hsame)) false
            · dsimp only
              split
              · exact ⟨.nil _, hinv.network, hinv.tag, hinv.template, hinv.closed⟩
              · refine grantChannel_does ?_ (by exact hclosed) o hchecked (by exact Or.inl rfl) true
                refine ⟨?_, hinv.network, hinv.tag, hinv.template, hinv.closed⟩
                -- there is nothing to drop but the name
                obtain ⟨hjobs, hshares⟩ := hinv.closed hclosed
                have hactions : Effect.actions (dropIdentity
                    { s with guard := s.guard.recordNewAuthorization.2 }).2 = [.retire] := by
                  unfold dropIdentity
                  cases statsWorker { s with guard := s.guard.recordNewAuthorization.2 } <;> rfl
                have hcore : s.core.next .retire = core (dropIdentity
                    { s with guard := s.guard.recordNewAuthorization.2 }).1 := by
                  simp only [Core.next, core, dropIdentity, hjobs, hshares]
                  rfl
                rw [hactions, ← hcore]
                exact .single trivial

/-! ## Shares -/

/-- The share a submit stands for in a session. -/
def shareOf (s : Session) (env : Surroundings) (submit : SubmitExtended) (entry : JobEntry)
    (result : ShareResult) : AcceptedShare where
  session := s.core
  params := submit.shareParams entry.job.jobId
  key := submit.shareKey entry.job.jobId
  entry := entry
  floor := s.vardiffCfg.minDifficulty
  now := env.unixTime
  result := result

/-- The submit passes every check of the session but the one for duplicates. -/
structure Submittable (H : Bytes → ByteVec 32) (s : Session) (env : Surroundings)
    (submit : SubmitExtended) (entry : JobEntry) (result : ShareResult) : Prop where
  channel : s.channelOpen
  extranonce : submit.extranonce.length = s.extranonceSize
  find : (s.engineJobId submit.jobId).bind s.issuedJobs.find = some entry
  valid : validateShareNoDedup H (submit.shareParams entry.job.jobId) entry.job entry
    s.extranoncePrefix s.vardiffCfg.minDifficulty env.unixTime = .ok result

theorem refuse_does (hinv : s.Inv R) (seq : UInt32) (reason : RejectReason) (code : String) :
    Does core Inv R s.core (refuse W env s seq reason code).effects
      (refuse W env s seq reason code).session := by
  have hbooked : Does core Inv R s.core [(s.rejectShare reason).2.2] (s.rejectShare reason).2.1 :=
    ⟨.nil _, hinv.network, hinv.tag, hinv.template, hinv.closed⟩
  unfold refuse
  dsimp only
  split
  · exact hbooked
  · exact say_does hbooked _ _

theorem handleSubmit_of_new {H : Bytes → ByteVec 32} {submit : SubmitExtended} {entry : JobEntry}
    {result : ShareResult} (h : Submittable H s env submit entry result)
    (hnew : submit.shareKey entry.job.jobId ∉ s.shareSet.seen) :
    handleSubmit W H env s (.ok submit) =
      acceptShare W env s submit.sequenceNumber (s.shareOf env submit entry result) := by
  unfold handleSubmit
  rw [if_neg (by simp [h.channel])]
  simp only [h.extranonce, ne_eq, not_true_eq_false, if_false, h.find, ShareSet.contains_iff, hnew,
    h.valid]
  rfl

/-- A submit ends the session, is refused, or passes every check under a new key. -/
theorem handleSubmit_cases (W : Wire) (H : Bytes → ByteVec 32) (env : Surroundings) (s : Session)
    (decoded : Except String SubmitExtended) :
    (∃ reason, handleSubmit W H env s decoded = ⟨s, [], .disconnect reason⟩) ∨
    (∃ seq reason code, handleSubmit W H env s decoded = refuse W env s seq reason code) ∨
    ∃ submit entry result, decoded = .ok submit ∧ Submittable H s env submit entry result ∧
      submit.shareKey entry.job.jobId ∉ s.shareSet.seen := by
  unfold handleSubmit
  by_cases hopen : s.channelOpen
  · rw [if_neg (by simpa using hopen)]
    cases decoded with
    | error e => exact Or.inl ⟨_, rfl⟩
    | ok submit =>
      dsimp only
      split
      · exact Or.inr (Or.inl ⟨_, _, _, rfl⟩)
      · rename_i hlength
        split
        · exact Or.inr (Or.inl ⟨_, _, _, rfl⟩)
        · rename_i entry hfind
          split
          · exact Or.inr (Or.inl ⟨_, _, _, rfl⟩)
          · rename_i hnew
            split
            · exact Or.inr (Or.inl ⟨_, _, _, rfl⟩)
            · rename_i result hvalid
              exact Or.inr (Or.inr ⟨submit, entry, result, rfl,
                ⟨hopen, not_not.mp hlength, hfind, hvalid⟩, by simpa using hnew⟩)
  · exact Or.inl ⟨_, if_pos (by simpa using hopen)⟩

theorem Submittable.acceptable {submit : SubmitExtended} {entry : JobEntry} {result : ShareResult}
    (h : Submittable R.H s env submit entry result) :
    Acceptable R (s.shareOf env submit entry result) := by
  obtain ⟨engineId, -, hfind⟩ := Option.bind_eq_some_iff.mp h.find
  exact ⟨(IssuedJobs.mem_of_find hfind).1, rfl, rfl, rfl, rfl, h.valid⟩

theorem actions_acceptShare (seq : UInt32) (share : AcceptedShare) :
    Effect.actions (acceptShare W env s seq share).effects = [.accept share] := by
  unfold acceptShare
  rw [(say_eq ..).2]
  exact actions_acceptEffects ..

theorem handleSubmit_does (hinv : s.Inv R) (decoded : Except String SubmitExtended)
    (hform : ∀ share, .accept share ∈ Effect.actions (handleSubmit W R.H env s decoded).effects →
      R.form share) :
    Does core Inv R s.core (handleSubmit W R.H env s decoded).effects
      (handleSubmit W R.H env s decoded).session := by
  rcases handleSubmit_cases W R.H env s decoded with ⟨reason, hs⟩ | ⟨seq, reason, code, hs⟩ |
    ⟨submit, entry, result, rfl, h, hnew⟩
  · rw [hs]
    exact .refl hinv
  · rw [hs]
    exact refuse_does hinv _ _ _
  · rw [handleSubmit_of_new h hnew] at hform ⊢
    rw [actions_acceptShare] at hform
    have haccept : Enabled R s.core (.accept (s.shareOf env submit entry result)) :=
      ⟨rfl, hnew, h.acceptable, hform _ (by simp)⟩
    unfold acceptShare
    dsimp only
    refine say_does ?_ _ _
    refine ⟨?_, hinv.network, hinv.tag, hinv.template, fun hc => ?_⟩
    · rw [actions_acceptEffects]
      exact .single haccept
    · rw [show s.channelOpen = true from h.channel] at hc
      cases hc

/-! ## Turns of the loop -/

theorem handleSetupConnection_does (hinv : s.Inv R) (decoded : Except String SetupConn) :
    Does core Inv R s.core (handleSetupConnection W env s decoded).effects
      (handleSetupConnection W env s decoded).session := by
  have herror : ∀ code flags reason, Does core Inv R s.core
      (setupError W env s code flags reason).effects
        (setupError W env s code flags reason).session := by
    intro code flags reason
    refine ⟨?_, hinv⟩
    rw [setupError, actions_trySend]
    exact .nil _
  unfold handleSetupConnection
  cases decoded with
  | error e => exact .refl hinv
  | ok setup =>
    dsimp only
    split
    · exact herror _ _ _
    · split
      · exact herror _ _ _
      · split
        · exact herror _ _ _
        · refine say_does ?_ _ _
          exact ⟨.nil _, hinv.network, hinv.tag, hinv.template, hinv.closed⟩

theorem handleMessage_does (hinv : s.Inv R) (frame : Frame)
    (hform : ∀ share, .accept share ∈ Effect.actions (handleMessage W R.H R.A env s frame).effects →
      R.form share) :
    Does core Inv R s.core (handleMessage W R.H R.A env s frame).effects
      (handleMessage W R.H R.A env s frame).session := by
  unfold handleMessage at hform ⊢
  split
  · exact ⟨.nil _, hinv⟩
  · rename_i hrate
    rw [if_neg hrate] at hform
    cases frame with
    | setupConnection decoded => exact handleSetupConnection_does hinv decoded
    | openExtended decoded => exact handleOpenExtended_does hinv decoded
    | submitExtended decoded => exact handleSubmit_does hinv decoded hform
    | other msgType => exact .refl hinv

theorem finish_closes (s : Session) (effects : List (Effect Message)) :
    Closes core Inv s effects (s.finish effects) := .finish s.statsWorker

theorem applyRetarget_closes (W : Wire) (env : Surroundings) (s : Session)
    (effects : List (Effect Message)) :
    Closes core Inv s effects (applyRetarget W env s effects) := by
  have hsame : ∀ {R v d}, s.Inv R → Inv R { s with vardiff := v, difficulty := d } :=
    fun h => ⟨h.network, h.tag, h.template, h.closed⟩
  unfold applyRetarget
  split
  · exact .refl _
  · dsimp only
    split
    · exact ⟨⟨[], by simp, by simp⟩, rfl, fun h => hsame h⟩
    · rename_i newDiff _
      have hstats := closing_worker (μ := Message) (fun name => .workerVardiff name newDiff)
        (fun _ => trivial)
      split
      · exact ((Closes.refl _).of_append (by simp [Closing]) rfl id).of_append (hstats _) rfl
          fun h => hsame h
      · exact (finish_closes _ _).of_append (hstats _) rfl fun h => hsame h

theorem handleBroadcast_run_of_open (hinv : s.Inv R) (hopen : s.channelOpen = true)
    {template : JobTemplate} (hoffered : R.offered template) (clean : Bool) :
    ∃ t, (machine R).Run s.core
        (Effect.actions (handleBroadcast W env s template clean).outputs) t ∧
      ((handleBroadcast W env s template clean).live →
        t = (handleBroadcast W env s template clean).state.core ∧
          (handleBroadcast W env s template clean).state.Inv R) := by
  obtain ⟨shares, hshares, hcleared⟩ :
      ∃ shares, shares = (if clean then s.shareSet.clear else s.shareSet) ∧
        (if clean then { s with shareSet := s.shareSet.clear } else s) =
          { s with shareSet := shares } := by
    cases clean <;> exact ⟨_, rfl, rfl⟩
  unfold handleBroadcast
  simp only [hcleared]
  rw [if_pos hopen]
  rcases hsend : sendJob W env { s with shareSet := shares } template clean clean []
    with ⟨ok, s', effects'⟩
  obtain ⟨jobIds, nextJobId, ⟨rfl, -, ha⟩ | ⟨identity, job, rfl, hidentity, hjob, rfl, ha⟩⟩ :=
    sendJob_cases hsend
  · -- shares may be cleared without a job to go with it, but the session is over
    refine ⟨s.core, ?_, fun h => by cases h⟩
    rw [if_neg (by simp), (finish_closes _ _).actions_eq, ha]
    exact .nil _
  · have hmade : s.core.Materialized R template job := materialized hinv hoffered hidentity hjob
    refine (applyRetarget_closes W env _ _).run ?_
    refine ⟨?_, hinv.network, hinv.tag, fun t ht => Option.some.inj ht ▸ hoffered, fun hc => ?_⟩
    · rw [ha]
      subst hshares
      cases clean with
      | true =>
        have hrenew : Enabled R s.core (.renew template job s.difficulty) := hmade
        exact .single hrenew
      | false =>
        have hissue : Enabled R s.core (.issue template job false s.difficulty) := hmade
        exact .single hissue
    · rw [show s.channelOpen = false from hc] at hopen
      cases hopen

theorem handleBroadcast_run (hinv : s.Inv R) {template : JobTemplate}
    (hoffered : R.offered template) (clean : Bool) :
    ∃ t, (machine R).Run s.core
        (Effect.actions (handleBroadcast W env s template clean).outputs) t ∧
      ((handleBroadcast W env s template clean).live →
        t = (handleBroadcast W env s template clean).state.core ∧
          (handleBroadcast W env s template clean).state.Inv R) := by
  cases hopen : s.channelOpen with
  | true => exact handleBroadcast_run_of_open hinv hopen hoffered clean
  | false =>
    obtain ⟨hjobs, hshares⟩ := hinv.closed hopen
    have htemplate : ∀ t, some template = some t → R.offered t :=
      fun t ht => Option.some.inj ht ▸ hoffered
    unfold handleBroadcast
    cases clean with
    | true =>
      simp only [hopen, if_true, Bool.false_eq_true, if_false]
      have hclear : Enabled R s.core .clearShares := congrArg IssuedJobs.entries hjobs
      refine (applyRetarget_closes W env _ _).run ?_
      exact ⟨.single hclear, hinv.network, hinv.tag, htemplate,
        fun _ => ⟨hjobs, congrArg ShareSet.clear hshares⟩⟩
    | false =>
      simp only [hopen, Bool.false_eq_true, if_false]
      refine (applyRetarget_closes W env _ _).run ?_
      exact ⟨.nil _, hinv.network, hinv.tag, htemplate, fun _ => ⟨hjobs, hshares⟩⟩

theorem step_run (hinv : s.Inv R) {input : Input} (hoffers : input.Offers R.offered)
    (hform : ∀ share, .accept share ∈ Effect.actions (step W R.H R.A s input).outputs →
      R.form share) :
    ∃ t, (machine R).Run s.core (Effect.actions (step W R.H R.A s input).outputs) t ∧
      ((step W R.H R.A s input).live → t = (step W R.H R.A s input).state.core ∧
        (step W R.H R.A s input).state.Inv R) := by
  unfold step at hform ⊢
  dsimp only at hform ⊢
  split
  · rename_i payloadLen frame hevent
    rw [hevent] at hform
    dsimp only at hform
    split
    · exact (finish_closes s _).run ⟨.nil _, hinv⟩
    · rename_i hsize
      rw [hsize] at hform
      dsimp only at hform
      split
      · rename_i hflow
        have hclose := applyRetarget_closes W input.env
          (handleMessage W R.H R.A input.env s frame).session
          (handleMessage W R.H R.A input.env s frame).effects
        rw [hflow] at hform
        dsimp only at hform
        rw [hclose.actions_eq] at hform
        exact hclose.run (handleMessage_does hinv frame hform)
      · rename_i reason hflow
        have hclose := finish_closes (handleMessage W R.H R.A input.env s frame).session
          (handleMessage W R.H R.A input.env s frame).effects
        rw [hflow] at hform
        dsimp only at hform
        rw [hclose.actions_eq] at hform
        exact hclose.run (handleMessage_does hinv frame hform)
  · rename_i template clean hevent
    exact handleBroadcast_run hinv (hoffers template clean hevent) clean
  · exact (applyRetarget_closes W input.env s []).run (.refl hinv)
  · exact (finish_closes s []).run (.refl hinv)

/-- The loop refines the session core, with the templates it is given and whatever it makes sure of
for shares. -/
def refinement (W : Wire) (R : Core.Rules) :
    Refinement (process W R.H R.A) (machine R) fun s input =>
    input.Offers R.offered ∧
    ∀ share, .accept share ∈ Effect.actions (step W R.H R.A s input).outputs → R.form share where
  abs := core
  action := Effect.action
  Inv := Inv R
  step hinv hC := step_run hinv hC.1 hC.2

/-! ## Where an effect comes from -/

theorem trySend_quiet (message : Message) : ∀ e ∈ trySend W env message, e.Quiet := by
  unfold trySend
  split <;> simp [Effect.Quiet]

theorem say_quiet {effects : List (Effect Message)} (h : ∀ e ∈ effects, e.Quiet) (message : Message)
    (name : String) : ∀ e ∈ (say W env s effects message name).effects, e.Quiet := by
  unfold say
  split
  · exact Effect.quiet_concat h trivial
  · exact h
  · exact h

theorem sendJob_quiet {template : JobTemplate} {future cleared : Bool}
    {effects : List (Effect Message)} (h : ∀ e ∈ effects, e.Quiet) :
    ∀ e ∈ (sendJob W env s template future cleared effects).2.2, e.Quiet := by
  have hissued : ∀ {job d}, Effect.Quiet (.core (if cleared then .renew template job d
      else .issue template job future d) : Effect Message) := by
    intro job d
    cases cleared <;> trivial
  unfold sendJob
  split
  · exact h
  · split
    · exact h
    · dsimp only
      split
      · exact h
      · split
        · exact h
        · split
          · exact Effect.quiet_concat (Effect.quiet_concat h trivial) hissued
          · split
            · exact Effect.quiet_concat h trivial
            · split
              · exact Effect.quiet_concat h trivial
              · rw [List.append_cons]
                exact Effect.quiet_concat
                  (Effect.quiet_concat (Effect.quiet_concat h trivial) trivial) hissued

theorem announceChannel_quiet {effects : List (Effect Message)} (h : ∀ e ∈ effects, e.Quiet)
    (o : OpenExtended) : ∀ e ∈ (announceChannel W env s o effects).effects, e.Quiet := by
  unfold announceChannel
  dsimp only
  split
  · exact h
  · split
    · exact say_quiet h _ _
    · split
      · exact say_quiet h _ _
      · exact sendJob_quiet (say_quiet h _ _)

theorem grantChannel_quiet {effects : List (Effect Message)} (h : ∀ e ∈ effects, e.Quiet)
    (o : OpenExtended) (identity : MinerIdentity) (isNew : Bool) :
    ∀ e ∈ (grantChannel W env s o identity isNew effects).effects, e.Quiet := by
  unfold grantChannel
  dsimp only
  split
  · exact List.forall_mem_append.mpr ⟨h, trySend_quiet _⟩
  · refine announceChannel_quiet (List.forall_mem_append.mpr
      ⟨List.forall_mem_append.mpr ⟨h, by simp [Effect.Quiet, Action.Setup]⟩, ?_⟩) o
    cases isNew <;> simp [Effect.Quiet]

theorem handleOpenExtended_quiet (A : AddressLib) (decoded : Except String OpenExtended) :
    ∀ e ∈ (handleOpenExtended W A env s decoded).effects, e.Quiet := by
  have hnil : ∀ e ∈ ([] : List (Effect Message)), e.Quiet := List.forall_mem_nil _
  unfold handleOpenExtended
  split
  · exact hnil
  · split
    · exact hnil
    · split
      · exact say_quiet hnil _ _
      · split
        · exact say_quiet hnil _ _
        · split
          · exact say_quiet hnil _ _
          · split
            · exact grantChannel_quiet hnil _ _ _
            · dsimp only
              split
              · exact hnil
              · refine grantChannel_quiet ?_ _ _ _
                unfold dropIdentity
                cases statsWorker _ <;> simp [Effect.Quiet, Action.Setup]

theorem handleSetupConnection_quiet (decoded : Except String SetupConn) :
    ∀ e ∈ (handleSetupConnection W env s decoded).effects, e.Quiet := by
  unfold handleSetupConnection
  cases decoded with
  | error e => exact List.forall_mem_nil _
  | ok setup =>
    dsimp only
    split
    · exact trySend_quiet _
    · split
      · exact trySend_quiet _
      · split
        · exact trySend_quiet _
        · exact say_quiet (List.forall_mem_nil _) _ _

theorem refuse_quiet (seq : UInt32) (reason : RejectReason) (code : String) :
    ∀ e ∈ (refuse W env s seq reason code).effects, e.Quiet := by
  have hbooked : ∀ e ∈ [(s.rejectShare reason).2.2], e.Quiet := by simp [rejectShare, Effect.Quiet]
  unfold refuse
  dsimp only
  split
  · exact hbooked
  · exact say_quiet hbooked _ _

theorem handleBroadcast_quiet (template : JobTemplate) (clean : Bool) :
    ∀ e ∈ (handleBroadcast W env s template clean).outputs, e.Quiet := by
  intro e he
  unfold handleBroadcast at he
  generalize (if clean then { s with shareSet := s.shareSet.clear } else s) = cleared at he
  have hsent : ∀ e ∈ (sendJob W env cleared template clean clean []).2.2, e.Quiet :=
    sendJob_quiet (List.forall_mem_nil _)
  dsimp only at he
  split at he
  · split at he
    · exact ((applyRetarget_closes ..).mem he).elim (hsent e) id
    · exact ((finish_closes ..).mem he).elim (hsent e) id
  · refine ((applyRetarget_closes ..).mem he).elim (fun he => ?_) id
    cases clean with
    | true =>
      obtain rfl : e = _ := by simpa using he
      trivial
    | false => cases he

/-- A turn accepts or submits only a share that passed every check. -/
theorem step_effects {H : Bytes → ByteVec 32} {A : AddressLib} {input : Input} {e : Effect Message}
    (h : e ∈ (step W H A s input).outputs) : e.Quiet ∨
      ∃ payloadLen submit entry result,
        input.event = .frame payloadLen (.submitExtended (.ok submit)) ∧
        Submittable H s input.env submit entry result ∧
        submit.shareKey entry.job.jobId ∉ s.shareSet.seen ∧
        e ∈ (acceptShare W input.env s submit.sequenceNumber
          (s.shareOf input.env submit entry result)).effects := by
  unfold step at h
  dsimp only at h
  split at h
  · rename_i payloadLen frame hevent
    split at h
    · refine Or.inl (((finish_closes ..).mem h).elim (fun h => ?_) id)
      obtain rfl : e = _ := by simpa using h
      trivial
    · have hframe : e ∈ (handleMessage W H A input.env s frame).effects ∨ e.Quiet := by
        split at h
        · exact (applyRetarget_closes ..).mem h
        · exact (finish_closes ..).mem h
      rcases hframe with hframe | hquiet
      · unfold handleMessage at hframe
        split at hframe
        · rcases List.mem_pair.mp hframe with rfl | rfl <;> exact Or.inl trivial
        · cases frame with
          | setupConnection decoded => exact Or.inl (handleSetupConnection_quiet decoded e hframe)
          | openExtended decoded => exact Or.inl (handleOpenExtended_quiet A decoded e hframe)
          | submitExtended decoded =>
            dsimp only at hframe
            rcases handleSubmit_cases W H input.env s decoded with ⟨reason, hs⟩ |
              ⟨seq, reason, code, hs⟩ | ⟨submit, entry, result, rfl, hs, hnew⟩
            · rw [hs] at hframe
              cases hframe
            · rw [hs] at hframe
              exact Or.inl (refuse_quiet _ _ _ e hframe)
            · rw [handleSubmit_of_new hs hnew] at hframe
              exact Or.inr ⟨payloadLen, submit, entry, result, hevent, hs, hnew, hframe⟩
          | other msgType => cases hframe
      · exact Or.inl hquiet
  · exact Or.inl (handleBroadcast_quiet _ _ e h)
  · exact Or.inl (((applyRetarget_closes ..).mem h).resolve_left (by simp))
  · exact Or.inl (((finish_closes ..).mem h).resolve_left (by simp))

/-- Besides the booking there is only the answer. -/
theorem mem_acceptShare {seq : UInt32} {share : AcceptedShare} {e : Effect Message}
    (h : e ∈ (acceptShare W env s seq share).effects) : (∃ m, e = .send m) ∨
      ∃ name credited, e ∈ acceptEffects env.submitResult s.sessionId name credited share := by
  unfold acceptShare say at h
  dsimp only at h
  split at h
  · rcases List.mem_append.mp h with h | h
    · exact Or.inr ⟨_, _, h⟩
    · exact Or.inl ⟨_, by simpa using h⟩
  · exact Or.inr ⟨_, _, h⟩
  · exact Or.inr ⟨_, _, h⟩

/-- A share accepted in a turn is that of a submit that passed every check. -/
theorem accept_of_step {H : Bytes → ByteVec 32} {A : AddressLib} {input : Input}
    {share : AcceptedShare} (h : .accept share ∈ Effect.actions (step W H A s input).outputs) :
    ∃ payloadLen submit entry result,
      input.event = .frame payloadLen (.submitExtended (.ok submit)) ∧
      Submittable H s input.env submit entry result ∧
      submit.shareKey entry.job.jobId ∉ s.shareSet.seen ∧
      share = s.shareOf input.env submit entry result := by
  rcases step_effects (Effect.mem_actions.mp h) with hquiet |
    ⟨payloadLen, submit, entry, result, hevent, hs, hnew, hmem⟩
  · cases hquiet
  · refine ⟨payloadLen, submit, entry, result, hevent, hs, hnew, ?_⟩
    have haccept := Effect.mem_actions.mpr hmem
    rw [actions_acceptShare] at haccept
    simpa using haccept

/-- A block is submitted only for a submit of which the validator made a block. -/
theorem block_of_step {H : Bytes → ByteVec 32} {A : AddressLib} {input : Input} {height : UInt64}
    {hashHex blockHex worker payout : Str}
    (h : .submitFoundBlock height hashHex blockHex worker payout ∈ (step W H A s input).outputs) :
    ∃ payloadLen submit entry hd hash,
      input.event = .frame payloadLen (.submitExtended (.ok submit)) ∧
      Submittable H s input.env submit entry (.block hd blockHex hash) := by
  rcases step_effects h with hquiet | ⟨payloadLen, submit, entry, result, hevent, hs, hnew, hmem⟩
  · cases hquiet
  · rcases mem_acceptShare hmem with ⟨m, hm⟩ | ⟨name, credited, hmem⟩
    · cases hm
    · obtain ⟨hd, hash, rfl⟩ := block_of_mem_acceptEffects hmem
      exact ⟨payloadLen, submit, entry, hd, hash, hevent, hs⟩

end BtcPool.Sv2.Session
