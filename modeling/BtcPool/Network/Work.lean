import BtcPool.Network.SessionRefines
import BtcPool.Protocol.Sv2.SessionRefines

/-!
# Where work comes from

An effect is work if it sends the peer a job or a previous hash, or adds a job to the history. In
both protocols there are two sources of work only: a template delivered to a session that is ready
for jobs, and a miner that authorizes or opens its channel while a template is at hand
(`Sv1.Session.step_work`, `Sv2.Session.step_work`).
-/

namespace BtcPool

open Bitcoin

/-- None of the effects is work. -/
def Workless {μ : Type} (isWork : Effect μ → Bool) (effects : List (Effect μ)) : Prop :=
  ∀ e ∈ effects, isWork e = false

section Workless

variable {μ : Type} {isWork : Effect μ → Bool} {effects more : List (Effect μ)}

theorem Workless.append (h : Workless isWork effects) (h' : Workless isWork more) :
    Workless isWork (effects ++ more) :=
  List.forall_mem_append.mpr ⟨h, h'⟩

theorem Workless.notMem (h : Workless isWork effects) {e : Effect μ} (hwork : isWork e = true) :
    e ∉ effects := by
  intro he
  rw [h e he] at hwork
  cases hwork

theorem workless_nil : Workless isWork ([] : List (Effect μ)) := List.forall_mem_nil _

/-- Messages that are not work, written for as long as writes succeed. -/
theorem workless_sendMessages {messages : List μ} (written : μ → Bool)
    (h : ∀ m ∈ messages, isWork (.send m) = false) :
    Workless isWork (sendMessages written messages).1 := by
  induction messages with
  | nil => exact workless_nil
  | cons m messages ih =>
    unfold sendMessages
    split
    · exact List.forall_mem_cons.mpr ⟨h m (by simp), ih fun x hx => h x (by simp [hx])⟩
    · exact workless_nil

/-- An event about the worker, if there is one. -/
theorem workless_worker (isWork : Effect μ → Bool) (event : Str → StatsEvent)
    (h : ∀ name, isWork (.stats (event name)) = false) (worker : Option Str) :
    Workless isWork (worker.map fun name => (.stats (event name) : Effect μ)).toList := by
  cases worker with
  | none => exact workless_nil
  | some name => exact List.forall_mem_singleton.mpr (h name)

end Workless

/-! ## Stratum V1 -/

namespace Sv1

/-- Whether an effect hands out work. -/
def isWork : Effect Message → Bool
  | .send (.notify _) => true
  | .core (.issue _ _ _ _) => true
  | .core (.renew _ _ _) => true
  | _ => false

theorem workless_acceptEffects (submitResult : Except PoolError BlockSubmitOutcome)
    (sessionId worker : Str) (credit : UInt64) (share : AcceptedShare) :
    Workless isWork (acceptEffects submitResult sessionId worker credit share) := by
  unfold acceptEffects
  dsimp only
  split
  · simp [Workless, isWork]
  · cases submitResult <;> simp [Workless, isWork]

namespace Session

variable {H : Bytes → ByteVec 32} {A : AddressLib} {env : Env Message} {s : Session}

/-- A handler did no work, and answers without any. -/
structure Rests (handled : Handled) : Prop where
  effects : Workless isWork handled.effects
  messages : ∀ messages, handled.result = .messages messages →
    ∀ m ∈ messages, isWork (.send m) = false

theorem rests_reply {messages : List Message} (h : ∀ m ∈ messages, isWork (.send m) = false) :
    Rests (s.reply messages) :=
  ⟨workless_nil, fun _ heq => HandleResult.messages.inj heq ▸ h⟩

theorem rests_disconnect {effects : List (Effect Message)} (h : Workless isWork effects)
    (reason : String) : Rests ⟨s, effects, .disconnect reason⟩ :=
  ⟨h, fun _ heq => by cases heq⟩

theorem rests_refuse (id : RequestId) (reason : RejectReason) (code : StratumErrCode) :
    Rests (s.refuse id reason code) := by
  refine ⟨by simp [Workless, refuse, rejectShare, isWork], fun messages heq => ?_⟩
  unfold refuse at heq
  dsimp only at heq
  split at heq
  · cases heq
  · cases heq
    simp [isWork]

theorem rests_handleConfigure (id : RequestId) (params : ConfigureParams) :
    Rests (s.handleConfigure id params) := by
  unfold handleConfigure
  dsimp only
  split
  · exact ⟨by simp [Workless, isWork], fun _ heq => by cases heq; simp [isWork]⟩
  · exact ⟨workless_nil, fun _ heq => by cases heq; simp [isWork]⟩

theorem rests_handleSubmit (id : RequestId) (params : SubmitParams) :
    Rests (handleSubmit H env s id params) := by
  by_cases hauth : ¬ s.authorized ∨ s.worker ≠ some params.worker
  · rw [handleSubmit, if_pos hauth]
    exact ⟨by simp [Workless, rejectShare, isWork], fun _ heq => by cases heq; simp [isWork]⟩
  · rw [handleSubmit, if_neg hauth]
    split
    · exact rests_refuse _ _ _
    · split
      · exact rests_refuse _ _ _
      · dsimp only
        split
        · exact rests_refuse _ _ _
        · exact ⟨workless_acceptEffects _ _ _ _ _, fun _ heq => by cases heq; simp [isWork]⟩

/-- Without a template at hand a miner is welcomed without work. -/
theorem rests_welcome {effects : List (Effect Message)} (h : Workless isWork effects)
    (hnone : (s.currentTemplate <|> env.engineTemplate) = none) (id : RequestId) :
    Rests (s.welcome env id effects) := by
  unfold welcome
  rw [hnone]
  exact ⟨h, fun _ heq => by cases heq; simp [isWork]⟩

/-- The miner of a name passes every check on its way to be authorized. -/
def admits (A : AddressLib) (s : Session) (worker : Str) : Bool :=
  s.subscribed && (s.guard.checkWorkerName worker).isOk &&
    match MinerIdentity.parse A worker s.network s.guard.maxWorkerNameLen with
    | .error _ => false
    | .ok identity =>
      s.statsWorker = some identity.canonicalName || s.guard.recordNewAuthorization.1

theorem rests_handleAuthorize {worker : Str}
    (hnone : s.admits A worker → (s.currentTemplate <|> env.engineTemplate) = none)
    (id : RequestId) : Rests (handleAuthorize A env s id worker) := by
  unfold handleAuthorize
  split
  · exact rests_reply (by simp [isWork])
  · rename_i hsubscribed
    split
    · exact rests_reply (by simp [isWork])
    · rename_i hname
      split
      · exact rests_reply (by simp [isWork])
      · rename_i identity hparse
        split
        · rename_i hsame
          have hadmitted : s.admits A worker = true := by
            simp [admits, hname, hparse, hsame, Except.isOk, Except.toBool,
              not_not.mp hsubscribed]
          refine rests_welcome ?_ (by exact hnone hadmitted) id
          simp [Workless, isWork]
        · dsimp only
          split
          · exact rests_disconnect workless_nil _
          · rename_i hallowed
            have hadmitted : s.admits A worker = true := by
              simp [admits, hname, hparse, not_not.mp hallowed, Except.isOk, Except.toBool,
                not_not.mp hsubscribed]
            refine rests_welcome ?_ (by exact hnone hadmitted) id
            have hoffline := workless_worker isWork .workerOffline (fun _ => rfl)
              s.statsWorker
            refine (hoffline.append ?_).append ?_ <;> simp [Workless, isWork]

/-- A line gives work only if it authorizes a miner while a template is at hand. -/
theorem rests_handleLine {line : Line} (h : ∀ id worker, line = .request id (.authorize worker) →
    env.rateOk → s.admits A worker → (s.currentTemplate <|> env.engineTemplate) = none) :
    Rests (handleLine H A env s line) := by
  unfold handleLine
  split
  · exact rests_disconnect (by simp [Workless, isWork]) _
  · rename_i hrate
    cases line with
    | blank => exact rests_reply (by simp)
    | malformed => exact rests_disconnect workless_nil _
    | badParams id error => exact rests_reply (by simp [isWork])
    | request id message =>
      cases message with
      | subscribe userAgent => exact rests_reply (by simp [isWork])
      | authorize worker => exact rests_handleAuthorize (h id worker rfl (not_not.mp hrate)) id
      | submit params => exact rests_handleSubmit id params
      | configure params => exact rests_handleConfigure id params
      | suggestDifficulty difficulty =>
        refine rests_reply ?_
        dsimp only
        split <;> simp [isWork]
      | extranonceSubscribe => exact rests_reply (by simp [isWork])
      | unknown method => exact rests_reply (by simp [isWork])

theorem workless_finish {effects : List (Effect Message)} (h : Workless isWork effects) :
    Workless isWork (s.finish effects).outputs :=
  (h.append (by simp [Workless, isWork])).append
    (workless_worker isWork .workerOffline (fun _ => rfl) _)

theorem workless_applyRetarget {effects : List (Effect Message)} (h : Workless isWork effects) :
    Workless isWork (s.applyRetarget env effects).outputs := by
  unfold applyRetarget
  dsimp only
  split
  · exact h
  · rename_i newDiff _
    have hsent : Workless isWork (sendMessages env.written [Message.setDifficulty newDiff]).1 :=
      workless_sendMessages _ (by simp [isWork])
    have hstats := workless_worker isWork (fun name => .workerVardiff name newDiff)
      (fun _ => rfl)
    split
    · exact (h.append (hstats _)).append hsent
    · exact workless_finish ((h.append (hstats _)).append hsent)

theorem workless_sendThenRetarget {effects : List (Effect Message)} {messages : List Message}
    (h : Workless isWork effects) (hmessages : ∀ m ∈ messages, isWork (.send m) = false) :
    Workless isWork (s.sendThenRetarget env effects messages).outputs := by
  have hsent := h.append (workless_sendMessages env.written hmessages)
  unfold sendThenRetarget
  dsimp only
  split
  · exact workless_applyRetarget hsent
  · exact workless_finish hsent

/-- A turn gives the miner work only if a template is delivered to it when it is ready for jobs, or
if it is authorized while a template is at hand. -/
theorem step_work {input : Input} {e : Effect Message} (he : e ∈ (step H A s input).outputs)
    (hwork : isWork e = true) :
    (∃ template clean, input.event = .broadcast template clean ∧ s.subscribed ∧ s.authorized) ∨
    ∃ id worker, input.event = .line (.request id (.authorize worker)) ∧
      input.env.rateOk ∧ s.admits A worker ∧
      (s.currentTemplate <|> input.env.engineTemplate).isSome := by
  by_contra hnone
  push Not at hnone
  obtain ⟨hbroadcast, hauthorize⟩ := hnone
  have hworkless : Workless isWork (step H A s input).outputs := by
    unfold step
    dsimp only
    split
    · rename_i line hevent
      have hrests : Rests (handleLine H A input.env s line) := by
        refine rests_handleLine fun id worker hline hrate hadmitted => ?_
        simpa using hauthorize id worker (by rw [hevent, hline]) hrate hadmitted
      split
      · exact workless_sendThenRetarget hrests.effects (hrests.messages _ ‹_›)
      · exact workless_finish hrests.effects
    · rename_i template clean hevent
      unfold handleBroadcast
      dsimp only
      rw [if_neg fun hready => hbroadcast template clean hevent hready.1 hready.2]
      refine workless_applyRetarget ?_
      split <;> simp [Workless, isWork]
    · exact workless_applyRetarget workless_nil
    · exact workless_finish (by simp [Workless, isWork])
    · exact workless_finish workless_nil
  rw [hworkless e he] at hwork
  cases hwork

end Session

end Sv1

/-! ## Stratum V2 -/

namespace Sv2

/-- Whether an effect hands out work. -/
def isWork : Effect Message → Bool
  | .send (.newExtendedMiningJob _) => true
  | .send (.setNewPrevHash _) => true
  | .core (.issue _ _ _ _) => true
  | .core (.renew _ _ _) => true
  | _ => false

theorem workless_acceptEffects (submitResult : Except PoolError BlockSubmitOutcome)
    (sessionId worker : Str) (credit : UInt64) (share : AcceptedShare) :
    Workless isWork (acceptEffects submitResult sessionId worker credit share) := by
  unfold acceptEffects
  dsimp only
  split
  · simp [Workless, isWork]
  · cases submitResult <;> simp [Workless, isWork]

namespace Session

variable {W : Wire} {H : Bytes → ByteVec 32} {A : AddressLib} {env : Surroundings} {s s' : Session}
  {effects : List (Effect Message)}

/-- The template at hand and whether the channel is open are as they were. -/
structure SameWork (s s' : Session) : Prop where
  template : s'.pendingTemplate = s.pendingTemplate
  channel : s'.channelOpen = s.channelOpen

theorem SameWork.refl (s : Session) : SameWork s s := ⟨rfl, rfl⟩

/-- A handler did no work. -/
structure Rests (s : Session) (handled : Handled) : Prop where
  effects : Workless isWork handled.effects
  same : SameWork s handled.session

theorem rests_disconnect (reason : String) : Rests s ⟨s, [], .disconnect reason⟩ :=
  ⟨workless_nil, .refl s⟩

theorem workless_trySend {message : Message} (h : isWork (.send message) = false) :
    Workless isWork (trySend W env message) := by
  unfold trySend
  split
  · exact List.forall_mem_singleton.mpr h
  · exact workless_nil

theorem workless_say (h : Workless isWork effects) {message : Message}
    (hmessage : isWork (.send message) = false) (name : String) :
    Workless isWork (say W env s effects message name).effects := by
  unfold say
  split
  · exact h.append (List.forall_mem_singleton.mpr hmessage)
  · exact h
  · exact h

theorem rests_say (h : Workless isWork effects) (hsame : SameWork s s') {message : Message}
    (hmessage : isWork (.send message) = false) (name : String) :
    Rests s (say W env s' effects message name) :=
  ⟨workless_say h hmessage name, by rw [(say_eq ..).1]; exact hsame⟩

theorem rests_handleSetupConnection (decoded : Except String SetupConn) :
    Rests s (handleSetupConnection W env s decoded) := by
  have herror : ∀ code flags reason, Rests s (setupError W env s code flags reason) :=
    fun code flags reason => ⟨workless_trySend rfl, .refl s⟩
  unfold handleSetupConnection
  cases decoded with
  | error e => exact rests_disconnect _
  | ok setup =>
    dsimp only
    split
    · exact herror _ _ _
    · split
      · exact herror _ _ _
      · split
        · exact herror _ _ _
        · exact rests_say workless_nil (by exact ⟨rfl, rfl⟩) (by exact rfl) _

theorem rests_refuse (seq : UInt32) (reason : RejectReason) (code : String) :
    Rests s (refuse W env s seq reason code) := by
  have hbooked : Workless isWork [(s.rejectShare reason).2.2] := by
    simp [Workless, rejectShare, isWork]
  unfold refuse
  dsimp only
  split
  · exact ⟨hbooked, rfl, rfl⟩
  · exact rests_say hbooked (by exact ⟨rfl, rfl⟩) (by exact rfl) _

theorem rests_handleSubmit (decoded : Except String SubmitExtended) :
    Rests s (handleSubmit W H env s decoded) := by
  rcases handleSubmit_cases W H env s decoded with ⟨reason, hs⟩ | ⟨seq, reason, code, hs⟩ |
    ⟨submit, entry, result, rfl, h, hnew⟩
  · rw [hs]
    exact rests_disconnect _
  · rw [hs]
    exact rests_refuse _ _ _
  · rw [handleSubmit_of_new h hnew]
    exact rests_say (workless_acceptEffects _ _ _ _ _) (by exact ⟨rfl, rfl⟩) (by exact rfl) _

/-- The template at hand stays where it is when a job is sent. -/
theorem sameWork_sendJob (template : JobTemplate) (future cleared : Bool) :
    SameWork s (sendJob W env s template future cleared effects).2.1 := by
  rcases hsend : sendJob W env s template future cleared effects with ⟨ok, s', effects'⟩
  obtain ⟨jobIds, nextJobId, ⟨-, rfl, -⟩ | ⟨identity, job, -, -, -, rfl, -⟩⟩ := sendJob_cases hsend
  · exact ⟨rfl, rfl⟩
  · exact ⟨rfl, rfl⟩

/-- The job made of a template for the identity of a session. -/
structure SentJob (W : Wire) (s : Session) (template : JobTemplate) (future : Bool)
    (job : StratumJob) (newJob : NewExtendedMiningJob) : Prop where
  built : ∃ identity, s.identity = some identity ∧
    BuiltJob template identity.payout s.coinbaseTag s.extranoncePrefix.length s.extranonceSize job
  message : buildNewExtendedJob W job s.channelId s.nextJobId future = .ok newJob

theorem minNtime_of_buildNewExtendedJob {job : StratumJob} {channelId jobId : UInt32}
    {future : Bool}
    {newJob : NewExtendedMiningJob}
    (h : buildNewExtendedJob W job channelId jobId future = .ok newJob) :
    newJob.minNtime = if future then none else some job.curTime := by
  simp only [buildNewExtendedJob, bind_eq_ok, ensure_eq_ok, pure_eq_ok] at h
  obtain ⟨-, -, -, -, -, -, rfl⟩ := h
  rfl

/-- An immediate job is sent and issued, or nothing is sent. -/
theorem sendJob_immediate (W : Wire) (env : Surroundings) (s : Session)
    (effects : List (Effect Message)) (template : JobTemplate) :
    ((sendJob W env s template false false effects).1 = false ∧
      (sendJob W env s template false false effects).2.2 = effects) ∨
    ∃ job newJob, (sendJob W env s template false false effects).1 = true ∧
      SentJob W s template false job newJob ∧
      (sendJob W env s template false false effects).2.2 = effects ++
        [.send (.newExtendedMiningJob newJob), .core (.issue template job false s.difficulty)] := by
  unfold sendJob
  split
  · exact Or.inl ⟨rfl, rfl⟩
  · rename_i identity hidentity
    split
    · exact Or.inl ⟨rfl, rfl⟩
    · rename_i job hjob
      dsimp only
      split
      · exact Or.inl ⟨rfl, rfl⟩
      · rename_i newJob hnew
        split
        · exact Or.inl ⟨rfl, rfl⟩
        · rw [if_pos (by simp)]
          refine Or.inr ⟨job, newJob, rfl,
            ⟨⟨identity, hidentity, (buildJobForPayout_spec hjob).2⟩, hnew⟩, ?_⟩
          rw [List.append_assoc]
          rfl

/-- A future job is followed by the previous hash that activates it, or the session ends. -/
theorem sendJob_future (W : Wire) (env : Surroundings) (s : Session)
    (effects : List (Effect Message)) (template : JobTemplate) (cleared : Bool) :
    ∃ more, (sendJob W env s template true cleared effects).2.2 = effects ++ more ∧
      (∀ newJob, .send (.newExtendedMiningJob newJob) ∈ more → newJob.minNtime = none) ∧
      ((sendJob W env s template true cleared effects).1 = true → ∃ job newJob setPrev action,
        SentJob W s template true job newJob ∧
        buildSetNewPrevHash job s.channelId s.nextJobId = .ok setPrev ∧
        more = [.send (.newExtendedMiningJob newJob), .send (.setNewPrevHash setPrev),
          .core action]) := by
  unfold sendJob
  split
  · exact ⟨[], by simp, by simp, by simp⟩
  · rename_i identity hidentity
    split
    · exact ⟨[], by simp, by simp, by simp⟩
    · rename_i job hjob
      dsimp only
      split
      · exact ⟨[], by simp, by simp, by simp⟩
      · rename_i newJob hnew
        have hfuture : newJob.minNtime = none := minNtime_of_buildNewExtendedJob hnew
        split
        · exact ⟨[], by simp, by simp, by simp⟩
        · rw [if_neg (by simp)]
          split
          · exact ⟨_, rfl, by simp [hfuture], by simp⟩
          · rename_i setPrev hprev
            split
            · exact ⟨_, rfl, by simp [hfuture], by simp⟩
            · refine ⟨_, List.append_assoc _ _ _, by simp [hfuture], fun _ => ⟨job, newJob, setPrev,
                _, ⟨⟨identity, hidentity, (buildJobForPayout_spec hjob).2⟩, hnew⟩, hprev, rfl⟩⟩

/-! ## Turns -/

/-- The end of a session adds no work. -/
theorem finish_adds (s : Session) (effects : List (Effect Message)) :
    ∃ after, (s.finish effects).outputs = effects ++ after ∧ Workless isWork after := by
  have hoffline := workless_worker isWork .workerOffline (fun _ => rfl) s.statsWorker
  refine ⟨_, List.append_assoc _ _ _, Workless.append ?_ hoffline⟩
  simp [Workless, isWork]

/-- The end of a turn adds no work. -/
theorem applyRetarget_adds (W : Wire) (env : Surroundings) (s : Session)
    (effects : List (Effect Message)) :
    ∃ after, (applyRetarget W env s effects).outputs = effects ++ after ∧ Workless isWork after ∧
      SameWork s (applyRetarget W env s effects).state := by
  unfold applyRetarget
  split
  · exact ⟨[], by simp, workless_nil, .refl s⟩
  · dsimp only
    split
    · exact ⟨[], by simp, workless_nil, rfl, rfl⟩
    · rename_i newDiff _
      have hstats := workless_worker isWork (fun name => .workerVardiff name newDiff)
        (fun _ => rfl)
      split
      · refine ⟨_, List.append_assoc _ _ _, (hstats _).append ?_, rfl, rfl⟩
        simp [Workless, isWork]
      · obtain ⟨after, hafter, hworkless⟩ := finish_adds { s with
            vardiff := (s.vardiff.checkRetarget env.now (networkDifficulty s.pendingTemplate)
              env.rate).2
            difficulty := newDiff }
          (effects ++ (s.statsWorker.map fun name => .stats (.workerVardiff name newDiff)).toList)
        rw [List.append_assoc] at hafter
        exact ⟨_, hafter, (hstats _).append hworkless, rfl, rfl⟩

/-- A frame brought no work, or opened the channel with a first job. -/
inductive Opens (W : Wire) (env : Surroundings) (s : Session) (handled : Handled) : Prop
  | rests (effects : Workless isWork handled.effects)
    (template : handled.session.pendingTemplate = s.pendingTemplate)
    (channel : handled.session.channelOpen = s.channelOpen ∨ s.pendingTemplate = none)
  | first (template : JobTemplate) (before : List (Effect Message)) (opened : Session)
    (pending : s.pendingTemplate = some template) (same : opened.pendingTemplate = some template)
    (workless : Workless isWork before)
    (eq : handled = ⟨(sendJob W env opened template true false before).2.1,
      (sendJob W env opened template true false before).2.2,
      if (sendJob W env opened template true false before).1 then .continue
      else .disconnect "write"⟩)

theorem Rests.opens {handled : Handled} (h : Rests s handled) : Opens W env s handled :=
  .rests h.effects h.same.template (.inl h.same.channel)

theorem opens_announceChannel (h : Workless isWork effects) (hsame : SameWork s s')
    (o : OpenExtended) : Opens W env s (announceChannel W env s' o effects) := by
  unfold announceChannel
  split
  · exact .rests h hsame.template (.inl hsame.channel)
  · have hsaid : Rests s (say W env s' effects (s'.openExtendedSuccess o)
        "OpenExtendedMiningChannelSuccess") := rests_say h hsame rfl _
    dsimp only
    split
    · exact hsaid.opens
    · split
      · rename_i htemplate
        exact .rests hsaid.effects hsame.template (.inr (hsame.template.symm.trans htemplate))
      · rename_i template htemplate
        exact .first template _ { s' with channelOpen := true }
          (hsame.template.symm.trans htemplate) htemplate hsaid.effects rfl

theorem opens_grantChannel (h : Workless isWork effects) (hsame : SameWork s s') (o : OpenExtended)
    (identity : MinerIdentity) (isNew : Bool) :
    Opens W env s (grantChannel W env s' o identity isNew effects) := by
  unfold grantChannel
  dsimp only
  split
  · exact .rests (h.append (workless_trySend rfl)) hsame.template (.inl hsame.channel)
  · refine opens_announceChannel ((h.append ?_).append ?_)
      (by exact ⟨hsame.template, hsame.channel⟩) o
    · simp [Workless, isWork]
    · split <;> simp [Workless, isWork]

theorem opens_handleOpenExtended (decoded : Except String OpenExtended) :
    Opens W env s (handleOpenExtended W A env s decoded) := by
  have herror : ∀ (o : OpenExtended) (code : String),
      Rests s (openError W env s o.requestId code) :=
    fun o code => rests_say workless_nil (.refl s) (by exact rfl) _
  unfold handleOpenExtended
  split
  · exact (rests_disconnect _).opens
  · split
    · exact (rests_disconnect _).opens
    · split
      · exact (herror _ _).opens
      · split
        · exact (herror _ _).opens
        · split
          · exact (herror _ _).opens
          · split
            · exact opens_grantChannel workless_nil (.refl s) _ _ _
            · dsimp only
              split
              · exact .rests workless_nil rfl (.inl rfl)
              · have hoffline := workless_worker isWork .workerOffline (fun _ => rfl)
                  s.statsWorker
                exact opens_grantChannel (hoffline.append (by simp [Workless, isWork]))
                  (by exact ⟨rfl, rfl⟩) _ _ _

/-- The device passes every check on the way to its channel. -/
def admits (A : AddressLib) (s : Session) (o : OpenExtended) : Bool :=
  s.setupDone && (s.guard.checkWorkerName o.userIdentity).isOk && !s.channelOpen &&
    o.minExtranonceSize.toNat ≤ s.extranonceTotal &&
    match MinerIdentity.parse A o.userIdentity s.network s.guard.maxWorkerNameLen with
    | .error _ => false
    | .ok identity =>
      s.statsWorker = some identity.canonicalName || s.guard.recordNewAuthorization.1

theorem workless_grantChannel (h : Workless isWork effects) {o : OpenExtended}
    (htotal : s.extranonceTotal < o.minExtranonceSize.toNat) (identity : MinerIdentity)
    (isNew : Bool) : Workless isWork (grantChannel W env s o identity isNew effects).effects := by
  unfold grantChannel
  dsimp only
  rw [if_pos htotal]
  exact h.append (workless_trySend rfl)

/-- A request for a channel that is refused brings no work. -/
theorem workless_handleOpenExtended {decoded : Except String OpenExtended}
    (h : ∀ o, decoded = .ok o → s.admits A o = false) :
    Workless isWork (handleOpenExtended W A env s decoded).effects := by
  have herror : ∀ (o : OpenExtended) (code : String),
      Workless isWork (openError W env s o.requestId code).effects :=
    fun o code => workless_say workless_nil (by exact rfl) _
  unfold handleOpenExtended
  split
  · exact workless_nil
  · rename_i hsetup
    split
    · exact workless_nil
    · rename_i o
      have hrefused := h o rfl
      split
      · exact herror _ _
      · rename_i hname
        split
        · exact herror _ _
        · rename_i identity hparse
          split
          · exact herror _ _
          · rename_i hclosed
            -- what is left is the name, if it is new, and the width
            have hleft : (s.statsWorker = some identity.canonicalName ∨
                s.guard.recordNewAuthorization.1 = true) →
                s.extranonceTotal < o.minExtranonceSize.toNat := by
              intro hallowed
              by_contra htotal
              simp [admits, hname, hparse, hclosed, Except.isOk, Except.toBool, not_not.mp hsetup,
                not_lt.mp htotal] at hrefused
              exact hallowed.elim hrefused.1 (by simp [hrefused.2])
            split
            · rename_i hsame
              exact workless_grantChannel workless_nil (hleft (.inl hsame)) _ _
            · dsimp only
              split
              · exact workless_nil
              · rename_i hallowed
                have hoffline := workless_worker isWork .workerOffline (fun _ => rfl)
                  s.statsWorker
                exact workless_grantChannel (hoffline.append (by simp [Workless, isWork]))
                  (by exact hleft (.inr (not_not.mp hallowed))) _ _

/-- A frame brings work only if it opens the channel. -/
theorem handleMessage_opens (W : Wire) (H : Bytes → ByteVec 32) (A : AddressLib)
    (env : Surroundings) (s : Session) (frame : Frame) :
    Rests s (handleMessage W H A env s frame) ∨
      ((∃ decoded, frame = .openExtended decoded) ∧
        Opens W env s (handleMessage W H A env s frame)) := by
  unfold handleMessage
  split
  · exact Or.inl ⟨by simp [Workless, isWork], .refl s⟩
  · cases frame with
    | setupConnection decoded => exact Or.inl (rests_handleSetupConnection decoded)
    | openExtended decoded => exact Or.inr ⟨⟨decoded, rfl⟩, opens_handleOpenExtended decoded⟩
    | submitExtended decoded => exact Or.inl (rests_handleSubmit decoded)
    | other msgType => exact Or.inl ⟨workless_nil, .refl s⟩

/-- While the channel is not open, a template is only kept. -/
theorem handleBroadcast_of_closed (W : Wire) (env : Surroundings) (h : s.channelOpen = false)
    (template : JobTemplate) (clean : Bool) : ∃ s' effects,
      handleBroadcast W env s template clean = applyRetarget W env s' effects ∧
      Workless isWork effects ∧ s'.pendingTemplate = some template ∧ s'.channelOpen = false := by
  cases clean with
  | true =>
    exact ⟨{ s with shareSet := s.shareSet.clear, pendingTemplate := some template },
      [.core .clearShares], by simp [handleBroadcast, h], by simp [Workless, isWork], rfl, h⟩
  | false =>
    exact ⟨{ s with pendingTemplate := some template }, [], by simp [handleBroadcast, h],
      workless_nil, rfl, h⟩

/-- Once it is, a job is sent: a future one if the template is clean. The session goes on if that
worked, with the template kept. -/
theorem handleBroadcast_of_open (W : Wire) (env : Surroundings) (h : s.channelOpen = true)
    (template : JobTemplate) (clean : Bool) :
    ∃ s' after, (clean = false → s' = s) ∧ Workless isWork after ∧
      (handleBroadcast W env s template clean).outputs =
        (sendJob W env s' template clean clean []).2.2 ++ after ∧
      ((handleBroadcast W env s template clean).live →
        (sendJob W env s' template clean clean []).1 = true ∧
        (handleBroadcast W env s template clean).state.pendingTemplate = some template) := by
  obtain ⟨s', hsame, hout⟩ : ∃ s', (clean = false → s' = s) ∧
      handleBroadcast W env s template clean =
        if (sendJob W env s' template clean clean []).1 then
          applyRetarget W env
            { (sendJob W env s' template clean clean []).2.1 with pendingTemplate := some template }
            (sendJob W env s' template clean clean []).2.2
        else (sendJob W env s' template clean clean []).2.1.finish
          (sendJob W env s' template clean clean []).2.2 := by
    cases clean with
    | true => exact ⟨{ s with shareSet := s.shareSet.clear }, by simp, if_pos h⟩
    | false => exact ⟨s, fun _ => rfl, if_pos h⟩
  rw [hout]
  split
  · rename_i hok
    obtain ⟨after, hout, hafter, hkept⟩ := applyRetarget_adds W env
      { (sendJob W env s' template clean clean []).2.1 with pendingTemplate := some template }
      (sendJob W env s' template clean clean []).2.2
    exact ⟨s', after, hsame, hafter, hout, fun _ => ⟨hok, hkept.template⟩⟩
  · obtain ⟨after, hout, hafter⟩ := finish_adds (sendJob W env s' template clean clean []).2.1
      (sendJob W env s' template clean clean []).2.2
    exact ⟨s', after, hsame, hafter, hout, fun hlive => by cases hlive⟩

/-- The effects of a frame are those of its handler, and no work besides. -/
theorem step_frame (W : Wire) (H : Bytes → ByteVec 32) (A : AddressLib) (env : Surroundings)
    (s : Session) (payloadLen : ℕ) (frame : Frame) :
    ∃ effects after, (step W H A s ⟨.frame payloadLen frame, env⟩).outputs = effects ++ after ∧
      Workless isWork after ∧
      (Workless isWork effects ∨ effects = (handleMessage W H A env s frame).effects) ∧
      ((step W H A s ⟨.frame payloadLen frame, env⟩).live →
        effects = (handleMessage W H A env s frame).effects ∧
        (handleMessage W H A env s frame).flow = .continue ∧
        SameWork (handleMessage W H A env s frame).session
          (step W H A s ⟨.frame payloadLen frame, env⟩).state) := by
  unfold step
  dsimp only
  split
  · obtain ⟨after, hout, hafter⟩ := finish_adds s [.ban "message too large"]
    exact ⟨_, after, hout, hafter, Or.inl (by simp [Workless, isWork]), fun h => by cases h⟩
  · split
    · rename_i hflow
      obtain ⟨after, hout, hafter, hsame⟩ := applyRetarget_adds W env
        (handleMessage W H A env s frame).session (handleMessage W H A env s frame).effects
      exact ⟨_, after, hout, hafter, Or.inr rfl, fun _ => ⟨rfl, hflow, hsame⟩⟩
    · obtain ⟨after, hout, hafter⟩ := finish_adds (handleMessage W H A env s frame).session
        (handleMessage W H A env s frame).effects
      exact ⟨_, after, hout, hafter, Or.inr rfl, fun h => by cases h⟩

section FrameWork

variable {payloadLen : ℕ} {frame : Frame} {e : Effect Message}

/-- A frame that brings work opens the channel, with a first job of the template at hand. -/
theorem opens_of_frame_work (he : e ∈ (step W H A s ⟨.frame payloadLen frame, env⟩).outputs)
    (hwork : isWork e = true) :
    ∃ decoded template before opened after, frame = .openExtended decoded ∧
      s.pendingTemplate = some template ∧ Workless isWork before ∧ Workless isWork after ∧
      (step W H A s ⟨.frame payloadLen frame, env⟩).outputs =
        (handleMessage W H A env s frame).effects ++ after ∧
      (handleMessage W H A env s frame).effects =
        (sendJob W env opened template true false before).2.2 := by
  obtain ⟨effects, after, hout, hafter, heffects, -⟩ := step_frame W H A env s payloadLen frame
  rw [hout] at he
  rcases heffects with hworkless | rfl
  · exact absurd he ((hworkless.append hafter).notMem hwork)
  rcases handleMessage_opens W H A env s frame with hrests | ⟨⟨decoded, rfl⟩, hopens⟩
  · exact absurd he ((hrests.effects.append hafter).notMem hwork)
  · cases hopens with
    | rests heffects _ _ => exact absurd he ((heffects.append hafter).notMem hwork)
    | first template before opened hpending _ hbefore heq =>
      exact ⟨decoded, template, before, opened, after, rfl, hpending, hbefore, hafter, hout,
        congrArg Handled.effects heq⟩

/-- A frame over the size limit brings no work. -/
theorem isOk_of_frame_work (he : e ∈ (step W H A s ⟨.frame payloadLen frame, env⟩).outputs)
    (hwork : isWork e = true) : (s.guard.checkMessageSize payloadLen).isOk = true := by
  cases hcheck : s.guard.checkMessageSize payloadLen with
  | ok _ => rfl
  | error error =>
    obtain ⟨after, hout, hafter⟩ := finish_adds s [.ban "message too large"]
    have hbanned : step W H A s ⟨.frame payloadLen frame, env⟩ =
        s.finish [.ban "message too large"] := by
      rw [step]
      simp only [hcheck]
    have hworkless : Workless isWork ([.ban "message too large"] : List (Effect Message)) := by
      simp [Workless, isWork]
    rw [hbanned, hout] at he
    exact absurd he ((hworkless.append hafter).notMem hwork)

/-- A request that brings work is within the rate, well formed and admitted. -/
theorem admits_of_work {decoded : Except String OpenExtended}
    (he : e ∈ (handleMessage W H A env s (.openExtended decoded)).effects)
    (hwork : isWork e = true) :
    ∃ o, decoded = .ok o ∧ env.rateOk = true ∧ s.admits A o = true := by
  by_cases hrate : env.rateOk = true
  · rw [handleMessage, if_neg (not_not.mpr hrate)] at he
    by_contra hnone
    push Not at hnone
    have hworkless : Workless isWork (handleOpenExtended W A env s decoded).effects :=
      workless_handleOpenExtended fun o ho => by simpa using hnone o ho hrate
    exact hworkless.notMem hwork he
  · have hlimited : Workless isWork
        (handleMessage W H A env s (.openExtended decoded)).effects := by
      rw [handleMessage, if_pos hrate]
      simp [Workless, isWork]
    exact absurd he (hlimited.notMem hwork)

end FrameWork

/-- A turn gives the device work only if a template is delivered to it while its channel is open, or
if it is given its channel while a template is at hand. -/
theorem step_work {input : Input} {e : Effect Message} (he : e ∈ (step W H A s input).outputs)
    (hwork : isWork e = true) :
    (∃ template clean, input.event = .broadcast template clean ∧ s.channelOpen) ∨
    ∃ payloadLen o, input.event = .frame payloadLen (.openExtended (.ok o)) ∧
      (s.guard.checkMessageSize payloadLen).isOk ∧ input.env.rateOk ∧ s.admits A o ∧
      s.pendingTemplate.isSome := by
  obtain ⟨event, env⟩ := input
  cases event with
  | frame payloadLen frame =>
    obtain ⟨decoded, template, -, -, after, rfl, hpending, -, hafter, hout, -⟩ :=
      opens_of_frame_work he hwork
    have hsize := isOk_of_frame_work he hwork
    rw [hout, List.mem_append] at he
    obtain ⟨o, rfl, hrate, hadmitted⟩ :=
      admits_of_work (he.resolve_right (hafter.notMem hwork)) hwork
    exact Or.inr ⟨payloadLen, o, rfl, hsize, hrate, hadmitted, by rw [hpending]; rfl⟩
  | broadcast template clean =>
    refine Or.inl ⟨template, clean, rfl, ?_⟩
    by_contra hclosed
    obtain ⟨s', effects, hout, hworkless, -⟩ := handleBroadcast_of_closed W env
      (by simpa using hclosed) template clean
    obtain ⟨after, hout', hafter, -⟩ := applyRetarget_adds W env s' effects
    change e ∈ (handleBroadcast W env s template clean).outputs at he
    rw [hout, hout'] at he
    exact (hworkless.append hafter).notMem hwork he
  | lagged missed =>
    obtain ⟨after, hout, hafter, -⟩ := applyRetarget_adds W env s []
    change e ∈ (applyRetarget W env s []).outputs at he
    rw [hout] at he
    exact absurd he ((workless_nil.append hafter).notMem hwork)
  | closed =>
    obtain ⟨after, hout, hafter⟩ := finish_adds s []
    change e ∈ (s.finish []).outputs at he
    rw [hout] at he
    exact absurd he ((workless_nil.append hafter).notMem hwork)

/-- The jobs sent with `future` are future ones. -/
theorem notMem_sendJob_future {newJob : NewExtendedMiningJob} (h : newJob.minNtime.isSome)
    {after : List (Effect Message)} (hbefore : Workless isWork effects)
    (hafter : Workless isWork after) (template : JobTemplate) (cleared : Bool) :
    .send (.newExtendedMiningJob newJob) ∉
      (sendJob W env s template true cleared effects).2.2 ++ after := by
  intro hmem
  obtain ⟨more, hmore, hfuture, -⟩ := sendJob_future W env s effects template cleared
  rw [hmore, List.append_assoc, List.mem_append, List.mem_append] at hmem
  rcases hmem with hmem | hmem | hmem
  · cases hbefore _ hmem
  · rw [hfuture newJob hmem] at h
    cases h
  · cases hafter _ hmem

/-- A job that is not a future one comes from the delivery of a template that is not clean, and is
issued for that template. -/
theorem immediate_of_step {input : Input} {newJob : NewExtendedMiningJob}
    (he : .send (.newExtendedMiningJob newJob) ∈ (step W H A s input).outputs)
    (himmediate : newJob.minNtime.isSome) :
    ∃ template job, input.event = .broadcast template false ∧ s.channelOpen ∧
      SentJob W s template false job newJob ∧
      .core (.issue template job false s.difficulty) ∈ (step W H A s input).outputs := by
  obtain ⟨event, env⟩ := input
  rcases step_work he rfl with ⟨template, clean, rfl, hopen⟩ | ⟨payloadLen, o, rfl, -⟩
  · obtain ⟨s', after, hsame, hafter, hout, -⟩ := handleBroadcast_of_open W env hopen
      template clean
    change _ ∈ (handleBroadcast W env s template clean).outputs at he
    change ∃ template' job, _ ∧ _ ∧ _ ∧ _ ∈ (handleBroadcast W env s template clean).outputs
    rw [hout] at he ⊢
    cases clean with
    | true => exact absurd he (notMem_sendJob_future himmediate workless_nil hafter template true)
    | false =>
      obtain rfl := hsame rfl
      rcases sendJob_immediate W env s' [] template with
        ⟨-, hnothing⟩ | ⟨job, newJob', -, hsent, heffects⟩
      · rw [hnothing] at he
        cases hafter _ he
      · rw [heffects] at he ⊢
        rcases List.mem_append.mp he with hmem | hmem
        · obtain rfl : newJob = newJob' := by simpa using hmem
          exact ⟨template, job, rfl, hopen, hsent, by simp⟩
        · cases hafter _ hmem
  · obtain ⟨_, template, before, opened, after, -, -, hbefore, hafter, hout, heffects⟩ :=
      opens_of_frame_work he rfl
    rw [hout, heffects] at he
    exact absurd he (notMem_sendJob_future himmediate hbefore hafter template false)

end Session

end Sv2

end BtcPool
