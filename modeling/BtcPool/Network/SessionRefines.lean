import BtcPool.Network.Session

/-!
# The Stratum V1 session refines the session core

Each handler has one lemma that says what it did to the core: the actions it recorded are a run of
`Core.machine` from the core before it to the core after it. `Session.refinement` puts them together
for the whole loop. The only turn after which core and actions disagree is a clean
broadcast whose job cannot be built, and that one ends the session.

`step_effects` is the other direction: version bits are negotiated only on request, and a share is
accepted or a block submitted only for a submit of the authorized worker, to a job of the history,
under a key that is new.
-/

namespace BtcPool.Sv1.Session

open Bitcoin BtcPool.Core

variable {R : Core.Rules} {s : Session} {env : Env Message}

/-- What stays true of a session besides the invariant of its core. -/
structure Inv (R : Core.Rules) (s : Session) : Prop where
  network : s.network = R.network
  tag : s.coinbaseTag = R.tag
  template : ∀ template, s.currentTemplate = some template → R.offered template
  ready : ¬ s.core.Idle → s.subscribed ∧ s.authorized

theorem inv_new {cfg : Config} (htag : cfg.pool.coinbaseTag = R.tag)
    {template : Option JobTemplate} (htemplate : ∀ t, template = some t → R.offered t)
    (sessionId : Str) (extranonce1 : Bytes) (now : Instant) :
    (new cfg R.network sessionId extranonce1 template now).Inv R :=
  ⟨rfl, htag, htemplate, fun h => absurd rfl h⟩

/-- The invariant without the template held. -/
theorem Inv.forget (h : s.Inv R) : ({ s with currentTemplate := none } : Session).Inv R :=
  ⟨h.network, h.tag, by simp, h.ready⟩

theorem materialized (htag : s.coinbaseTag = R.tag) {jobId : Str} {template : JobTemplate}
    {job : StratumJob}
    (hoffered : R.offered template) (h : s.materializeJob jobId template = .ok job) :
    s.core.Materialized R template job := by
  unfold materializeJob at h
  split at h
  · cases h
  · rename_i identity hidentity
    have hbuilt := (buildJobForPayout_spec h).2
    rw [htag] at hbuilt
    exact ⟨identity, hidentity, hoffered, hbuilt⟩

/-! ## Handlers -/

theorem handleConfigure_does (hinv : s.Inv R) (id : RequestId) (params : ConfigureParams)
    (hneg : ∀ mask, .negotiate mask ∈ Effect.actions (s.handleConfigure id params).effects →
      R.mayNegotiate s.core mask) :
    Does core Inv R s.core (s.handleConfigure id params).effects
      (s.handleConfigure id params).session := by
  unfold handleConfigure at hneg ⊢
  dsimp only at hneg ⊢
  split
  · rename_i hrolling
    rw [if_pos hrolling] at hneg
    exact ⟨.single (hneg _ List.mem_cons_self), hinv.network, hinv.tag, hinv.template, hinv.ready⟩
  · exact .refl hinv

theorem welcome_does {c : Core} {effects : List (Effect Message)} (h : Does core Inv R c effects s)
    (hready : s.subscribed ∧ s.authorized)
    (hengine : ∀ template, env.engineTemplate = some template → R.offered template)
    (id : RequestId) :
    Does core Inv R c (s.welcome env id effects).effects (s.welcome env id effects).session := by
  unfold welcome
  dsimp only
  split
  · exact h
  · rename_i template htemplate
    have hoffered : R.offered template := by
      cases hcur : s.currentTemplate with
      | none => exact hengine template (by simpa [hcur] using htemplate)
      | some t => exact h.inv.template template (by simpa [hcur] using htemplate)
    split
    · exact h
    · rename_i job hjob
      refine ⟨?_, h.inv.network, h.inv.tag, ?_, fun _ => hready⟩
      · rw [Effect.actions_append]
        exact h.run.append (.single (materialized h.inv.tag hoffered hjob))
      · intro t ht
        obtain rfl : template = t := Option.some.inj ht
        exact hoffered

theorem handleAuthorize_does (hinv : s.Inv R)
    (hengine : ∀ template, env.engineTemplate = some template → R.offered template)
    (id : RequestId) (worker : Str) :
    Does core Inv R s.core (handleAuthorize R.A env s id worker).effects
      (handleAuthorize R.A env s id worker).session := by
  unfold handleAuthorize
  split
  · exact .refl hinv
  · rename_i hsub
    have hsub : s.subscribed = true := by simpa using hsub
    split
    · exact .refl hinv
    · split
      · exact .refl hinv
      · rename_i identity hparse
        have hchecked : identity.Checked R.A R.network :=
          hinv.network ▸ MinerIdentity.checked_of_parse hparse
        split
        · rename_i hsame
          -- another spelling of the name that is held
          obtain ⟨held, hheld, hname⟩ : ∃ held, s.identity = some held ∧
              held.canonicalName = identity.canonicalName := by
            simpa [statsWorker] using hsame
          refine welcome_does ?_ (by exact ⟨hsub, rfl⟩) hengine id
          have hidentify : Enabled R s.core (.identify identity) :=
            ⟨hchecked, Or.inr ⟨held, hheld, hname⟩⟩
          exact ⟨.single hidentify, hinv.network, hinv.tag, hinv.template, fun _ => ⟨hsub, rfl⟩⟩
        · dsimp only
          split
          · exact ⟨.nil _, hinv.network, hinv.tag, hinv.template, hinv.ready⟩
          · refine welcome_does ?_ (by exact ⟨hsub, rfl⟩) hengine id
            refine ⟨?_, hinv.network, hinv.tag, hinv.template, fun _ => ⟨hsub, rfl⟩⟩
            have hactions : Effect.actions ((switchIdentity
                { s with guard := s.guard.recordNewAuthorization.2 } identity).2 ++
                  [.core (.identify identity)]) = [.retire, .identify identity] := by
              unfold switchIdentity
              cases statsWorker { s with guard := s.guard.recordNewAuthorization.2 } <;> rfl
            rw [hactions]
            exact .cons trivial (.single ⟨hchecked, Or.inl ⟨rfl, rfl⟩⟩)

/-! ## Shares -/

theorem refuse_does (hinv : s.Inv R) (id : RequestId) (reason : RejectReason)
    (code : StratumErrCode) :
    Does core Inv R s.core (s.refuse id reason code).effects (s.refuse id reason code).session :=
  ⟨.nil _, hinv.network, hinv.tag, hinv.template, hinv.ready⟩

/-- The share a submit stands for in a session. -/
def shareOf (s : Session) (env : Env Message) (params : SubmitParams) (entry : JobEntry)
    (result : ShareResult) : AcceptedShare where
  session := s.core
  params := params.shareParams s.versionRollingEnabled s.versionRollingMask
  key := params.shareKey
  entry := entry
  floor := s.vardiffCfg.minDifficulty
  now := env.unixTime
  result := result

/-- The submit passes every check of the session but the one for duplicates. -/
structure Submittable (H : Bytes → ByteVec 32) (s : Session) (env : Env Message)
    (params : SubmitParams) (entry : JobEntry) (result : ShareResult) : Prop where
  authorized : s.authorized
  worker : s.worker = some params.worker
  find : s.issuedJobs.find params.jobId = some entry
  valid : validateShareNoDedup H (params.shareParams s.versionRollingEnabled s.versionRollingMask)
    entry.job entry s.extranonce1 s.vardiffCfg.minDifficulty env.unixTime = .ok result

theorem handleSubmit_of_seen {H : Bytes → ByteVec 32} {params : SubmitParams} {entry : JobEntry}
    {result : ShareResult} (h : Submittable H s env params entry result)
    (hseen : params.shareKey ∈ s.shareSet.seen) (id : RequestId) :
    handleSubmit H env s id params =
      s.refuse id .duplicate PoolError.duplicateShare.toStratumError := by
  unfold handleSubmit
  rw [if_neg (by simp [h.authorized, h.worker])]
  simp only [h.find, ShareSet.contains_iff, hseen, if_true]

theorem handleSubmit_of_new {H : Bytes → ByteVec 32} {params : SubmitParams} {entry : JobEntry}
    {result : ShareResult} (h : Submittable H s env params entry result)
    (hnew : params.shareKey ∉ s.shareSet.seen) (id : RequestId) :
    handleSubmit H env s id params = s.acceptShare env id (s.statsWorker.getD params.worker)
      (s.shareOf env params entry result) := by
  unfold handleSubmit
  rw [if_neg (by simp [h.authorized, h.worker])]
  simp only [h.find, ShareSet.contains_iff, hnew, if_false, h.valid]
  rfl

/-- A submit is booked as rejected, or passes every check under a new key. -/
theorem handleSubmit_cases (H : Bytes → ByteVec 32) (env : Env Message) (s : Session)
    (id : RequestId) (params : SubmitParams) :
    (∃ reason, (handleSubmit H env s id params).session = (s.rejectShare reason).2.1 ∧
      (handleSubmit H env s id params).effects = [(s.rejectShare reason).2.2]) ∨
    ∃ entry result, Submittable H s env params entry result ∧
      params.shareKey ∉ s.shareSet.seen := by
  by_cases hauth : ¬ s.authorized ∨ s.worker ≠ some params.worker
  · refine Or.inl ⟨.unauthorized, ?_⟩
    rw [handleSubmit, if_pos hauth]
    exact ⟨rfl, rfl⟩
  · unfold handleSubmit
    rw [if_neg hauth]
    push Not at hauth
    split
    · exact Or.inl ⟨_, rfl, rfl⟩
    · rename_i entry hfind
      split
      · exact Or.inl ⟨_, rfl, rfl⟩
      · rename_i hnew
        dsimp only
        split
        · exact Or.inl ⟨_, rfl, rfl⟩
        · rename_i result hvalid
          exact Or.inr ⟨entry, result, ⟨hauth.1, hauth.2, hfind, hvalid⟩, by simpa using hnew⟩

theorem Submittable.acceptable {params : SubmitParams} {entry : JobEntry} {result : ShareResult}
    (h : Submittable R.H s env params entry result) :
    Acceptable R (s.shareOf env params entry result) where
  mem := (IssuedJobs.mem_of_find h.find).1
  jobId := (IssuedJobs.mem_of_find h.find).2.symm
  extranonce2 := rfl
  ntime := rfl
  nonce := rfl
  valid := h.valid

theorem handleSubmit_does (hinv : s.Inv R) (id : RequestId) (params : SubmitParams)
    (hform : ∀ share, .accept share ∈ Effect.actions (handleSubmit R.H env s id params).effects →
      R.form share) :
    Does core Inv R s.core (handleSubmit R.H env s id params).effects
      (handleSubmit R.H env s id params).session := by
  rcases handleSubmit_cases R.H env s id params with ⟨reason, hs, he⟩ | ⟨entry, result, h, hnew⟩
  · rw [hs, he]
    exact refuse_does hinv id reason .unknown
  · rw [handleSubmit_of_new h hnew] at hform ⊢
    have hactions : Effect.actions (s.acceptShare env id (s.statsWorker.getD params.worker)
        (s.shareOf env params entry result)).effects =
        [.accept (s.shareOf env params entry result)] := actions_acceptEffects ..
    refine ⟨?_, hinv.network, hinv.tag, hinv.template, hinv.ready⟩
    rw [hactions] at hform ⊢
    exact .single ⟨rfl, hnew, h.acceptable, hform _ (by simp)⟩

/-! ## Turns of the loop -/

theorem handleLine_does (hinv : s.Inv R)
    (hengine : ∀ template, env.engineTemplate = some template → R.offered template) (line : Line)
    (hform : ∀ share, .accept share ∈ Effect.actions (handleLine R.H R.A env s line).effects →
      R.form share)
    (hneg : ∀ mask, .negotiate mask ∈ Effect.actions (handleLine R.H R.A env s line).effects →
      R.mayNegotiate s.core mask) :
    Does core Inv R s.core (handleLine R.H R.A env s line).effects
      (handleLine R.H R.A env s line).session := by
  unfold handleLine at hform hneg ⊢
  split
  · exact ⟨.nil _, hinv⟩
  · rename_i hrate
    rw [if_neg hrate] at hform hneg
    cases line with
    | blank => exact .refl hinv
    | malformed => exact .refl hinv
    | badParams id error => exact .refl hinv
    | request id message =>
      cases message with
      | subscribe userAgent =>
        exact ⟨.nil _, hinv.network, hinv.tag, hinv.template, fun h => ⟨rfl, (hinv.ready h).2⟩⟩
      | authorize worker => exact handleAuthorize_does hinv hengine id worker
      | submit params => exact handleSubmit_does hinv id params hform
      | configure params => exact handleConfigure_does hinv id params hneg
      | suggestDifficulty difficulty =>
        exact ⟨.nil _, hinv.network, hinv.tag, hinv.template, hinv.ready⟩
      | extranonceSubscribe => exact .refl hinv
      | unknown method => exact .refl hinv

theorem finish_closes (s : Session) (effects : List (Effect Message)) :
    Closes core Inv s effects (s.finish effects) := .finish s.statsWorker

theorem applyRetarget_closes (env : Env Message) (s : Session) (effects : List (Effect Message)) :
    Closes core Inv s effects (s.applyRetarget env effects) := by
  have hsame : ∀ {R v d}, s.Inv R → Inv R { s with vardiff := v, difficulty := d } :=
    fun h => ⟨h.network, h.tag, h.template, h.ready⟩
  unfold applyRetarget
  dsimp only
  split
  · exact ⟨⟨[], by simp, by simp⟩, rfl, fun h => hsame h⟩
  · rename_i newDiff _
    have hsent := closing_sendMessages env.written [Message.setDifficulty newDiff]
    have hstats := closing_worker (μ := Message) (fun name => .workerVardiff name newDiff)
      (fun _ => trivial)
    split
    · exact ((Closes.refl _).of_append hsent rfl id).of_append (hstats _) rfl fun h => hsame h
    · exact ((finish_closes _ _).of_append hsent rfl id).of_append (hstats _) rfl fun h => hsame h

theorem sendThenRetarget_closes (env : Env Message) (s : Session) (effects : List (Effect Message))
    (messages : List Message) :
    Closes core Inv s effects (s.sendThenRetarget env effects messages) := by
  have hsent := closing_sendMessages env.written messages
  unfold sendThenRetarget
  dsimp only
  split
  · exact (applyRetarget_closes env s _).of_append hsent rfl id
  · exact (finish_closes s _).of_append hsent rfl id

/-- A broadcast, whatever the template held before it. -/
theorem handleBroadcast_run (hinv : ({ s with currentTemplate := none } : Session).Inv R)
    {template : JobTemplate}
    (hoffered : R.offered template) (clean : Bool) :
    ∃ t, (machine R).Run s.core (Effect.actions (s.handleBroadcast env template clean).outputs) t ∧
      ((s.handleBroadcast env template clean).live →
        t = (s.handleBroadcast env template clean).state.core ∧
          (s.handleBroadcast env template clean).state.Inv R) := by
  have htemplate : ∀ t, some template = some t → R.offered t :=
    fun t ht => Option.some.inj ht ▸ hoffered
  unfold handleBroadcast
  dsimp only
  split
  · rename_i hready
    split
    · -- the shares may be cleared without a job to go with it, but the session is over
      refine ⟨s.core, ?_, fun h => by cases h⟩
      rw [(finish_closes _ _).actions_eq]
      exact .nil _
    · rename_i job hjob
      refine (sendThenRetarget_closes env _ _ _).run ?_
      have hmat := materialized hinv.tag hoffered hjob
      cases clean with
      | true =>
        have hrenew : Enabled R s.core (.renew template job s.difficulty) := hmat
        exact ⟨.single hrenew, hinv.network, hinv.tag, htemplate, fun _ => hready⟩
      | false =>
        have hissue : Enabled R s.core (.issue template job false s.difficulty) := hmat
        exact ⟨.single hissue, hinv.network, hinv.tag, htemplate, fun _ => hready⟩
  · rename_i hready
    have hidle : s.core.Idle := by
      by_contra h
      exact hready (hinv.ready h)
    refine (applyRetarget_closes env _ _).run ?_
    cases clean with
    | true =>
      have hclear : Enabled R s.core .clearShares := hidle
      exact ⟨.single hclear, hinv.network, hinv.tag, htemplate, fun h => absurd hidle h⟩
    | false => exact ⟨.nil _, hinv.network, hinv.tag, htemplate, hinv.ready⟩

/-- A clean broadcast after which the session goes on renewed its jobs, or had none. -/
theorem actions_of_clean {template : JobTemplate}
    (hlive : (s.handleBroadcast env template true).live) :
    (∃ job, Effect.actions (s.handleBroadcast env template true).outputs =
      [.renew template job s.difficulty]) ∨
    Effect.actions (s.handleBroadcast env template true).outputs = [.clearShares] := by
  unfold handleBroadcast at hlive ⊢
  dsimp only at hlive ⊢
  split
  · rename_i hready
    rw [if_pos hready] at hlive
    split
    · rename_i e hjob
      rw [hjob] at hlive
      cases hlive
    · rw [(sendThenRetarget_closes ..).actions_eq]
      exact Or.inl ⟨_, rfl⟩
  · rw [(applyRetarget_closes ..).actions_eq]
    exact Or.inr rfl

theorem step_run (hinv : s.Inv R) {input : Input} (hoffers : input.Offers R.offered)
    (hform : ∀ share, .accept share ∈ Effect.actions (step R.H R.A s input).outputs → R.form share)
    (hneg : ∀ mask, .negotiate mask ∈ Effect.actions (step R.H R.A s input).outputs →
      R.mayNegotiate s.core mask) :
    ∃ t, (machine R).Run s.core (Effect.actions (step R.H R.A s input).outputs) t ∧
      ((step R.H R.A s input).live → t = (step R.H R.A s input).state.core ∧
        (step R.H R.A s input).state.Inv R) := by
  unfold step at hform hneg ⊢
  dsimp only at hform hneg ⊢
  split
  · rename_i line hevent
    rw [hevent] at hform hneg
    dsimp only at hform hneg
    split
    · rename_i messages hresult
      have hclose := sendThenRetarget_closes input.env (handleLine R.H R.A input.env s line).session
        (handleLine R.H R.A input.env s line).effects messages
      rw [hresult] at hform hneg
      rw [hclose.actions_eq] at hform hneg
      exact hclose.run (handleLine_does hinv hoffers.2 line hform hneg)
    · rename_i reason hresult
      have hclose := finish_closes (handleLine R.H R.A input.env s line).session
        (handleLine R.H R.A input.env s line).effects
      rw [hresult] at hform hneg
      rw [hclose.actions_eq] at hform hneg
      exact hclose.run (handleLine_does hinv hoffers.2 line hform hneg)
  · rename_i template clean hevent
    exact handleBroadcast_run hinv.forget (hoffers.1 template clean hevent) clean
  · exact (applyRetarget_closes input.env s []).run (.refl hinv)
  · exact (finish_closes s _).run ⟨.nil _, hinv⟩
  · exact (finish_closes s []).run (.refl hinv)

/-- The loop refines the session core, with the templates it is given and whatever it makes sure of
for shares and negotiations. -/
def refinement (R : Core.Rules) : Refinement (process R.H R.A) (machine R) fun s input =>
    input.Offers R.offered ∧
    (∀ share, .accept share ∈ Effect.actions (step R.H R.A s input).outputs → R.form share) ∧
    ∀ mask, .negotiate mask ∈ Effect.actions (step R.H R.A s input).outputs →
      R.mayNegotiate s.core mask where
  abs := core
  action := Effect.action
  Inv := Inv R
  step hinv hC := step_run hinv hC.1 hC.2.1 hC.2.2

/-! ## Where an effect comes from -/

theorem welcome_quiet {effects : List (Effect Message)} (h : ∀ e ∈ effects, e.Quiet)
    (id : RequestId) : ∀ e ∈ (s.welcome env id effects).effects, e.Quiet := by
  unfold welcome
  dsimp only
  split
  · exact h
  · split
    · exact h
    · exact Effect.quiet_concat h trivial

theorem handleAuthorize_quiet (A : AddressLib) (id : RequestId) (worker : Str) :
    ∀ e ∈ (handleAuthorize A env s id worker).effects, e.Quiet := by
  unfold handleAuthorize
  split
  · exact List.forall_mem_nil _
  · split
    · exact List.forall_mem_nil _
    · split
      · exact List.forall_mem_nil _
      · split
        · exact welcome_quiet (by simp [Effect.Quiet, Action.Setup]) id
        · dsimp only
          split
          · exact List.forall_mem_nil _
          · refine welcome_quiet ?_ id
            unfold switchIdentity
            cases statsWorker _ <;> simp [Effect.Quiet, Action.Setup]

theorem handleBroadcast_quiet (template : JobTemplate) (clean : Bool) :
    ∀ e ∈ (s.handleBroadcast env template clean).outputs, e.Quiet := by
  intro e he
  unfold handleBroadcast at he
  dsimp only at he
  split at he
  · split at he
    · exact ((finish_closes _ _).mem he).resolve_left (by simp)
    · rcases (sendThenRetarget_closes ..).mem he with he | hquiet
      · obtain rfl : e = _ := by simpa using he
        cases clean <;> trivial
      · exact hquiet
  · rcases (applyRetarget_closes ..).mem he with he | hquiet
    · cases clean with
      | true =>
        obtain rfl : e = _ := by simpa using he
        trivial
      | false => cases he
    · exact hquiet

/-- The effects of a line other than those every handler may have. -/
theorem handleLine_effects {H : Bytes → ByteVec 32} {A : AddressLib} {line : Line}
    {e : Effect Message} (h : e ∈ (handleLine H A env s line).effects) : e.Quiet ∨
      (∃ id params mask, line = .request id (.configure params) ∧ params.versionRolling ∧
        e = .core (.negotiate mask)) ∨
      ∃ id params entry result, line = .request id (.submit params) ∧
        Submittable H s env params entry result ∧ params.shareKey ∉ s.shareSet.seen ∧
        e ∈ (s.acceptShare env id (s.statsWorker.getD params.worker)
          (s.shareOf env params entry result)).effects := by
  unfold handleLine at h
  split at h
  · rcases List.mem_pair.mp h with rfl | rfl <;> exact Or.inl trivial
  · cases line with
    | request id message =>
      cases message with
      | authorize worker => exact Or.inl (handleAuthorize_quiet A id worker e h)
      | configure params =>
        dsimp only at h
        unfold handleConfigure at h
        dsimp only at h
        split at h
        · rename_i hrolling
          exact Or.inr (Or.inl ⟨id, params, _, rfl, hrolling, by simpa using h⟩)
        · cases h
      | submit params =>
        dsimp only at h
        rcases handleSubmit_cases H env s id params with ⟨reason, -, he⟩ | ⟨entry, result, hs, hnew⟩
        · rw [he] at h
          obtain rfl : e = _ := by simpa using h
          exact Or.inl trivial
        · rw [handleSubmit_of_new hs hnew] at h
          exact Or.inr (Or.inr ⟨id, params, entry, result, rfl, hs, hnew, h⟩)
      | _ => cases h
    | _ => cases h

/-- A turn negotiates only on a request for rolling, and accepts or submits only a share that passed
every check. -/
theorem step_effects {H : Bytes → ByteVec 32} {A : AddressLib} {input : Input} {e : Effect Message}
    (h : e ∈ (step H A s input).outputs) : e.Quiet ∨
      (∃ id params mask, input.event = .line (.request id (.configure params)) ∧
        params.versionRolling ∧ e = .core (.negotiate mask)) ∨
      ∃ id params entry result, input.event = .line (.request id (.submit params)) ∧
        Submittable H s input.env params entry result ∧ params.shareKey ∉ s.shareSet.seen ∧
        e ∈ (s.acceptShare input.env id (s.statsWorker.getD params.worker)
          (s.shareOf input.env params entry result)).effects := by
  unfold step at h
  dsimp only at h
  split at h
  · rename_i line hevent
    have hline : e ∈ (handleLine H A input.env s line).effects ∨ e.Quiet := by
      split at h
      · exact (sendThenRetarget_closes ..).mem h
      · exact (finish_closes ..).mem h
    rcases hline with hline | hquiet
    · rcases handleLine_effects hline with hquiet | ⟨id, params, mask, rfl, hneg⟩ |
        ⟨id, params, entry, result, rfl, haccept⟩
      · exact Or.inl hquiet
      · exact Or.inr (Or.inl ⟨id, params, mask, hevent, hneg⟩)
      · exact Or.inr (Or.inr ⟨id, params, entry, result, hevent, haccept⟩)
    · exact Or.inl hquiet
  · exact Or.inl (handleBroadcast_quiet _ _ e h)
  · exact ((applyRetarget_closes ..).mem h).symm.imp id (by simp)
  · rcases (finish_closes ..).mem h with h | hquiet
    · obtain rfl : e = _ := by simpa using h
      exact Or.inl trivial
    · exact Or.inl hquiet
  · exact ((finish_closes ..).mem h).symm.imp id (by simp)

/-- A share accepted in a turn is that of a submit that passed every check. -/
theorem accept_of_step {H : Bytes → ByteVec 32} {A : AddressLib} {input : Input}
    {share : AcceptedShare} (h : .accept share ∈ Effect.actions (step H A s input).outputs) :
    ∃ id params entry result, input.event = .line (.request id (.submit params)) ∧
      Submittable H s input.env params entry result ∧ params.shareKey ∉ s.shareSet.seen ∧
      share = s.shareOf input.env params entry result := by
  rcases step_effects (Effect.mem_actions.mp h) with hquiet | ⟨_, _, _, _, _, hneg⟩ |
    ⟨id, params, entry, result, hevent, hs, hnew, hmem⟩
  · cases hquiet
  · cases hneg
  · exact ⟨id, params, entry, result, hevent, hs, hnew,
      Action.accept.inj (accept_mem_acceptEffects hmem)⟩

/-- Version bits are negotiated only on a request for rolling. -/
theorem negotiate_of_step {H : Bytes → ByteVec 32} {A : AddressLib} {input : Input} {mask : UInt32}
    (h : .negotiate mask ∈ Effect.actions (step H A s input).outputs) :
    ∃ id params, input.event = .line (.request id (.configure params)) ∧ params.versionRolling := by
  rcases step_effects (Effect.mem_actions.mp h) with hquiet | ⟨id, params, -, hevent, hroll, -⟩ |
    ⟨_, _, _, _, _, _, _, hmem⟩
  · cases hquiet
  · exact ⟨id, params, hevent, hroll⟩
  · cases accept_mem_acceptEffects hmem

/-- A block is submitted only for a submit of which the validator made a block. -/
theorem block_of_step {H : Bytes → ByteVec 32} {A : AddressLib} {input : Input} {height : UInt64}
    {hashHex blockHex worker payout : Str}
    (h : .submitFoundBlock height hashHex blockHex worker payout ∈ (step H A s input).outputs) :
    ∃ id params entry hd hash, input.event = .line (.request id (.submit params)) ∧
      Submittable H s input.env params entry (.block hd blockHex hash) := by
  rcases step_effects h with hquiet | ⟨_, _, _, _, _, hneg⟩ |
    ⟨id, params, entry, result, hevent, hs, hnew, hmem⟩
  · cases hquiet
  · cases hneg
  · obtain ⟨hd, hash, rfl⟩ := block_of_mem_acceptEffects hmem
    exact ⟨id, params, entry, hd, hash, hevent, hs⟩

end BtcPool.Sv1.Session
