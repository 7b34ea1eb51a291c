import BtcPool.Mining.Retargets
import BtcPool.Network.SessionRefines

/-!
# What a Stratum V1 session says and when

A turn of the session loop answers an event with messages and then checks the difficulty. `View` is
the part of a session those messages are about: the difficulty, the template held, the version bits,
the jobs issued. `Answer` lists what a handler can do to it together with the messages it answers
with, `Retargeted` what the end of a turn can do.

`step_turn` says that every turn is one of these followed by one of those, unless the session ends
after a first part of the answer. The properties of whole runs are proved from it, without looking
at a handler again.
-/

namespace BtcPool.Sv1

open Bitcoin

/-- A message about neither the difficulty, nor version bits, nor a job. -/
def Message.Plain : Message → Prop
  | .ok _ _ => True
  | .err _ _ => True
  | .subscribe _ _ _ _ => True
  | _ => False

/-- What the messages of a session are about. -/
structure View where
  difficulty : UInt64
  current : UInt64
  cfg : VardiffConfig
  template : Option JobTemplate
  subscribed : Bool
  authorized : Bool
  rolling : Bool
  mask : UInt32
  jobs : IssuedJobs

/-- The view of a session. -/
def Session.view (s : Session) : View where
  difficulty := s.difficulty
  current := s.vardiff.current
  cfg := s.vardiff.cfg
  template := s.currentTemplate
  subscribed := s.subscribed
  authorized := s.authorized
  rolling := s.versionRollingEnabled
  mask := s.versionRollingMask
  jobs := s.issuedJobs

/-- The difficulty a hint becomes. -/
def View.hinted (v : View) (hint : UInt64) : UInt64 :=
  clampU64 hint v.cfg.minDifficulty v.cfg.maxDifficulty

/-- What a handler may do, with the hint it was given and the messages it answers with. A template
comes from those offered. -/
inductive Answer (offered : JobTemplate → Prop) (v : View) :
    Option UInt64 → View → List Message → Prop
  | plain {ms : List Message} (h : ∀ m ∈ ms, m.Plain) : Answer offered v none v ms
  | subscribed {ms : List Message} (h : ∀ m ∈ ms, m.Plain) :
    Answer offered v none { v with subscribed := true } ms
  | configured {rolling : Bool} {mask : UInt32} (hmask : mask &&& ~~~v.mask = 0) (id : RequestId)
    (sub : Bool) :
    Answer offered v none { v with rolling, mask } [.configure id rolling mask v.difficulty sub]
  | hinted (id : RequestId) (hint : UInt64) :
    Answer offered v (some hint) { v with difficulty := v.hinted hint, current := v.hinted hint }
      (.ok id true :: if v.subscribed then [.setDifficulty (v.hinted hint)] else [])
  /-- Authorized while no template is to be had. -/
  | greeted {jobs : IssuedJobs} (hsub : v.subscribed) (hjobs : jobs = v.jobs ∨ jobs = v.jobs.clear)
    (id : RequestId) :
    Answer offered v none { v with authorized := true, jobs }
      [.ok id true, .setDifficulty v.difficulty]
  | welcomed {jobs : IssuedJobs} {template : JobTemplate} (hsub : v.subscribed)
    (hjobs : jobs = v.jobs ∨ jobs = v.jobs.clear)
    (htemplate : v.template = some template ∨ offered template) (id : RequestId) (job : StratumJob)
    (hjob : BuiltFrom template job) :
    Answer offered v none
      { v with
        authorized := true
        template := some template
        jobs := jobs.issue job true v.difficulty }
      [.ok id true, .setDifficulty v.difficulty, .notify (buildNotify job true)]
  /-- A broadcast to a session that is ready for it. -/
  | pushed {template : JobTemplate} (hsub : v.subscribed) (hoffered : offered template)
    (job : StratumJob) (hjob : BuiltFrom template job) (clean : Bool) :
    Answer offered v none
      { v with template := some template, jobs := v.jobs.issue job clean v.difficulty }
      [.setDifficulty v.difficulty, .notify (buildNotify job clean)]
  /-- A broadcast to a session that is not. -/
  | held {template : JobTemplate} (hoffered : offered template) :
    Answer offered v none { v with template := some template } []

theorem Answer.silent {offered : JobTemplate → Prop} {v : View} : Answer offered v none v [] :=
  .plain (by simp)

/-- What the end of a turn may do: nothing, or move the difficulty within its bounds and say so. -/
inductive Retargeted (v : View) : View → List Message → Prop
  | unchanged : Retargeted v v []
  | changed {d : UInt64} (hlow : v.cfg.minDifficulty.toNat ≤ d.toNat)
    (hhigh : d.toNat ≤ (v.cfg.top (networkDifficulty v.template)).toNat) :
    Retargeted v { v with difficulty := d, current := d } [.setDifficulty d]

/-- The hint a line brings. -/
def Line.hint : Line → Option UInt64
  | .request _ (.suggestDifficulty difficulty) => some difficulty
  | _ => none

/-- The hint an input brings, if it is looked at. -/
def Input.hint (input : Input) : Option UInt64 :=
  match input.event with
  | .line line => if input.env.rateOk then line.hint else none
  | _ => none

namespace Session

variable {offered : JobTemplate → Prop} {env : Env Message} {s : Session}

/-! ## Handlers -/

theorem handleConfigure_answer (offered : JobTemplate → Prop) (s : Session) (id : RequestId)
    (params : ConfigureParams) :
    ∃ ms, (s.handleConfigure id params).result = .messages ms ∧
      Answer offered s.view none (s.handleConfigure id params).session.view ms := by
  unfold handleConfigure
  dsimp only
  split
  · refine ⟨_, rfl, Answer.configured ?_ id params.subscribeExtranonce⟩
    -- what is negotiated is a part of the mask held
    cases params.versionRollingMask with
    | none => exact UInt32.and_not_self
    | some m =>
      change m &&& s.versionRollingMask &&& ~~~s.versionRollingMask = 0
      rw [UInt32.and_assoc, UInt32.and_not_self, UInt32.and_zero]
  · exact ⟨_, rfl, Answer.configured UInt32.and_not_self id params.subscribeExtranonce⟩

theorem builtFrom_of_materializeJob {jobId : Str} {template : JobTemplate} {job : StratumJob}
    (h : s.materializeJob jobId template = .ok job) : BuiltFrom template job := by
  unfold materializeJob at h
  split at h
  · cases h
  · exact builtFrom_of_ok h

/-- The jobs of the session that is welcomed are those held or none. -/
theorem welcome_answer {v : View} {jobs : IssuedJobs}
    (hview : s.view = { v with authorized := true, jobs }) (hsub : v.subscribed)
    (hjobs : jobs = v.jobs ∨ jobs = v.jobs.clear)
    (hengine : ∀ template, env.engineTemplate = some template → offered template) (id : RequestId)
    (effects : List (Effect Message)) {ms : List Message}
    (h : (s.welcome env id effects).result = .messages ms) :
    Answer offered v none (s.welcome env id effects).session.view ms := by
  have hdifficulty : s.difficulty = v.difficulty := congrArg View.difficulty hview
  have hissued : s.issuedJobs = jobs := congrArg View.jobs hview
  unfold welcome at h ⊢
  dsimp only at h ⊢
  split
  · rename_i hnone
    simp only [hnone] at h
    cases h
    rw [hview, hdifficulty]
    exact Answer.greeted hsub hjobs id
  · rename_i template htemplate
    simp only [htemplate] at h
    split
    · rename_i e hjob
      simp only [hjob] at h
      cases h
    · rename_i job hjob
      simp only [hjob] at h
      cases h
      have hfrom : v.template = some template ∨ offered template := by
        have hcurrent : s.currentTemplate = v.template := congrArg View.template hview
        cases hv : v.template with
        | none => exact Or.inr (hengine template (by simpa [hcurrent, hv] using htemplate))
        | some t => exact Or.inl (by simpa [hcurrent, hv] using htemplate)
      have hresult : ({ s with
          currentTemplate := some template
          issuedJobs := s.issuedJobs.issue job true s.difficulty } : Session).view =
          { v with
            authorized := true
            template := some template
            jobs := jobs.issue job true v.difficulty } := by
        refine (congrArg (fun w : View => { w with
          template := some template
          jobs := s.issuedJobs.issue job true s.difficulty }) hview).trans ?_
        simp only [hissued, hdifficulty]
      rw [hresult, hdifficulty]
      exact Answer.welcomed hsub hjobs hfrom id job (builtFrom_of_materializeJob hjob)

theorem handleAuthorize_answer (A : AddressLib)
    (hengine : ∀ template, env.engineTemplate = some template → offered template) (id : RequestId)
    (worker : Str) {ms : List Message}
    (h : (handleAuthorize A env s id worker).result = .messages ms) :
    Answer offered s.view none (handleAuthorize A env s id worker).session.view ms := by
  unfold handleAuthorize at h ⊢
  split
  · rename_i hsub
    rw [if_pos hsub] at h
    cases h
    exact .plain (by simp [Message.Plain])
  · rename_i hsub
    rw [if_neg hsub] at h
    have hsub : s.subscribed = true := by simpa using hsub
    split
    · rename_i e hname
      rw [hname] at h
      cases h
      exact .plain (by simp [Message.Plain])
    · rename_i u hname
      rw [hname] at h
      dsimp only at h
      split
      · rename_i e hparse
        rw [hparse] at h
        cases h
        exact .plain (by simp [Message.Plain])
      · rename_i identity hparse
        rw [hparse] at h
        dsimp only at h
        split
        · rename_i hsame
          rw [if_pos hsame] at h
          exact welcome_answer rfl hsub (Or.inl rfl) hengine id _ h
        · rename_i hother
          rw [if_neg hother] at h
          dsimp only at h ⊢
          split
          · rename_i hcap
            rw [if_pos hcap] at h
            cases h
          · rename_i hcap
            rw [if_neg hcap] at h
            exact welcome_answer rfl hsub (Or.inr rfl) hengine id _ h

theorem refuse_answer (id : RequestId) (reason : RejectReason) (code : StratumErrCode)
    {ms : List Message} (h : (s.refuse id reason code).result = .messages ms) :
    Answer offered s.view none (s.refuse id reason code).session.view ms := by
  unfold refuse at h
  dsimp only at h
  split at h
  · cases h
  · cases h
    exact .plain (by simp [Message.Plain])

theorem handleSubmit_answer (H : Bytes → ByteVec 32) (id : RequestId) (params : SubmitParams)
    {ms : List Message} (h : (handleSubmit H env s id params).result = .messages ms) :
    Answer offered s.view none (handleSubmit H env s id params).session.view ms := by
  unfold handleSubmit at h ⊢
  split
  · rename_i hauth
    rw [if_pos hauth] at h
    cases h
    exact .plain (by simp [Message.Plain])
  · rename_i hauth
    rw [if_neg hauth] at h
    split
    · rename_i hfind
      rw [hfind] at h
      exact refuse_answer id _ _ h
    · rename_i entry hfind
      simp only [hfind] at h
      split
      · rename_i hseen
        rw [if_pos hseen] at h
        exact refuse_answer id _ _ h
      · rename_i hnew
        rw [if_neg hnew] at h
        dsimp only at h ⊢
        split
        · rename_i e hvalid
          simp only [hvalid] at h
          exact refuse_answer id _ _ h
        · rename_i result hvalid
          simp only [hvalid] at h
          cases h
          exact .plain (by simp [Message.Plain])

theorem handleLine_answer (H : Bytes → ByteVec 32) (A : AddressLib)
    (hengine : ∀ template, env.engineTemplate = some template → offered template) (line : Line)
    {ms : List Message} (h : (handleLine H A env s line).result = .messages ms) :
    env.rateOk ∧ Answer offered s.view line.hint (handleLine H A env s line).session.view ms := by
  unfold handleLine at h ⊢
  split
  · rename_i hrate
    rw [if_pos hrate] at h
    cases h
  · rename_i hrate
    rw [if_neg hrate] at h
    refine ⟨by simpa using hrate, ?_⟩
    cases line with
    | blank =>
      cases h
      exact .plain (by simp)
    | malformed => cases h
    | badParams id error =>
      cases h
      exact .plain (by simp [Message.Plain])
    | request id message =>
      cases message with
      | configure params =>
        obtain ⟨ms', hresult, hanswer⟩ := handleConfigure_answer offered s id params
        obtain rfl : ms' = ms := HandleResult.messages.inj (hresult.symm.trans h)
        exact hanswer
      | subscribe userAgent =>
        cases h
        exact .subscribed (by simp [Message.Plain])
      | authorize worker => exact handleAuthorize_answer A hengine id worker h
      | submit params => exact handleSubmit_answer H id params h
      | suggestDifficulty difficulty =>
        cases h
        exact .hinted id difficulty
      | extranonceSubscribe =>
        cases h
        exact .plain (by simp [Message.Plain])
      | unknown method =>
        cases h
        exact .plain (by simp [Message.Plain])

/-- A line with a hint that is looked at is answered. -/
theorem hint_of_disconnect {H : Bytes → ByteVec 32} {A : AddressLib} {line : Line} {reason : String}
    (h : (handleLine H A env s line).result = .disconnect reason) :
    Input.hint ⟨.line line, env⟩ = none := by
  unfold Input.hint
  dsimp only
  split
  · rename_i hrate
    unfold Line.hint
    split
    · rw [handleLine, if_neg (by simp [hrate])] at h
      cases h
    · rfl
  · rfl

theorem messages_welcome (env : Env Message) (s : Session) (id : RequestId)
    (effects : List (Effect Message)) :
    Effect.messages (s.welcome env id effects).effects = Effect.messages effects := by
  unfold welcome
  dsimp only
  split
  · rfl
  · split
    · rfl
    · simp

theorem messages_handleAuthorize (A : AddressLib) (env : Env Message) (s : Session) (id : RequestId)
    (worker : Str) : Effect.messages (handleAuthorize A env s id worker).effects = [] := by
  unfold handleAuthorize
  split
  · rfl
  · split
    · rfl
    · split
      · rfl
      · split
        · rw [messages_welcome]
          rfl
        · dsimp only
          split
          · rfl
          · rw [messages_welcome]
            simp [switchIdentity]

/-- A handler writes nothing itself. -/
theorem messages_handleLine (H : Bytes → ByteVec 32) (A : AddressLib) (env : Env Message)
    (s : Session) (line : Line) :
    Effect.messages (handleLine H A env s line).effects = [] := by
  unfold handleLine
  split
  · rfl
  · cases line with
    | request id message =>
      cases message with
      | authorize worker => exact messages_handleAuthorize A env s id worker
      | submit params =>
        dsimp only
        rcases handleSubmit_cases H env s id params with ⟨reason, -, he⟩ | ⟨entry, result, hs, hnew⟩
        · rw [he]
          rfl
        · rw [handleSubmit_of_new hs hnew]
          exact messages_acceptEffects ..
      | configure params =>
        dsimp only
        unfold handleConfigure
        dsimp only
        split <;> rfl
      | _ => rfl
    | _ => rfl

/-! ## Turns of the loop -/

/-- A turn answers, checks the difficulty and goes on, or ends after a first part of its answer. -/
inductive Turn (offered : JobTemplate → Prop) (v : View) (hint : Option UInt64)
    (out : Outcome Session (Effect Message)) : Prop
  | ended {v₁ : View} {ms : List Message} (hanswer : Answer offered v hint v₁ ms)
    (hlive : out.live = false) (hpart : Effect.messages out.outputs <+: ms)
  | continued {v₁ : View} {ms₁ ms₂ : List Message} (hanswer : Answer offered v hint v₁ ms₁)
    (hret : Retargeted v₁ out.state.view ms₂) (hlive : out.live)
    (hall : Effect.messages out.outputs = ms₁ ++ ms₂)

theorem finish_turn {v v₁ : View} {hint : Option UInt64} {ms : List Message}
    {effects : List (Effect Message)} (hanswer : Answer offered v hint v₁ ms)
    (hpart : Effect.messages effects <+: ms) : Turn offered v hint (s.finish effects) := by
  refine .ended hanswer rfl ?_
  simpa [finish] using hpart

theorem applyRetarget_turn {v : View} {hint : Option UInt64} {ms : List Message}
    {effects : List (Effect Message)} (hanswer : Answer offered v hint s.view ms)
    (hall : Effect.messages effects = ms) :
    Turn offered v hint (s.applyRetarget env effects) := by
  obtain ⟨hcfg, ⟨hnone, hcurrent⟩ | ⟨d, hsome, hcurrent, -, hlow, hhigh⟩⟩ :=
    s.vardiff.checkRetarget_cases env.now (networkDifficulty s.currentTemplate) env.rate
  · have hview : (s.applyRetarget env effects).state.view = s.view := by
      simp [applyRetarget, hnone, view, hcfg, hcurrent]
    have hret : Retargeted s.view (s.applyRetarget env effects).state.view [] := hview ▸ .unchanged
    refine .continued hanswer hret ?_ ?_
    · simp [applyRetarget, hnone]
    · simp [applyRetarget, hnone, hall]
  · by_cases hwritten : env.written (.setDifficulty d)
    · have hview : (s.applyRetarget env effects).state.view =
          { s.view with difficulty := d, current := d } := by
        simp [applyRetarget, hsome, sendMessages, hwritten, view, hcfg, hcurrent]
      have hret : Retargeted s.view (s.applyRetarget env effects).state.view [.setDifficulty d] :=
        hview ▸ .changed hlow hhigh
      refine .continued hanswer hret ?_ ?_
      · simp [applyRetarget, hsome, sendMessages, hwritten]
      · simp [applyRetarget, hsome, sendMessages, hwritten, hall]
    · refine .ended hanswer ?_ ?_
      · simp [applyRetarget, hsome, sendMessages, hwritten, finish]
      · simp [applyRetarget, hsome, sendMessages, hwritten, finish, hall]

theorem sendThenRetarget_turn {v : View} {hint : Option UInt64} {ms : List Message}
    {effects : List (Effect Message)} (hanswer : Answer offered v hint s.view ms)
    (hquiet : Effect.messages effects = []) :
    Turn offered v hint (s.sendThenRetarget env effects ms) := by
  obtain ⟨hpart, hall⟩ := messages_sendMessages env.written ms
  unfold sendThenRetarget
  dsimp only
  split
  · rename_i hok
    refine applyRetarget_turn hanswer ?_
    rw [Effect.messages_append, hquiet, hall hok, List.nil_append]
  · refine finish_turn hanswer ?_
    rw [Effect.messages_append, hquiet, List.nil_append]
    exact hpart

theorem handleBroadcast_turn {template : JobTemplate} (hoffered : offered template) (clean : Bool) :
    Turn offered s.view none (s.handleBroadcast env template clean) := by
  unfold handleBroadcast
  dsimp only
  split
  · rename_i hready
    split
    · exact finish_turn .silent List.prefix_rfl
    · rename_i job hjob
      refine sendThenRetarget_turn ?_ rfl
      cases clean <;> exact .pushed hready.1 hoffered job (builtFrom_of_materializeJob hjob) _
  · have hheld : Answer offered s.view none { s.view with template := some template } [] :=
      .held hoffered
    cases clean <;> exact applyRetarget_turn hheld rfl

/-- Every turn of the loop. -/
theorem step_turn {H : Bytes → ByteVec 32} {A : AddressLib} {input : Input}
    (hoffers : input.Offers offered) : Turn offered s.view input.hint (step H A s input) := by
  obtain ⟨event, env⟩ := input
  cases event with
  | line line =>
    have hquiet := messages_handleLine H A env s line
    unfold step
    dsimp only
    split
    · rename_i ms hresult
      obtain ⟨hrate, hanswer⟩ := handleLine_answer H A hoffers.2 line hresult
      have hhint : Input.hint ⟨.line line, env⟩ = line.hint := if_pos hrate
      rw [hhint]
      exact sendThenRetarget_turn hanswer hquiet
    · rename_i reason hresult
      rw [hint_of_disconnect hresult]
      exact finish_turn .silent (by rw [hquiet])
  | broadcast template clean => exact handleBroadcast_turn (hoffers.1 template clean rfl) clean
  | lagged missed => exact applyRetarget_turn .silent rfl
  | oversized => exact finish_turn .silent List.prefix_rfl
  | closed => exact finish_turn .silent List.prefix_rfl

/-- What answers and retargets keep of a view and the messages so far holds in every run. -/
theorem run_view {H : Bytes → ByteVec 32} {A : AddressLib} {P : View → List Message → Prop}
    (hanswer : ∀ {v v' hint past ms}, Answer offered v hint v' ms → P v past → P v' (past ++ ms))
    (hret : ∀ {v v' past ms}, Retargeted v v' ms → P v past → P v' (past ++ ms))
    {s : Session} {inputs : List Input} (h0 : P s.view [])
    (hoffers : ∀ input ∈ inputs, input.Offers offered)
    (hlive : ((process H A).run s inputs).live) :
    P ((process H A).run s inputs).state.view
      (Effect.messages ((process H A).run s inputs).outputs) := by
  refine (Process.run_invariant (C := fun _ input => input.Offers offered)
    (P := fun past s => P s.view (Effect.messages past)) (Q := fun _ => True)
    (fun _ => trivial) ?_ h0 (Process.meets_of_forall (fun input hi _ => hoffers input hi) s)).2
      hlive
  intro past s input hs hinput
  refine ⟨fun hlive => ?_, trivial⟩
  have hturn : Turn offered s.view input.hint ((process H A).step s input) := step_turn hinput
  rw [Effect.messages_append]
  cases hturn with
  | ended _ hdead => simp [hdead] at hlive
  | continued ha hr _ hall =>
    rw [hall, ← List.append_assoc]
    exact hret hr (hanswer ha hs)

end Session

end BtcPool.Sv1
