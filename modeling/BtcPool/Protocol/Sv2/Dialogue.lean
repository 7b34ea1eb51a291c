import BtcPool.Mining.Retargets
import BtcPool.Protocol.Sv2.SessionRefines

/-!
# What a Stratum V2 session says and when

As for Stratum V1: `View` is the part of a session its messages are about, `Answer` lists what a
handler can do to it together with its messages, and `Retargeted` what the end of a turn can do.
`step_turn` puts a turn together from them.

A device is told its difficulty as a target: once when its channel opens, where the target it
declared bounds the one it gets, and again at every retarget, where it does not.
-/

namespace BtcPool.Sv2

open Bitcoin

/-- A message that carries neither a target nor a job. -/
def Message.Plain : Message → Prop
  | .openExtendedSuccess _ _ _ _ _ => False
  | .setTarget _ _ => False
  | .newExtendedMiningJob _ => False
  | _ => True

/-- What the messages of a session are about. The settings are those of its configuration. -/
structure View where
  difficulty : UInt64
  current : UInt64
  cfg : VardiffConfig
  tag : Str
  total : ℕ
  template : Option JobTemplate
  channelOpen : Bool
  jobs : IssuedJobs

/-- The view of a session. -/
def Session.view (s : Session) : View where
  difficulty := s.difficulty
  current := s.vardiff.current
  cfg := s.vardiff.cfg
  tag := s.coinbaseTag
  total := s.extranonceTotal
  template := s.pendingTemplate
  channelOpen := s.channelOpen
  jobs := s.issuedJobs

/-- The target of a channel opened now. -/
def View.openTarget (v : View) (maxTarget : ByteVec 32) : ByteVec 32 :=
  if sv2TargetLe (difficultyToSv2Target v.difficulty) maxTarget then
    difficultyToSv2Target v.difficulty
  else maxTarget

/-- The message is the job's. -/
def Carries (W : Wire) (job : StratumJob) (m : NewExtendedMiningJob) : Prop :=
  ∃ channelId jobId future, buildNewExtendedJob W job channelId jobId future = .ok m

/-- What a handler may do, with the open it was given and the messages it answers with. A template
comes from those offered. -/
inductive Answer (W : Wire) (offered : JobTemplate → Prop) (v : View) :
    Option OpenExtended → View → List Message → Prop
  | plain {asked : Option OpenExtended} {ms : List Message} (h : ∀ m ∈ ms, m.Plain) :
    Answer W offered v asked v ms
  | opened {o : OpenExtended} (hclosed : v.channelOpen = false) (channelId : UInt32) (size : UInt16)
    (extranoncePrefix : Bytes) :
    Answer W offered v (some o) { v with channelOpen := true }
      [.openExtendedSuccess o.requestId channelId (v.openTarget o.maxTarget) size extranoncePrefix]
  /-- The channel opens and the first job goes out with it. -/
  | started {o : OpenExtended} {job : StratumJob} {m : NewExtendedMiningJob} {more : List Message}
    (hclosed : v.channelOpen = false) (hcarries : Carries W job m) (hmore : ∀ m ∈ more, m.Plain)
    (channelId : UInt32) (size : UInt16) (extranoncePrefix : Bytes)
    (hjob : ∃ template, v.template = some template ∧ BuiltFrom template job) :
    Answer W offered v (some o)
      { v with channelOpen := true, jobs := v.jobs.issue job true v.difficulty }
      (.openExtendedSuccess o.requestId channelId (v.openTarget o.maxTarget) size
        extranoncePrefix ::
        .newExtendedMiningJob m :: more)
  /-- A broadcast on an open channel. -/
  | pushed {template : JobTemplate} {job : StratumJob} {m : NewExtendedMiningJob}
    {more : List Message} (hopen : v.channelOpen) (hoffered : offered template)
    (hcarries : Carries W job m) (hmore : ∀ m ∈ more, m.Plain) (clean : Bool)
    (hjob : BuiltFrom template job) :
    Answer W offered v none
      { v with template := some template, jobs := v.jobs.issue job clean v.difficulty }
      (.newExtendedMiningJob m :: more)
  /-- A broadcast before the channel is open. -/
  | held {template : JobTemplate} (hoffered : offered template) :
    Answer W offered v none { v with template := some template } []

theorem Answer.silent {W : Wire} {offered : JobTemplate → Prop} {v : View}
    {asked : Option OpenExtended} : Answer W offered v asked v [] :=
  .plain (by simp)

/-- What the end of a turn may do: nothing, or move the difficulty within its bounds and say so. -/
inductive Retargeted (v : View) : View → List Message → Prop
  | unchanged : Retargeted v v []
  | changed {d : UInt64} (hopen : v.channelOpen) (hne : d ≠ v.current)
    (hlow : v.cfg.minDifficulty.toNat ≤ d.toNat)
    (hhigh : d.toNat ≤ (v.cfg.top (networkDifficulty v.template)).toNat) (channelId : UInt32) :
    Retargeted v { v with difficulty := d, current := d }
      [.setTarget channelId (difficultyToSv2Target d)]

/-- The settings of a session. -/
def View.settings (v : View) : VardiffConfig × Str × ℕ := (v.cfg, v.tag, v.total)

theorem Answer.settings {W : Wire} {offered : JobTemplate → Prop} {v v' : View}
    {asked : Option OpenExtended} {ms : List Message} (h : Answer W offered v asked v' ms) :
    v'.settings = v.settings := by
  cases h <;> rfl

theorem Retargeted.settings {v v' : View} {ms : List Message} (h : Retargeted v v' ms) :
    v'.settings = v.settings := by
  cases h <;> rfl

/-- The open an input asks for. -/
def Frame.asked : Frame → Option OpenExtended
  | .openExtended (.ok o) => some o
  | _ => none

/-- The channel an input asks for. -/
def Input.asked (input : Input) : Option OpenExtended :=
  match input.event with
  | .frame _ frame => frame.asked
  | _ => none

namespace Session

variable {W : Wire} {offered : JobTemplate → Prop} {env : Surroundings} {s : Session}

/-- What a handler said, and what it left if the session goes on. -/
structure Answers (W : Wire) (offered : JobTemplate → Prop) (v : View) (asked : Option OpenExtended)
    (out : Handled) : Prop where
  answer : ∃ v' ms, Answer W offered v asked v' ms ∧ Effect.messages out.effects <+: ms ∧
    (out.flow = .continue → out.session.view = v' ∧ Effect.messages out.effects = ms)

/-! ## Messages and jobs -/

theorem messages_trySend {message : Message} (h : message.Plain) :
    ∀ m ∈ Effect.messages (trySend W env message), m.Plain := by
  unfold trySend
  split
  · simpa using h
  · simp

/-- A message about nothing here, after other such messages. -/
theorem say_answers {effects : List (Effect Message)} {v : View} {asked : Option OpenExtended}
    (hview : s.view = v) (heffects : ∀ m ∈ Effect.messages effects, m.Plain) {message : Message}
    (hplain : message.Plain) (name : String) :
    Answers W offered v asked (say W env s effects message name) := by
  unfold say
  split
  · refine ⟨v, _, .plain ?_, List.prefix_rfl, fun _ => ⟨hview, rfl⟩⟩
    intro m hm
    rw [Effect.messages_append] at hm
    rcases List.mem_append.mp hm with hm | hm
    · exact heffects m hm
    · obtain rfl : m = message := by simpa using hm
      exact hplain
  · exact ⟨v, _, .plain heffects, List.prefix_rfl, fun h => by cases h⟩
  · exact ⟨v, _, .plain heffects, List.prefix_rfl, fun h => by cases h⟩

/-- A handler that wrote nothing of interest and ends the session. -/
theorem disconnect_answers {v : View} {asked : Option OpenExtended}
    {effects : List (Effect Message)}
    (heffects : ∀ m ∈ Effect.messages effects, m.Plain) (reason : String) :
    Answers W offered v asked ⟨s, effects, .disconnect reason⟩ :=
  ⟨v, _, .plain heffects, List.prefix_rfl, fun h => by cases h⟩

/-- A job that goes out is issued; one that does not may still have been announced. -/
theorem sendJob_messages {template : JobTemplate} {future cleared ok : Bool} {s' : Session}
    {effects effects' : List (Effect Message)}
    (h : sendJob W env s template future cleared effects = (ok, s', effects')) :
    (ok = false ∧ (Effect.messages effects' = Effect.messages effects ∨
      ∃ job m, BuiltFrom template job ∧ Carries W job m ∧
        Effect.messages effects' = Effect.messages effects ++ [.newExtendedMiningJob m])) ∨
    ∃ job m more, ok = true ∧ BuiltFrom template job ∧ Carries W job m ∧ (∀ m ∈ more, m.Plain) ∧
      s'.view = { s.view with jobs := s.issuedJobs.issue job future s.difficulty } ∧
      Effect.messages effects' = Effect.messages effects ++ .newExtendedMiningJob m :: more := by
  cases jobSent_sendJob h with
  | unsent => exact Or.inl ⟨rfl, Or.inl rfl⟩
  | cut hjob hnew =>
    exact Or.inl ⟨rfl, Or.inr ⟨_, _, builtFrom_of_ok hjob, ⟨_, _, _, hnew⟩, by simp⟩⟩
  | sent prev hidentity hjob hnew =>
    have hprev : Effect.messages (prev.map fun setPrev => .send (Message.setNewPrevHash setPrev)) =
        prev.map .setNewPrevHash := by
      rw [Effect.messages, List.filterMap_map]
      exact congrFun List.filterMap_eq_map prev
    refine Or.inr ⟨_, _, prev.map .setNewPrevHash, rfl, builtFrom_of_ok hjob, ⟨_, _, _, hnew⟩, ?_,
      rfl, ?_⟩
    · simp [Message.Plain]
    · rw [Effect.messages_append, Effect.messages_append, Effect.messages_append, hprev]
      simp

/-! ## Opening a channel -/

/-- The first job goes out after the answer to the open, or is cut short. -/
theorem firstJob_answers {effects : List (Effect Message)} {o : OpenExtended}
    {template : JobTemplate} (htemplate : s.pendingTemplate = some template)
    (hclosed : s.channelOpen = false)
    (hsaid : Effect.messages effects = [s.openExtendedSuccess o]) {ok : Bool} {s' : Session}
    {effects' : List (Effect Message)}
    (hsend : sendJob W env { s with channelOpen := true } template true false effects =
      (ok, s', effects')) :
    Answers W offered s.view (some o)
      ⟨s', effects', if ok then .continue else .disconnect "write"⟩ := by
  rcases sendJob_messages hsend with ⟨rfl, hsame | ⟨job, m, hfrom, hcarries, hjob⟩⟩ |
    ⟨job, m, more, rfl, hfrom, hcarries, hmore, hview, hjob⟩
  · refine ⟨_, _, .opened hclosed s.channelId (UInt16.ofNat s.extranonceSize)
      s.extranoncePrefix, ?_, fun h => by cases h⟩
    dsimp only
    rw [hsame, hsaid]
    exact List.prefix_rfl
  · have hnone : ∀ m ∈ ([] : List Message), m.Plain := by simp
    refine ⟨_, _, .started hclosed hcarries hnone s.channelId
      (UInt16.ofNat s.extranonceSize) s.extranoncePrefix ⟨template, htemplate, hfrom⟩, ?_,
      fun h => by cases h⟩
    dsimp only
    rw [hjob, hsaid]
    exact List.prefix_rfl
  · refine ⟨_, _, .started hclosed hcarries hmore s.channelId
      (UInt16.ofNat s.extranonceSize) s.extranoncePrefix ⟨template, htemplate, hfrom⟩, ?_,
      fun _ => ⟨hview, ?_⟩⟩ <;> dsimp only <;> rw [hjob, hsaid]
    · exact List.prefix_rfl
    · rfl

theorem announceChannel_answers {v : View} {effects : List (Effect Message)} (hview : s.view = v)
    (hclosed : v.channelOpen = false) (hquiet : Effect.messages effects = []) (o : OpenExtended) :
    Answers W offered v (some o) (announceChannel W env s o effects) := by
  subst hview
  unfold announceChannel
  split
  · exact disconnect_answers (by simp [hquiet]) _
  · dsimp only
    cases hdeliver : deliver W env (s.openExtendedSuccess o) with
    | unencodable =>
      simp only [say, hdeliver]
      exact disconnect_answers (by simp [hquiet]) _
    | lost =>
      simp only [say, hdeliver]
      exact disconnect_answers (by simp [hquiet]) _
    | sent =>
      simp only [say, hdeliver]
      have hsaid : Effect.messages (effects ++ [.send (s.openExtendedSuccess o)]) =
          [s.openExtendedSuccess o] := by simp [hquiet]
      split
      · refine ⟨_, _, .opened hclosed s.channelId (UInt16.ofNat s.extranonceSize)
          s.extranoncePrefix, ?_, fun _ => ⟨rfl, ?_⟩⟩ <;> rw [hsaid]
        · exact List.prefix_rfl
        · rfl
      · rename_i template htemplate
        exact firstJob_answers htemplate hclosed hsaid rfl

theorem grantChannel_answers {v : View} {effects : List (Effect Message)} (hview : s.view = v)
    (hclosed : v.channelOpen = false) (hquiet : Effect.messages effects = []) (o : OpenExtended)
    (identity : MinerIdentity) (isNew : Bool) :
    Answers W offered v (some o) (grantChannel W env s o identity isNew effects) := by
  unfold grantChannel
  dsimp only
  split
  · refine ⟨v, _, .plain ?_, List.prefix_rfl, fun _ => ⟨hview, rfl⟩⟩
    rw [Effect.messages_append, hquiet, List.nil_append]
    exact messages_trySend trivial
  · refine announceChannel_answers ?_ hclosed ?_ o
    · exact hview
    · cases isNew <;> simp [hquiet]

theorem handleOpenExtended_answers (A : AddressLib) (decoded : Except String OpenExtended) :
    Answers W offered s.view (Frame.asked (.openExtended decoded))
      (handleOpenExtended W A env s decoded) := by
  unfold handleOpenExtended
  split
  · exact disconnect_answers (by simp) _
  · cases decoded with
    | error e => exact disconnect_answers (by simp) _
    | ok o =>
      dsimp only
      split
      · exact say_answers rfl (by simp) (by trivial) _
      · split
        · exact say_answers rfl (by simp) (by trivial) _
        · rename_i identity hparse
          split
          · exact say_answers rfl (by simp) (by trivial) _
          · rename_i hclosed
            have hclosed : s.channelOpen = false := by simpa using hclosed
            split
            · exact grantChannel_answers rfl hclosed rfl o identity false
            · split
              · exact disconnect_answers (by simp) _
              · refine grantChannel_answers ?_ hclosed ?_ o identity true
                · rfl
                · simp [dropIdentity]

/-! ## The other handlers -/

theorem handleSetupConnection_answers (decoded : Except String SetupConn) :
    Answers W offered s.view none (handleSetupConnection W env s decoded) := by
  unfold handleSetupConnection
  split
  · exact disconnect_answers (by simp) _
  · dsimp only
    split
    · exact disconnect_answers (messages_trySend (by trivial)) _
    · split
      · exact disconnect_answers (messages_trySend (by trivial)) _
      · split
        · exact disconnect_answers (messages_trySend (by trivial)) _
        · refine say_answers ?_ (by simp) ?_ _
          · rfl
          · trivial

theorem refuse_answers (seq : UInt32) (reason : RejectReason) (code : String) :
    Answers W offered s.view none (refuse W env s seq reason code) := by
  unfold refuse
  dsimp only
  split
  · exact disconnect_answers (by simp [rejectShare]) _
  · refine say_answers ?_ ?_ ?_ _
    · rfl
    · simp [rejectShare]
    · trivial

theorem handleSubmit_answers (H : Bytes → ByteVec 32) (decoded : Except String SubmitExtended) :
    Answers W offered s.view none (handleSubmit W H env s decoded) := by
  unfold handleSubmit
  split
  · exact disconnect_answers (by simp) _
  · split
    · exact disconnect_answers (by simp) _
    · dsimp only
      split
      · exact refuse_answers _ _ _
      · split
        · exact refuse_answers _ _ _
        · split
          · exact refuse_answers _ _ _
          · split
            · exact refuse_answers _ _ _
            · refine say_answers ?_ ?_ ?_ _
              · rfl
              · simp
              · trivial

theorem handleMessage_answers (H : Bytes → ByteVec 32) (A : AddressLib) (frame : Frame) :
    Answers W offered s.view frame.asked (handleMessage W H A env s frame) := by
  unfold handleMessage
  split
  · exact disconnect_answers (by simp) _
  · cases frame with
    | setupConnection decoded => exact handleSetupConnection_answers decoded
    | openExtended decoded => exact handleOpenExtended_answers A decoded
    | submitExtended decoded => exact handleSubmit_answers H decoded
    | other msgType => exact ⟨s.view, [], .plain (by simp), List.prefix_rfl, fun _ => ⟨rfl, rfl⟩⟩

/-! ## Turns of the loop -/

/-- A turn answers, checks the difficulty and goes on, or ends after a first part of its answer. -/
inductive Turn (W : Wire) (offered : JobTemplate → Prop) (v : View) (asked : Option OpenExtended)
    (out : Outcome Session (Effect Message)) : Prop
  | ended {v₁ : View} {ms : List Message} (hanswer : Answer W offered v asked v₁ ms)
    (hlive : out.live = false) (hpart : Effect.messages out.outputs <+: ms)
  | continued {v₁ : View} {ms₁ ms₂ : List Message} (hanswer : Answer W offered v asked v₁ ms₁)
    (hret : Retargeted v₁ out.state.view ms₂) (hlive : out.live)
    (hall : Effect.messages out.outputs = ms₁ ++ ms₂)

theorem finish_turn {v v₁ : View} {asked : Option OpenExtended} {ms : List Message}
    {effects : List (Effect Message)} (hanswer : Answer W offered v asked v₁ ms)
    (hpart : Effect.messages effects <+: ms) : Turn W offered v asked (s.finish effects) := by
  refine .ended hanswer rfl ?_
  simpa [finish] using hpart

theorem applyRetarget_turn {v : View} {asked : Option OpenExtended} {ms : List Message}
    {effects : List (Effect Message)} (hanswer : Answer W offered v asked s.view ms)
    (hall : Effect.messages effects = ms) :
    Turn W offered v asked (applyRetarget W env s effects) := by
  by_cases hopen : s.channelOpen
  · have hcheck :=
      s.vardiff.checkRetarget_cases env.now (networkDifficulty s.pendingTemplate) env.rate
    unfold applyRetarget
    rw [if_neg (not_not_intro hopen)]
    generalize s.vardiff.checkRetarget env.now (networkDifficulty s.pendingTemplate) env.rate =
      checked at hcheck ⊢
    obtain ⟨newDiff, vardiff⟩ := checked
    dsimp only at hcheck
    obtain ⟨hcfg, ⟨hnone, hcurrent⟩ | ⟨d, hsome, hcurrent, hne, hlow, hhigh⟩⟩ := hcheck
    · subst hnone
      have hview : view { s with vardiff } = s.view := by simp only [view, hcfg, hcurrent]
      have hret : Retargeted s.view (view { s with vardiff }) [] := hview ▸ .unchanged
      exact .continued hanswer hret rfl (by simp only [hall, List.append_nil])
    · subst hsome
      dsimp only
      by_cases hsent : deliver W env (.setTarget s.channelId (difficultyToSv2Target d)) = .sent
      · rw [if_pos hsent]
        have hview : view { s with vardiff, difficulty := d } =
            { s.view with difficulty := d, current := d } := by
          simp only [view, hcfg, hcurrent]
        have hret : Retargeted s.view (view { s with vardiff, difficulty := d })
            [.setTarget s.channelId (difficultyToSv2Target d)] := by
          rw [hview]
          exact Retargeted.changed (v := s.view) (d := d) hopen hne hlow hhigh s.channelId
        exact .continued hanswer hret rfl (by simp [hall])
      · rw [if_neg hsent]
        exact finish_turn hanswer (by simp [hall])
  · have hsame : applyRetarget W env s effects = ⟨s, effects, true⟩ := if_pos hopen
    rw [hsame]
    exact .continued hanswer .unchanged rfl (by simp [hall])

theorem handleBroadcast_turn {template : JobTemplate} (hoffered : offered template) (clean : Bool) :
    Turn W offered s.view none (handleBroadcast W env s template clean) := by
  have hcleared : ∀ cleared : Session,
      cleared = (if clean then { s with shareSet := s.shareSet.clear }
      else s) → cleared.view = s.view ∧ cleared.channelOpen = s.channelOpen ∧
        cleared.issuedJobs = s.issuedJobs ∧ cleared.difficulty = s.difficulty := by
    rintro cleared rfl
    cases clean <;> exact ⟨rfl, rfl, rfl, rfl⟩
  unfold handleBroadcast
  dsimp only
  generalize hc : (if clean then { s with shareSet := s.shareSet.clear } else s) = cleared
  obtain ⟨hview, hchannel, hjobs, hdifficulty⟩ := hcleared cleared hc.symm
  split
  · rename_i hopen
    rcases hsend : sendJob W env cleared template clean clean [] with ⟨ok, s', effects'⟩
    rcases sendJob_messages hsend with ⟨rfl, hsame | ⟨job, m, hfrom, hcarries, hjob⟩⟩ |
      ⟨job, m, more, rfl, hfrom, hcarries, hmore, hview', hjob⟩
    · exact finish_turn .silent (by rw [hsame]; exact List.prefix_rfl)
    · have hnone : ∀ m ∈ ([] : List Message), m.Plain := by simp
      refine finish_turn
        (.pushed (by rw [← hopen, hchannel]; rfl) hoffered hcarries hnone clean hfrom) ?_
      rw [hjob]
      exact List.prefix_rfl
    · refine applyRetarget_turn (v := s.view) ?_ hjob
      have hresult : ({ s' with pendingTemplate := some template } : Session).view =
          { s.view with
            template := some template, jobs := s.view.jobs.issue job clean s.view.difficulty } := by
        refine (congrArg (fun w : View => { w with template := some template }) hview').trans ?_
        rw [hview, hjobs, hdifficulty]
        rfl
      rw [hresult]
      exact .pushed (by rw [← hopen, hchannel]; rfl) hoffered hcarries hmore clean hfrom
  · have hquiet : Effect.messages (if clean then [.core .clearShares] else []) =
        ([] : List Message) := by
      cases clean <;> rfl
    refine applyRetarget_turn (v := s.view) ?_ hquiet
    have hresult : ({ cleared with pendingTemplate := some template } : Session).view =
        { s.view with template := some template } :=
      congrArg (fun w : View => { w with template := some template }) hview
    rw [hresult]
    exact .held hoffered

/-- Every turn of the loop. -/
theorem step_turn {H : Bytes → ByteVec 32} {A : AddressLib} {input : Input}
    (hoffers : input.Offers offered) : Turn W offered s.view input.asked (step W H A s input) := by
  obtain ⟨event, env⟩ := input
  cases event with
  | frame payloadLen frame =>
    unfold step
    dsimp only
    split
    · exact finish_turn .silent List.prefix_rfl
    · obtain ⟨v', ms, hanswer, hpart, hcontinue⟩ : Answers W offered s.view frame.asked
        (handleMessage W H A env s frame) := handleMessage_answers H A frame
      split
      · rename_i hflow
        obtain ⟨rfl, hall⟩ := hcontinue hflow
        exact applyRetarget_turn hanswer hall
      · exact finish_turn hanswer hpart
  | broadcast template clean => exact handleBroadcast_turn (hoffers template clean rfl) clean
  | lagged missed => exact applyRetarget_turn .silent rfl
  | closed => exact finish_turn .silent List.prefix_rfl

/-- What answers and retargets keep of a view and the messages so far holds in every run whose opens
meet a condition on the view before them and on the messages of the turn. -/
theorem run_view {H : Bytes → ByteVec 32} {A : AddressLib} {P : View → List Message → Prop}
    {C : View → Option OpenExtended → List Message → Prop}
    (hanswer : ∀ {v v' asked past ms all}, Answer W offered v asked v' ms → ms <+: all →
      C v asked all → P v past → P v' (past ++ ms))
    (hret : ∀ {v v' past ms}, Retargeted v v' ms → P v past → P v' (past ++ ms))
    {s : Session} {inputs : List Input} (h0 : P s.view [])
    (hopens : (process W H A).Meets (fun s input =>
      C s.view input.asked (Effect.messages (step W H A s input).outputs)) s inputs)
    (hoffers : ∀ input ∈ inputs, input.Offers offered)
    (hlive : ((process W H A).run s inputs).live) :
    P ((process W H A).run s inputs).state.view
      (Effect.messages ((process W H A).run s inputs).outputs) := by
  refine (Process.run_invariant (P := fun past s => P s.view (Effect.messages past))
    (Q := fun _ => True) (fun _ => trivial) ?_ h0 (hopens.and
      (Process.meets_of_forall (fun input hi _ => hoffers input hi) s))).2 hlive
  intro past s input hs hinput
  refine ⟨fun hlive => ?_, trivial⟩
  have hturn : Turn W offered s.view input.asked ((process W H A).step s input) :=
    step_turn hinput.2
  rw [Effect.messages_append]
  cases hturn with
  | ended _ hdead => simp [hdead] at hlive
  | continued ha hr _ hall =>
    rw [hall, ← List.append_assoc]
    exact hret hr (hanswer ha ⟨_, hall.symm⟩ hinput.1 hs)

/-- The settings stay those of the start. -/
theorem run_settings {H : Bytes → ByteVec 32} {A : AddressLib} (s : Session) (inputs : List Input)
    (hlive : ((process W H A).run s inputs).live) :
    ((process W H A).run s inputs).state.view.settings = s.view.settings := by
  have hany : ∀ input ∈ inputs, input.Offers (fun _ => True) := fun _ _ _ _ _ => trivial
  exact run_view (C := fun _ _ _ => True) (P := fun v _ => v.settings = s.view.settings)
    (fun ha _ _ h => ha.settings.trans h) (fun hr h => hr.settings.trans h) rfl
    (Process.meets_of_forall (fun _ _ _ => trivial) s) hany hlive

end Session

end BtcPool.Sv2
