import BtcPool.Mining.SessionCore

/-!
# What a session does to the world around it

The two session loops answer each event with a list of effects, in order: messages written, events
for the statistics, bans, blocks handed to the engine, and what was done to the core of the session.
`Env` is what they take from the world in a step: the clocks, the verdict of the rate limiter, the
engine's current template and next job id, the estimated rate of the miner, and which writes
succeed.
-/

namespace BtcPool

open Bitcoin

/-! ## Effects -/

/-- What the node says of a block that it took. -/
inductive BlockSubmitOutcome
  | accepted
  | duplicate
  | inconclusive
  deriving DecidableEq

/-- A call a session makes on the statistics. -/
inductive StatsEvent
  | workerOnline (name : Str) (difficulty : UInt64)
  | workerProtocol (name : Str) (protocol : String)
  | workerOffline (name : Str)
  | workerVardiff (name : Str) (difficulty : UInt64)
  | accepted (sessionId worker : Str) (credit hashDifficulty : UInt64)
  | rejected (worker : Str) (reason : RejectReason)
  | rateLimited (worker : Option Str)
  | blockOutcome (outcome : BlockSubmitOutcome) (height : UInt64) (worker payout hashHex : Str)
  | minerDisconnected
  deriving DecidableEq

/-- An effect of a session that writes messages of the type `μ`. -/
inductive Effect (μ : Type)
  | send (message : μ)
  | core (action : Core.Action)
  | stats (event : StatsEvent)
  | ban (reason : String)
  | submitFoundBlock (height : UInt64) (hashHex blockHex worker payout : Str)

variable {μ : Type}

namespace Effect

/-- What was done to the core. -/
def action : Effect μ → Option Core.Action
  | core action => some action
  | _ => none

/-- The actions recorded in a list of effects. -/
def actions (effects : List (Effect μ)) : List Core.Action := effects.filterMap action

@[simp] theorem actions_nil : actions ([] : List (Effect μ)) = [] := rfl

@[simp] theorem actions_append (a b : List (Effect μ)) :
    actions (a ++ b) = actions a ++ actions b := List.filterMap_append

@[simp] theorem actions_core (a : Core.Action) (effects : List (Effect μ)) :
    actions (core a :: effects) = a :: actions effects := rfl

@[simp] theorem actions_send (m : μ) (effects : List (Effect μ)) :
    actions (send m :: effects) = actions effects := rfl

@[simp] theorem actions_stats (e : StatsEvent) (effects : List (Effect μ)) :
    actions (stats e :: effects) = actions effects := rfl

@[simp] theorem actions_ban (r : String) (effects : List (Effect μ)) :
    actions (ban r :: effects) = actions effects := rfl

@[simp] theorem actions_submitFoundBlock (h : UInt64) (x b w p : Str) (effects : List (Effect μ)) :
    actions (submitFoundBlock h x b w p :: effects) = actions effects := rfl

theorem mem_actions {a : Core.Action} {effects : List (Effect μ)} :
    a ∈ actions effects ↔ core a ∈ effects := by
  constructor
  · intro h
    obtain ⟨e, he, ha⟩ := List.mem_filterMap.mp h
    cases e <;> simp [action] at ha
    rwa [← ha]
  · exact fun h => List.mem_filterMap.mpr ⟨_, h, rfl⟩

/-- The message an effect writes. -/
def message : Effect μ → Option μ
  | send m => some m
  | _ => none

/-- The messages written by a list of effects. -/
def messages (effects : List (Effect μ)) : List μ := effects.filterMap message

theorem mem_messages {m : μ} {effects : List (Effect μ)} :
    m ∈ messages effects ↔ send m ∈ effects := by
  constructor
  · intro h
    obtain ⟨e, he, hm⟩ := List.mem_filterMap.mp h
    cases e <;> simp [message] at hm
    rwa [← hm]
  · exact fun h => List.mem_filterMap.mpr ⟨_, h, rfl⟩

@[simp] theorem messages_nil : messages ([] : List (Effect μ)) = [] := rfl

@[simp] theorem messages_append (a b : List (Effect μ)) :
    messages (a ++ b) = messages a ++ messages b := List.filterMap_append

@[simp] theorem messages_send (m : μ) (effects : List (Effect μ)) :
    messages (send m :: effects) = m :: messages effects := rfl

@[simp] theorem messages_core (a : Core.Action) (effects : List (Effect μ)) :
    messages (core a :: effects) = messages effects := rfl

@[simp] theorem messages_stats (e : StatsEvent) (effects : List (Effect μ)) :
    messages (stats e :: effects) = messages effects := rfl

@[simp] theorem messages_ban (r : String) (effects : List (Effect μ)) :
    messages (ban r :: effects) = messages effects := rfl

@[simp] theorem messages_submitFoundBlock (h : UInt64) (x b w p : Str) (effects : List (Effect μ)) :
    messages (submitFoundBlock h x b w p :: effects) = messages effects := rfl

@[simp] theorem messages_worker (event : Str → StatsEvent) (worker : Option Str) :
    messages (worker.map fun name => (stats (event name) : Effect μ)).toList = [] := by
  cases worker <;> rfl

/-- Whether an effect submits a block. -/
def isFoundBlock : Effect μ → Bool
  | submitFoundBlock _ _ _ _ _ => true
  | _ => false

theorem exists_of_isFoundBlock {effects : List (Effect μ)} (h : effects.any isFoundBlock) :
    ∃ height hashHex blockHex worker payout,
      submitFoundBlock height hashHex blockHex worker payout ∈ effects := by
  obtain ⟨e, he, hblock⟩ := List.any_eq_true.mp h
  cases e with
  | submitFoundBlock height hashHex blockHex worker payout =>
    exact ⟨height, hashHex, blockHex, worker, payout, he⟩
  | _ => cases hblock

/-- An effect that does not negotiate, accept a share or submit a block. -/
def Quiet : Effect μ → Prop
  | core a => a.Setup
  | submitFoundBlock _ _ _ _ _ => False
  | _ => True

theorem quiet_concat {effects : List (Effect μ)} {e : Effect μ} (h : ∀ x ∈ effects, x.Quiet)
    (he : e.Quiet) : ∀ x ∈ effects ++ [e], x.Quiet :=
  List.forall_mem_append.mpr ⟨h, List.forall_mem_singleton.mpr he⟩

end Effect

/-! ## Inputs -/

/-- What a session finds around it in a turn. -/
structure Env (μ : Type) where
  now : Instant
  unixTime : UInt32
  rateOk : Bool
  engineTemplate : Option JobTemplate
  jobId : Str
  submitResult : Except PoolError BlockSubmitOutcome
  rate : Bool → ℚ
  written : μ → Bool

/-- A turn in which nothing is refused and every write succeeds. -/
def Env.regtest (jobId : Str) : Env μ where
  now := 0
  unixTime := regtestTemplate.curTime
  rateOk := true
  engineTemplate := some regtestTemplate
  jobId := jobId
  submitResult := .ok .accepted
  rate _ := 0
  written _ := true

/-- Write messages one after the other until a write fails. -/
def sendMessages (written : μ → Bool) : List μ → List (Effect μ) × Bool
  | [] => ([], true)
  | m :: ms =>
    if written m then
      let (effects, ok) := sendMessages written ms
      (.send m :: effects, ok)
    else ([], false)

@[simp] theorem actions_sendMessages (written : μ → Bool) (ms : List μ) :
    Effect.actions (sendMessages written ms).1 = [] := by
  induction ms with
  | nil => rfl
  | cons m ms ih =>
    unfold sendMessages
    split
    · exact ih
    · rfl

/-- What is written is a first part of the messages, and all of them if no write failed. -/
theorem messages_sendMessages (written : μ → Bool) (ms : List μ) :
    Effect.messages (sendMessages written ms).1 <+: ms ∧
      ((sendMessages written ms).2 → Effect.messages (sendMessages written ms).1 = ms) := by
  induction ms with
  | nil => exact ⟨List.prefix_rfl, fun _ => rfl⟩
  | cons m ms ih =>
    unfold sendMessages
    split
    · exact ⟨(List.prefix_cons_inj m).mpr ih.1, fun h => congrArg (m :: ·) (ih.2 h)⟩
    · exact ⟨List.nil_prefix, fun h => by cases h⟩

/-! ## Shares -/

/-- The effects of an accepted share: the block is submitted first if it is one, then the share is
booked, then the outcome of the submission. -/
def acceptEffects (submitResult : Except PoolError BlockSubmitOutcome) (sessionId worker : Str)
    (credit : UInt64) (share : AcceptedShare) : List (Effect μ) :=
  let job := share.entry.job
  match share.result with
  | .valid _ hashDifficulty _ =>
    [.core (.accept share), .stats (.accepted sessionId worker credit hashDifficulty)]
  | .block hashDifficulty blockHex hash =>
    let hashHex := blockHashDisplay hash
    [.core (.accept share), .submitFoundBlock job.height hashHex blockHex worker job.payoutAddress,
      .stats (.accepted sessionId worker credit hashDifficulty)] ++
    match submitResult with
    | .ok outcome => [.stats (.blockOutcome outcome job.height worker job.payoutAddress hashHex)]
    | .error _ => []

@[simp] theorem actions_acceptEffects (submitResult : Except PoolError BlockSubmitOutcome)
    (sessionId worker : Str) (credit : UInt64) (share : AcceptedShare) :
    Effect.actions (acceptEffects (μ := μ) submitResult sessionId worker credit share) =
      [.accept share] := by
  unfold acceptEffects
  dsimp only
  split
  · rfl
  · cases submitResult <;> rfl

@[simp] theorem messages_acceptEffects (submitResult : Except PoolError BlockSubmitOutcome)
    (sessionId worker : Str) (credit : UInt64) (share : AcceptedShare) :
    Effect.messages (acceptEffects (μ := μ) submitResult sessionId worker credit share) = [] := by
  unfold acceptEffects
  dsimp only
  split
  · rfl
  · cases submitResult <;> rfl

theorem accept_mem_acceptEffects {submitResult : Except PoolError BlockSubmitOutcome}
    {sessionId worker : Str} {credit : UInt64} {share : AcceptedShare} {a : Core.Action}
    (h : (.core a : Effect μ) ∈ acceptEffects submitResult sessionId worker credit share) :
    a = .accept share := by
  simpa using Effect.mem_actions.mpr h

theorem rejected_notMem_acceptEffects {submitResult : Except PoolError BlockSubmitOutcome}
    {sessionId worker name : Str} {credit : UInt64} {share : AcceptedShare}
    {reason : RejectReason} :
    (.stats (.rejected name reason) : Effect μ) ∉
      acceptEffects submitResult sessionId worker credit share := by
  unfold acceptEffects
  dsimp only
  split
  · simp
  · cases submitResult <;> simp

/-- A block is submitted only for a share that is one. -/
theorem block_of_mem_acceptEffects {submitResult : Except PoolError BlockSubmitOutcome}
    {sessionId worker : Str} {credit : UInt64} {share : AcceptedShare} {height : UInt64}
    {hashHex blockHex name payout : Str}
    (h : (.submitFoundBlock height hashHex blockHex name payout : Effect μ) ∈
      acceptEffects submitResult sessionId worker credit share) :
    ∃ hd hash, share.result = .block hd blockHex hash := by
  unfold acceptEffects at h
  dsimp only at h
  split at h
  · simp at h
  · rename_i hd hex hash hresult
    have heq : blockHex = hex := by
      cases submitResult <;> simp at h <;> exact h.2.2.1
    exact ⟨hd, hash, heq ▸ hresult⟩

/-! ## Turns of a session loop -/

/-- The effects of the end of a turn or of the session. -/
def Closing : Effect μ → Prop
  | .send _ => True
  | .stats (.workerVardiff _ _) => True
  | .stats (.workerOffline _) => True
  | .stats .minerDisconnected => True
  | _ => False

theorem closing_sendMessages (written : μ → Bool) (messages : List μ) :
    ∀ e ∈ (sendMessages written messages).1, Closing e := by
  induction messages with
  | nil => simp [sendMessages]
  | cons m messages ih =>
    unfold sendMessages
    split
    · simpa [Closing] using ih
    · simp

/-- An event about the worker, if there is one. -/
theorem closing_worker (event : Str → StatsEvent)
    (h : ∀ name, Closing (.stats (event name) : Effect μ)) (worker : Option Str) :
    ∀ e ∈ (worker.map fun name => (.stats (event name) : Effect μ)).toList, Closing e := by
  cases worker with
  | none => simp
  | some name => simpa using h name

section Turns

variable {σ : Type} (core : σ → Core) (Inv : Core.Rules → σ → Prop)

/-- What a handler did to the core, from `c` on, and that it keeps the session's invariant. -/
structure Does (R : Core.Rules) (c : Core) (effects : List (Effect μ)) (s : σ) : Prop where
  run : (Core.machine R).Run c (Effect.actions effects) (core s)
  inv : Inv R s

/-- The outcome adds only closing effects to those given, and keeps the core and the invariant. -/
structure Closes (s : σ) (effects : List (Effect μ)) (out : Outcome σ (Effect μ)) : Prop where
  outputs : ∃ tail, out.outputs = effects ++ tail ∧ ∀ e ∈ tail, Closing e
  core_eq : core out.state = core s
  inv : ∀ {R}, Inv R s → Inv R out.state

variable {core Inv} {s s' : σ} {effects more : List (Effect μ)} {out : Outcome σ (Effect μ)}

theorem Does.refl {R : Core.Rules} (h : Inv R s) :
    Does core Inv R (core s) ([] : List (Effect μ)) s :=
  ⟨.nil _, h⟩

theorem Closes.refl (live : Bool) : Closes core Inv s effects ⟨s, effects, live⟩ :=
  ⟨⟨[], by simp, by simp⟩, rfl, id⟩

/-- Closing effects before the close. -/
theorem Closes.of_append (h : Closes core Inv s' (effects ++ more) out)
    (hmore : ∀ e ∈ more, Closing e) (hcore : core s' = core s)
    (hinv : ∀ {R}, Inv R s → Inv R s') :
    Closes core Inv s effects out := by
  obtain ⟨⟨tail, hout, htail⟩, hc, hi⟩ := h
  refine ⟨⟨more ++ tail, by rw [hout, List.append_assoc], fun e he => ?_⟩, hc.trans hcore,
    fun h => hi (hinv h)⟩
  rcases List.mem_append.mp he with he | he
  · exact hmore e he
  · exact htail e he

theorem Closes.actions_eq (h : Closes core Inv s effects out) :
    Effect.actions out.outputs = Effect.actions effects := by
  obtain ⟨tail, hout, htail⟩ := h.outputs
  have hnone : Effect.actions tail = [] := by
    refine List.filterMap_eq_nil_iff.mpr fun e he => ?_
    have hclosing := htail e he
    cases e with
    | core a => cases hclosing
    | _ => rfl
  rw [hout, Effect.actions_append, hnone, List.append_nil]

/-- An effect of the turn was there before the close, or is a quiet one. -/
theorem Closes.mem (h : Closes core Inv s effects out) {e : Effect μ} (he : e ∈ out.outputs) :
    e ∈ effects ∨ e.Quiet := by
  obtain ⟨tail, hout, htail⟩ := h.outputs
  rw [hout, List.mem_append] at he
  refine he.imp id fun he => ?_
  have hclosing := htail e he
  cases e with
  | core a => cases hclosing
  | submitFoundBlock _ _ _ _ _ => cases hclosing
  | _ => trivial

/-- A turn whose handler did something to the core, and then closed. -/
theorem Closes.run {R : Core.Rules} {c : Core} (h : Closes core Inv s effects out)
    (hdoes : Does core Inv R c effects s) :
    ∃ t, (Core.machine R).Run c (Effect.actions out.outputs) t ∧
      (out.live → t = core out.state ∧ Inv R out.state) := by
  refine ⟨core s, ?_, fun _ => ⟨h.core_eq.symm, h.inv hdoes.inv⟩⟩
  rw [h.actions_eq]
  exact hdoes.run

/-- The effects of the end of a session. -/
theorem Closes.finish (worker : Option Str) : Closes core Inv s effects ⟨s, effects ++
    [.stats .minerDisconnected] ++ (worker.map fun name => .stats (.workerOffline name)).toList,
    false⟩ := by
  refine ⟨⟨_, by rw [List.append_assoc], fun e he => ?_⟩, rfl, id⟩
  rcases List.mem_append.mp he with he | he
  · obtain rfl : e = .stats .minerDisconnected := by simpa using he
    trivial
  · exact closing_worker .workerOffline (fun _ => trivial) _ e he

end Turns

end BtcPool
