import BtcPool.Network.SessionRefines
import BtcPool.Protocol.Sv2.SessionRefines

/-!
# The presence of a worker

A session counts for one worker name at a time, that of the identity it holds. What it reports to
the statistics about it is a run of a small machine (`presence`): a name enters when none is there,
and only the name that is there leaves. Each turn of a session is such a run, from the identity it
held to the one it holds, or to none if the turn was its last (`Sv1.Session.step_present`,
`Sv2.Session.step_present`).
-/

namespace BtcPool

open Bitcoin

/-- What the calls of a session say about the worker that is there. -/
inductive Passage
  | enter (name : Str)
  | leave (name : Str)
  /-- The name that is there is mentioned. -/
  | keep (name : Str)
  deriving DecidableEq

/-- At most one name is there. -/
def presence : Machine (Option Str) Passage where
  Enabled
    | present, .enter _ => present = none
    | present, .leave name => present = some name
    | present, .keep name => present = some name
  next
    | _, .enter name => some name
    | _, .leave _ => none
    | present, .keep _ => present

/-- The name that was there before a run that ends in `final`. -/
def origin (final : Option Str) : List Passage → Option Str
  | [] => final
  | .enter _ :: _ => none
  | .leave name :: _ => some name
  | .keep name :: _ => some name

theorem origin_of_run {present final : Option Str} {passages : List Passage}
    (h : presence.Run present passages final) : origin final passages = present := by
  cases h with
  | nil => rfl
  | @cons _ _ passage _ hpassage _ => cases passage <;> exact hpassage.symm

/-- What a call says about it. -/
def StatsEvent.passage : StatsEvent → Option Passage
  | workerOnline name _ => some (.enter name)
  | workerOffline name => some (.leave name)
  | workerVardiff name _ => some (.keep name)
  | _ => none

namespace Effect

variable {μ : Type}

/-- The call an effect makes. -/
def event : Effect μ → Option StatsEvent
  | stats event => some event
  | _ => none

/-- What a list of effects does to the presence of the worker. -/
def passages (effects : List (Effect μ)) : List Passage :=
  (effects.filterMap event).filterMap StatsEvent.passage

@[simp] theorem passages_nil : passages ([] : List (Effect μ)) = [] := rfl

@[simp] theorem passages_append (a b : List (Effect μ)) :
    passages (a ++ b) = passages a ++ passages b := by
  rw [passages, List.filterMap_append, List.filterMap_append]
  rfl

@[simp] theorem passages_sendMessages (written : μ → Bool) (messages : List μ) :
    passages (sendMessages written messages).1 = [] := by
  induction messages with
  | nil => rfl
  | cons m messages ih =>
    unfold sendMessages
    split
    · exact ih
    · rfl

@[simp] theorem passages_acceptEffects (submitResult : Except PoolError BlockSubmitOutcome)
    (sessionId worker : Str) (credit : UInt64) (share : AcceptedShare) :
    passages (acceptEffects (μ := μ) submitResult sessionId worker credit share) = [] := by
  unfold acceptEffects
  dsimp only
  split
  · rfl
  · cases submitResult <;> rfl

/-- The worker that is there, if any, leaves. -/
theorem run_leave (present : Option Str) :
    presence.Run present
      (passages (present.map fun name => (stats (.workerOffline name) : Effect μ)).toList)
        none := by
  cases present with
  | none => exact .nil _
  | some name => exact .single rfl

theorem run_keep (present : Option Str) (d : UInt64) :
    presence.Run present
      (passages (present.map fun name => (stats (.workerVardiff name d) : Effect μ)).toList)
      present := by
  cases present with
  | none => exact .nil _
  | some name => exact .single rfl

end Effect

/-! ## Turns -/

section Turns

variable {σ μ : Type} (statsWorker : σ → Option Str)

/-- Effects that take the presence from `present` to that of the worker of a session. -/
def Attends (present : Option Str) (effects : List (Effect μ)) (s : σ) : Prop :=
  presence.Run present (Effect.passages effects) (statsWorker s)

/-- The worker a session counts for after a turn. -/
def Outcome.present (out : Outcome σ (Effect μ)) : Option Str :=
  if out.live then statsWorker out.state else none

variable {statsWorker} {present : Option Str} {effects : List (Effect μ)} {s s' : σ}

theorem Attends.refl : Attends (μ := μ) statsWorker (statsWorker s) [] s := .nil _

/-- Effects that say nothing about the worker. -/
theorem Attends.quiet (h : Attends statsWorker present effects s) (more : List (Effect μ))
    (hmore : Effect.passages more = []) (hs : statsWorker s' = statsWorker s) :
    Attends statsWorker present (effects ++ more) s' := by
  rw [Attends, Effect.passages_append, hmore, List.append_nil, hs]
  exact h

/-- The code after the loop: the worker leaves. -/
theorem Attends.finish (h : Attends statsWorker present effects s) :
    presence.Run present (Effect.passages (effects ++ [.stats .minerDisconnected] ++
      ((statsWorker s).map fun name => .stats (.workerOffline name)).toList)) none := by
  have hdisconnected : Effect.passages [(.stats .minerDisconnected : Effect μ)] = [] := rfl
  rw [Effect.passages_append, Effect.passages_append, hdisconnected, List.append_nil]
  exact Machine.Run.append h (Effect.run_leave _)

end Turns

/-! ## Stratum V1 -/

namespace Sv1.Session

variable {s : Session} {env : Env Message} {present : Option Str} {effects : List (Effect Message)}

theorem welcome_attends (h : Attends statsWorker present effects s) (id : RequestId) :
    Attends statsWorker present (s.welcome env id effects).effects
      (s.welcome env id effects).session := by
  unfold welcome
  dsimp only
  split
  · exact h
  · split
    · exact h
    · exact h.quiet _ rfl rfl

/-- The name held leaves and the new one enters. -/
theorem switchIdentity_attends (identity : MinerIdentity) :
    presence.Run s.statsWorker (Effect.passages (s.switchIdentity identity).2)
      (some identity.canonicalName) := by
  unfold switchIdentity
  dsimp only
  rw [Effect.passages_append]
  exact (Effect.run_leave _).append (.single rfl)

theorem handleAuthorize_attends (A : AddressLib) (id : RequestId) (worker : Str) :
    Attends statsWorker s.statsWorker (handleAuthorize A env s id worker).effects
      (handleAuthorize A env s id worker).session := by
  unfold handleAuthorize
  split
  · exact .refl
  · split
    · exact .refl
    · split
      · exact .refl
      · rename_i identity hparse
        split
        · rename_i hsame
          refine welcome_attends ?_ id
          rw [hsame]
          exact .nil _
        · dsimp only
          split
          · exact .nil _
          · refine welcome_attends ?_ id
            have hswitch := switchIdentity_attends
              (s := { s with guard := s.guard.recordNewAuthorization.2 }) identity
            rw [Attends, Effect.passages_append]
            exact hswitch.append (.nil _)

theorem handleSubmit_attends (H : Bytes → ByteVec 32) (id : RequestId) (params : SubmitParams) :
    Attends statsWorker s.statsWorker (handleSubmit H env s id params).effects
      (handleSubmit H env s id params).session := by
  rcases handleSubmit_cases H env s id params with ⟨reason, hs, he⟩ | ⟨entry, result, h, hnew⟩
  · rw [hs, he]
    exact .nil _
  · rw [handleSubmit_of_new h hnew, Attends]
    unfold acceptShare
    dsimp only
    rw [Effect.passages_acceptEffects]
    exact .nil _

theorem handleLine_attends (H : Bytes → ByteVec 32) (A : AddressLib) (line : Line) :
    Attends statsWorker s.statsWorker (handleLine H A env s line).effects
      (handleLine H A env s line).session := by
  unfold handleLine
  split
  · exact .nil _
  · cases line with
    | blank => exact .refl
    | malformed => exact .refl
    | badParams id error => exact .refl
    | request id message =>
      cases message with
      | configure params =>
        dsimp only
        unfold handleConfigure
        dsimp only
        split
        · exact .nil _
        · exact .refl
      | subscribe userAgent => exact .nil _
      | authorize worker => exact handleAuthorize_attends A id worker
      | submit params => exact handleSubmit_attends H id params
      | suggestDifficulty difficulty => exact .nil _
      | extranonceSubscribe => exact .refl
      | unknown method => exact .refl

theorem finish_present (h : Attends statsWorker present effects s) :
    presence.Run present (Effect.passages (s.finish effects).outputs)
      ((s.finish effects).present statsWorker) :=
  h.finish

theorem applyRetarget_present (h : Attends statsWorker present effects s) :
    presence.Run present (Effect.passages (s.applyRetarget env effects).outputs)
      ((s.applyRetarget env effects).present statsWorker) := by
  unfold applyRetarget
  dsimp only
  split
  · exact h
  · rename_i newDiff hnew
    have hkeep : Attends statsWorker present
        (effects ++ (s.statsWorker.map fun name => .stats (.workerVardiff name newDiff)).toList ++
          (sendMessages env.written [Message.setDifficulty newDiff]).1) s := by
      rw [Attends, Effect.passages_append, Effect.passages_append, Effect.passages_sendMessages,
        List.append_nil]
      exact Machine.Run.append h (Effect.run_keep _ _)
    split
    · exact hkeep
    · exact finish_present hkeep

theorem sendThenRetarget_present (h : Attends statsWorker present effects s)
    (messages : List Message) :
    presence.Run present (Effect.passages (s.sendThenRetarget env effects messages).outputs)
      ((s.sendThenRetarget env effects messages).present statsWorker) := by
  have hsent := h.quiet _ (Effect.passages_sendMessages env.written messages) rfl
  unfold sendThenRetarget
  dsimp only
  split
  · exact applyRetarget_present hsent
  · exact finish_present hsent

theorem handleBroadcast_present (template : JobTemplate) (clean : Bool) :
    presence.Run s.statsWorker (Effect.passages (s.handleBroadcast env template clean).outputs)
      ((s.handleBroadcast env template clean).present statsWorker) := by
  have hcleared : (if clean then { s with shareSet := s.shareSet.clear } else s).statsWorker =
      s.statsWorker := by
    cases clean <;> rfl
  unfold handleBroadcast
  dsimp only
  split
  · split
    · refine finish_present ?_
      rw [← hcleared]
      exact .refl
    · refine sendThenRetarget_present ?_ _
      rw [← hcleared]
      cases clean <;> exact .nil _
  · refine applyRetarget_present ?_
    rw [← hcleared]
    cases clean <;> exact .nil _

/-- A turn takes the presence from the worker before it to the one after it. -/
theorem step_present (H : Bytes → ByteVec 32) (A : AddressLib) (s : Session) (input : Input) :
    presence.Run s.statsWorker (Effect.passages (step H A s input).outputs)
      ((step H A s input).present statsWorker) := by
  unfold step
  cases input.event with
  | line line =>
    have hline : Attends statsWorker s.statsWorker (handleLine H A input.env s line).effects
        (handleLine H A input.env s line).session := handleLine_attends H A line
    dsimp only
    split
    · exact sendThenRetarget_present hline _
    · exact finish_present hline
  | broadcast template clean => exact handleBroadcast_present template clean
  | lagged _ => exact applyRetarget_present .refl
  | oversized => exact finish_present (Attends.refl.quiet _ rfl rfl)
  | closed => exact finish_present .refl

end Sv1.Session

/-! ## Stratum V2 -/

namespace Sv2.Session

variable {W : Wire} {s : Session} {env : Surroundings} {present : Option Str}
  {effects : List (Effect Message)}

theorem say_attends (h : Attends statsWorker present effects s) (message : Message)
    (name : String) :
    Attends statsWorker present (say W env s effects message name).effects
      (say W env s effects message name).session := by
  unfold say
  split
  · exact h.quiet _ rfl rfl
  · exact h
  · exact h

theorem sendJob_attends (h : Attends statsWorker present effects s) (template : JobTemplate)
    (future cleared : Bool) :
    Attends statsWorker present (sendJob W env s template future cleared effects).2.2
      (sendJob W env s template future cleared effects).2.1 := by
  unfold sendJob
  split
  · exact h
  · split
    · exact h
    · dsimp only
      split
      · exact h
      · split
        · exact h
        · split
          · exact (h.quiet [.send _] rfl rfl).quiet _ rfl rfl
          · split
            · exact h.quiet _ rfl rfl
            · split
              · exact h.quiet _ rfl rfl
              · exact (h.quiet [.send _] rfl rfl).quiet _ rfl rfl

theorem announceChannel_attends (h : Attends statsWorker present effects s) (o : OpenExtended) :
    Attends statsWorker present (announceChannel W env s o effects).effects
      (announceChannel W env s o effects).session := by
  have hsame := (say_eq W env s effects (s.openExtendedSuccess o)
    "OpenExtendedMiningChannelSuccess").1
  unfold announceChannel
  dsimp only
  split
  · exact h
  · split
    · exact say_attends h _ _
    · have hsaid : Attends statsWorker present
          (say W env s effects (s.openExtendedSuccess o) "OpenExtendedMiningChannelSuccess").effects
          (say W env s effects (s.openExtendedSuccess o)
            "OpenExtendedMiningChannelSuccess").session :=
        say_attends h _ _
      rw [hsame] at hsaid
      split
      · exact hsaid
      · exact sendJob_attends (s := { s with channelOpen := true }) hsaid _ _ _

/-- The channel is refused and the session left with the worker it has, or the worker it is for
enters. -/
theorem grantChannel_attends {isNew : Bool} {identity : MinerIdentity}
    (h : Attends statsWorker present effects s)
    (hworker : s.statsWorker = if isNew then none else some identity.canonicalName)
    (o : OpenExtended) :
    Attends statsWorker present (grantChannel W env s o identity isNew effects).effects
      (grantChannel W env s o identity isNew effects).session := by
  unfold grantChannel
  dsimp only
  split
  · refine h.quiet _ ?_ rfl
    unfold trySend
    split <;> rfl
  · refine announceChannel_attends ?_ o
    rw [Attends, hworker] at h
    rw [Attends, Effect.passages_append, Effect.passages_append]
    cases isNew with
    | false => exact (h.append (.nil _)).append (.nil _)
    | true => exact (h.append (.nil _)).append (.single rfl)

theorem dropIdentity_attends :
    Attends statsWorker s.statsWorker s.dropIdentity.2 s.dropIdentity.1 := by
  unfold dropIdentity
  dsimp only
  rw [Attends, Effect.passages_append]
  exact (Effect.run_leave _).append (.nil _)

theorem handleOpenExtended_attends (A : AddressLib) (decoded : Except String OpenExtended) :
    Attends statsWorker s.statsWorker (handleOpenExtended W A env s decoded).effects
      (handleOpenExtended W A env s decoded).session := by
  unfold handleOpenExtended
  split
  · exact .refl
  · split
    · exact .refl
    · split
      · exact say_attends .refl _ _
      · split
        · exact say_attends .refl _ _
        · split
          · exact say_attends .refl _ _
          · split
            · rename_i hsame
              exact grantChannel_attends .refl hsame _
            · dsimp only
              split
              · exact .nil _
              · exact grantChannel_attends
                  (dropIdentity_attends (s := { s with guard := s.guard.recordNewAuthorization.2 }))
                  rfl _

theorem handleSubmit_attends (H : Bytes → ByteVec 32) (decoded : Except String SubmitExtended) :
    Attends statsWorker s.statsWorker (handleSubmit W H env s decoded).effects
      (handleSubmit W H env s decoded).session := by
  rcases handleSubmit_cases W H env s decoded with
    ⟨reason, h⟩ | ⟨seq, reason, code, h⟩ | ⟨submit, entry, result, rfl, h, hnew⟩
  · rw [h]
    exact .refl
  · rw [h]
    unfold refuse
    dsimp only
    split
    · exact .nil _
    · refine say_attends ?_ _ _
      exact .nil _
  · rw [handleSubmit_of_new h hnew]
    unfold acceptShare
    dsimp only
    refine say_attends ?_ _ _
    rw [Attends, Effect.passages_acceptEffects]
    exact .nil _

theorem handleSetupConnection_attends (decoded : Except String SetupConn) :
    Attends statsWorker s.statsWorker (handleSetupConnection W env s decoded).effects
      (handleSetupConnection W env s decoded).session := by
  have hrefused : ∀ code flags reason, Attends statsWorker s.statsWorker
      (setupError W env s code flags reason).effects
        (setupError W env s code flags reason).session := by
    intro code flags reason
    unfold setupError trySend
    dsimp only
    split
    · exact .nil _
    · exact .refl
  unfold handleSetupConnection
  cases decoded with
  | error e => exact .refl
  | ok setup =>
    dsimp only
    split
    · exact hrefused _ _ _
    · split
      · exact hrefused _ _ _
      · split
        · exact hrefused _ _ _
        · refine say_attends ?_ _ _
          exact .nil _

theorem handleMessage_attends (H : Bytes → ByteVec 32) (A : AddressLib) (frame : Frame) :
    Attends statsWorker s.statsWorker (handleMessage W H A env s frame).effects
      (handleMessage W H A env s frame).session := by
  unfold handleMessage
  split
  · exact .nil _
  · cases frame with
    | setupConnection decoded => exact handleSetupConnection_attends decoded
    | openExtended decoded => exact handleOpenExtended_attends A decoded
    | submitExtended decoded => exact handleSubmit_attends H decoded
    | other _ => exact .refl

theorem finish_present (h : Attends statsWorker present effects s) :
    presence.Run present (Effect.passages (s.finish effects).outputs)
      ((s.finish effects).present statsWorker) :=
  h.finish

theorem applyRetarget_present (h : Attends statsWorker present effects s) :
    presence.Run present (Effect.passages (applyRetarget W env s effects).outputs)
      ((applyRetarget W env s effects).present statsWorker) := by
  unfold applyRetarget
  split
  · exact h
  · dsimp only
    split
    · exact h
    · rename_i newDiff hnew
      have hkeep : Attends statsWorker present
          (effects ++ (s.statsWorker.map fun name => .stats (.workerVardiff name newDiff)).toList)
          s := by
        rw [Attends, Effect.passages_append]
        exact Machine.Run.append h (Effect.run_keep _ _)
      split
      · exact hkeep.quiet _ rfl rfl
      · exact finish_present hkeep

theorem handleBroadcast_present (template : JobTemplate) (clean : Bool) :
    presence.Run s.statsWorker (Effect.passages (handleBroadcast W env s template clean).outputs)
      ((handleBroadcast W env s template clean).present statsWorker) := by
  have hcleared : (if clean then { s with shareSet := s.shareSet.clear } else s).statsWorker =
      s.statsWorker := by
    cases clean <;> rfl
  unfold handleBroadcast
  dsimp only
  generalize (if clean then { s with shareSet := s.shareSet.clear } else s) = cleared at hcleared ⊢
  rw [← hcleared]
  split
  · have hjob : Attends statsWorker cleared.statsWorker
        (sendJob W env cleared template clean clean []).2.2
        (sendJob W env cleared template clean clean []).2.1 :=
      sendJob_attends .refl template clean clean
    split
    · refine applyRetarget_present ?_
      exact hjob
    · exact finish_present hjob
  · refine applyRetarget_present ?_
    cases clean <;> exact .nil _

theorem step_present (W : Wire) (H : Bytes → ByteVec 32) (A : AddressLib) (s : Session)
    (input : Input) :
    presence.Run s.statsWorker (Effect.passages (step W H A s input).outputs)
      ((step W H A s input).present statsWorker) := by
  unfold step
  cases input.event with
  | frame payloadLen frame =>
    dsimp only
    split
    · exact finish_present (Attends.refl.quiet _ rfl rfl)
    · have hframe : Attends statsWorker s.statsWorker
          (handleMessage W H A input.env s frame).effects
          (handleMessage W H A input.env s frame).session := handleMessage_attends H A frame
      split
      · exact applyRetarget_present hframe
      · exact finish_present hframe
  | broadcast template clean => exact handleBroadcast_present template clean
  | lagged _ => exact applyRetarget_present .refl
  | closed => exact finish_present .refl

end Sv2.Session

end BtcPool
