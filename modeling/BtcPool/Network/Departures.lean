import BtcPool.Network.SessionRefines
import BtcPool.Protocol.Sv2.SessionRefines

/-!
# How a turn of a session ends

Most effects of a session are `Routine`: neither a share booked, nor the outcome of a block, nor the
end of the session. After what its handler did, a turn adds routine effects only, and the end of the
session once if it is over (`Concludes`); only the handler of a submit does anything else.

Two effects concern what all connections share: the ban of the address, and the end of the session,
by which `connected_miners` goes down (`Chore`). A turn reports the end of the session exactly if it
is the last one, and once (`Sv1.Session.step_departs`, `Sv2.Session.step_departs`).
-/

namespace BtcPool

open Bitcoin

namespace Effect

variable {μ : Type}

/-- An effect that neither books a share nor says farewell. -/
def Routine : Effect μ → Prop
  | stats (.accepted _ _ _ _) => False
  | stats (.rejected _ _) => False
  | stats (.blockOutcome _ _ _ _ _) => False
  | stats .minerDisconnected => False
  | _ => True

/-- All effects are so. -/
def AllRoutine (effects : List (Effect μ)) : Prop := ∀ e ∈ effects, e.Routine

@[simp] theorem allRoutine_nil : AllRoutine ([] : List (Effect μ)) := fun _ he => by cases he

@[simp] theorem allRoutine_cons {e : Effect μ} {effects : List (Effect μ)} :
    AllRoutine (e :: effects) ↔ e.Routine ∧ AllRoutine effects := List.forall_mem_cons

@[simp] theorem allRoutine_append {a b : List (Effect μ)} :
    AllRoutine (a ++ b) ↔ AllRoutine a ∧ AllRoutine b := List.forall_mem_append

@[simp] theorem allRoutine_sendMessages (written : μ → Bool) (messages : List μ) :
    AllRoutine (sendMessages written messages).1 := by
  induction messages with
  | nil => exact allRoutine_nil
  | cons m messages ih =>
    unfold sendMessages
    split
    · exact allRoutine_cons.mpr ⟨trivial, ih⟩
    · exact allRoutine_nil

@[simp] theorem allRoutine_offline (worker : Option Str) :
    AllRoutine (worker.map fun name => (stats (.workerOffline name) : Effect μ)).toList := by
  cases worker <;> simp [Routine]

@[simp] theorem allRoutine_vardiff (worker : Option Str) (d : UInt64) :
    AllRoutine (worker.map fun name => (stats (.workerVardiff name d) : Effect μ)).toList := by
  cases worker <;> simp [Routine]

end Effect

open Effect

/-- What a turn comes to after the effects of its handler. -/
inductive Concludes {σ μ : Type} (effects : List (Effect μ)) (out : Outcome σ (Effect μ)) : Prop
  | goesOn (tail : List (Effect μ)) (houtputs : out.outputs = effects ++ tail)
      (htail : AllRoutine tail) (hlive : out.live = true)
  | ends (before after : List (Effect μ))
      (houtputs : out.outputs = effects ++ before ++ .stats .minerDisconnected :: after)
      (hbefore : AllRoutine before) (hafter : AllRoutine after) (hdead : out.live = false)

/-- Routine effects before the turn concludes. -/
theorem Concludes.of_append {σ μ : Type} {effects more : List (Effect μ)}
    {out : Outcome σ (Effect μ)} (h : Concludes (effects ++ more) out) (hmore : AllRoutine more) :
    Concludes effects out := by
  cases h with
  | goesOn tail houtputs htail hlive =>
    exact .goesOn (more ++ tail) (by rw [houtputs, List.append_assoc])
      (allRoutine_append.mpr ⟨hmore, htail⟩) hlive
  | ends before after houtputs hbefore hafter hdead =>
    exact .ends (more ++ before) after (by rw [houtputs, List.append_assoc effects])
      (allRoutine_append.mpr ⟨hmore, hbefore⟩) hafter hdead

/-! ## Stratum V1 -/

namespace Sv1.Session

variable {s : Session} {env : Env Message} {effects : List (Effect Message)}

theorem finish_concludes (s : Session) (effects : List (Effect Message)) :
    Concludes effects (s.finish effects) :=
  .ends [] _ (by simp only [finish, List.append_nil, List.append_assoc, List.singleton_append])
    allRoutine_nil (allRoutine_offline s.statsWorker) rfl

theorem applyRetarget_concludes (env : Env Message) (s : Session)
    (effects : List (Effect Message)) :
    Concludes effects (s.applyRetarget env effects) := by
  unfold applyRetarget
  dsimp only
  split
  · exact .goesOn [] (by simp) allRoutine_nil rfl
  · split
    · exact .goesOn _ (List.append_assoc _ _ _) (by simp) rfl
    · rw [List.append_assoc]
      exact (finish_concludes _ _).of_append (by simp)

theorem sendThenRetarget_concludes (env : Env Message) (s : Session)
    (effects : List (Effect Message))
    (messages : List Message) : Concludes effects (s.sendThenRetarget env effects messages) := by
  unfold sendThenRetarget
  dsimp only
  split
  · exact (applyRetarget_concludes _ _ _).of_append (allRoutine_sendMessages _ _)
  · exact (finish_concludes _ _).of_append (allRoutine_sendMessages _ _)

theorem welcome_routine (h : AllRoutine effects) (id : RequestId) :
    AllRoutine (s.welcome env id effects).effects := by
  unfold welcome
  dsimp only
  split
  · exact h
  · split
    · exact h
    · exact allRoutine_append.mpr ⟨h, by simp [Routine]⟩

theorem handleAuthorize_routine (A : AddressLib) (id : RequestId) (worker : Str) :
    AllRoutine (handleAuthorize A env s id worker).effects := by
  unfold handleAuthorize
  split
  · exact allRoutine_nil
  · split
    · exact allRoutine_nil
    · split
      · exact allRoutine_nil
      · split
        · exact welcome_routine (by simp [Routine]) id
        · dsimp only
          split
          · exact allRoutine_nil
          · exact welcome_routine (by simp [switchIdentity, Routine]) id

/-- Whether a line is a submit that is handled. -/
def submits (env : Env Message) : Line → Bool
  | .request _ (.submit _) => env.rateOk
  | _ => false

theorem handleLine_routine (H : Bytes → ByteVec 32) (A : AddressLib) {line : Line}
    (h : submits env line = false) : AllRoutine (handleLine H A env s line).effects := by
  unfold handleLine
  split
  · simp [Routine]
  · rename_i hrate
    cases line with
    | blank => exact allRoutine_nil
    | malformed => exact allRoutine_nil
    | badParams id error => exact allRoutine_nil
    | request id message =>
      cases message with
      | configure params =>
        dsimp only
        unfold handleConfigure
        dsimp only
        split <;> simp [Routine]
      | subscribe userAgent => exact allRoutine_nil
      | authorize worker => exact handleAuthorize_routine A id worker
      | submit params => exact absurd h (by simpa [submits] using hrate)
      | suggestDifficulty difficulty => exact allRoutine_nil
      | extranonceSubscribe => exact allRoutine_nil
      | unknown method => exact allRoutine_nil

theorem handleBroadcast_concludes (env : Env Message) (s : Session) (template : JobTemplate)
    (clean : Bool) :
    ∃ effects, AllRoutine effects ∧ Concludes effects (s.handleBroadcast env template clean) := by
  unfold handleBroadcast
  dsimp only
  split
  · split
    · exact ⟨[], allRoutine_nil, finish_concludes _ _⟩
    · exact ⟨_, by simp [Routine], sendThenRetarget_concludes _ _ _ _⟩
  · exact ⟨_, by cases clean <;> simp [Routine], applyRetarget_concludes _ _ _⟩

/-- A turn is a submit, with what its handler did, or has routine effects. -/
theorem step_concludes (H : Bytes → ByteVec 32) (A : AddressLib) (s : Session) (input : Input) :
    (∃ id params, input.event = .line (.request id (.submit params)) ∧ input.env.rateOk ∧
      Concludes (handleSubmit H input.env s id params).effects (step H A s input)) ∨
    ∃ effects, AllRoutine effects ∧ Concludes effects (step H A s input) := by
  have hline : ∀ line, input.event = .line line →
      Concludes (handleLine H A input.env s line).effects (step H A s input) := by
    intro line hevent
    unfold step
    rw [hevent]
    dsimp only
    split
    · exact sendThenRetarget_concludes _ _ _ _
    · exact finish_concludes _ _
  cases hevent : input.event with
  | line line =>
    by_cases hsubmit : submits input.env line
    · left
      cases line with
      | request id message =>
        cases message with
        | submit params =>
          have hrate : input.env.rateOk = true := hsubmit
          have hhandled := hline _ hevent
          rw [handleLine, if_neg (by simp [hrate])] at hhandled
          exact ⟨id, params, rfl, hrate, hhandled⟩
        | _ => cases hsubmit
      | _ => cases hsubmit
    · exact .inr ⟨_, handleLine_routine H A (by simpa using hsubmit), hline line hevent⟩
  | broadcast template clean =>
    unfold step
    rw [hevent]
    exact .inr (handleBroadcast_concludes _ _ _ _)
  | lagged _ =>
    unfold step
    rw [hevent]
    exact .inr ⟨[], allRoutine_nil, applyRetarget_concludes _ _ _⟩
  | oversized =>
    unfold step
    rw [hevent]
    exact .inr ⟨_, by simp [Routine], finish_concludes _ _⟩
  | closed =>
    unfold step
    rw [hevent]
    exact .inr ⟨[], allRoutine_nil, finish_concludes _ _⟩

end Sv1.Session

/-! ## Stratum V2 -/

namespace Sv2.Session

variable {W : Wire} {s : Session} {env : Surroundings} {effects : List (Effect Message)}

theorem finish_concludes (s : Session) (effects : List (Effect Message)) :
    Concludes effects (s.finish effects) :=
  .ends [] _ (by simp only [finish, List.append_nil, List.append_assoc, List.singleton_append])
    allRoutine_nil (allRoutine_offline s.statsWorker) rfl

theorem applyRetarget_concludes (W : Wire) (env : Surroundings) (s : Session)
    (effects : List (Effect Message)) : Concludes effects (applyRetarget W env s effects) := by
  unfold applyRetarget
  split
  · exact .goesOn [] (by simp) allRoutine_nil rfl
  · dsimp only
    split
    · exact .goesOn [] (by simp) allRoutine_nil rfl
    · split
      · exact .goesOn _ (List.append_assoc _ _ _) (by simp [Routine]) rfl
      · exact (finish_concludes _ _).of_append (allRoutine_vardiff _ _)

theorem say_routine (h : AllRoutine effects) (message : Message) (name : String) :
    AllRoutine (say W env s effects message name).effects := by
  unfold say
  split
  · exact allRoutine_append.mpr ⟨h, by simp [Routine]⟩
  · exact h
  · exact h

theorem trySend_routine (message : Message) : AllRoutine (trySend W env message) := by
  unfold trySend
  split <;> simp [Routine]

theorem sendJob_routine (h : AllRoutine effects) (template : JobTemplate) (future cleared : Bool) :
    AllRoutine (sendJob W env s template future cleared effects).2.2 := by
  unfold sendJob
  split
  · exact h
  · split
    · exact h
    · dsimp only
      split
      · exact h
      · split
        · exact h
        · split
          · simp [h, Routine]
          · split
            · simp [h, Routine]
            · split <;> simp [h, Routine]

theorem announceChannel_routine (h : AllRoutine effects) (o : OpenExtended) :
    AllRoutine (announceChannel W env s o effects).effects := by
  unfold announceChannel
  dsimp only
  split
  · exact h
  · split
    · exact say_routine h _ _
    · split
      · exact say_routine h _ _
      · exact sendJob_routine (say_routine h _ _) _ _ _

theorem grantChannel_routine (h : AllRoutine effects) (o : OpenExtended) (identity : MinerIdentity)
    (isNew : Bool) : AllRoutine (grantChannel W env s o identity isNew effects).effects := by
  unfold grantChannel
  dsimp only
  split
  · exact allRoutine_append.mpr ⟨h, trySend_routine _⟩
  · refine announceChannel_routine ?_ o
    cases isNew <;> simp [h, Routine]

theorem handleOpenExtended_routine (A : AddressLib) (decoded : Except String OpenExtended) :
    AllRoutine (handleOpenExtended W A env s decoded).effects := by
  unfold handleOpenExtended
  split
  · exact allRoutine_nil
  · split
    · exact allRoutine_nil
    · split
      · exact say_routine allRoutine_nil _ _
      · split
        · exact say_routine allRoutine_nil _ _
        · split
          · exact say_routine allRoutine_nil _ _
          · split
            · exact grantChannel_routine allRoutine_nil _ _ _
            · dsimp only
              split
              · exact allRoutine_nil
              · exact grantChannel_routine (by simp [dropIdentity, Routine]) _ _ _

theorem handleSetupConnection_routine (decoded : Except String SetupConn) :
    AllRoutine (handleSetupConnection W env s decoded).effects := by
  unfold handleSetupConnection
  cases decoded with
  | error e => exact allRoutine_nil
  | ok setup =>
    dsimp only
    split
    · exact trySend_routine _
    · split
      · exact trySend_routine _
      · split
        · exact trySend_routine _
        · exact say_routine allRoutine_nil _ _

theorem handleBroadcast_concludes (W : Wire) (env : Surroundings) (s : Session)
    (template : JobTemplate) (clean : Bool) :
    ∃ effects, AllRoutine effects ∧ Concludes effects (handleBroadcast W env s template clean) := by
  unfold handleBroadcast
  dsimp only
  generalize (if clean then { s with shareSet := s.shareSet.clear } else s) = cleared
  split
  · split
    · exact ⟨_, sendJob_routine allRoutine_nil _ _ _, applyRetarget_concludes _ _ _ _⟩
    · exact ⟨_, sendJob_routine allRoutine_nil _ _ _, finish_concludes _ _⟩
  · exact ⟨_, by cases clean <;> simp [Routine], applyRetarget_concludes _ _ _ _⟩

theorem handleMessage_of_rateOk (W : Wire) (H : Bytes → ByteVec 32) (A : AddressLib) (s : Session)
    (frame : Frame) (h : env.rateOk) :
    handleMessage W H A env s frame = match frame with
      | .setupConnection decoded => handleSetupConnection W env s decoded
      | .openExtended decoded => handleOpenExtended W A env s decoded
      | .submitExtended decoded => handleSubmit W H env s decoded
      | .other _ => ⟨s, [], .continue⟩ := by
  have hpassed : ¬ ¬ env.rateOk = true := not_not.mpr h
  cases frame <;> exact if_neg hpassed

theorem step_frame_concludes (W : Wire) (H : Bytes → ByteVec 32) (A : AddressLib) {input : Input}
    {payloadLen : ℕ} {frame : Frame} (hevent : input.event = .frame payloadLen frame)
    (hsize : payloadLen ≤ s.guard.maxMessageBytes) :
    Concludes (handleMessage W H A input.env s frame).effects (step W H A s input) := by
  have hok : s.guard.checkMessageSize payloadLen = .ok () := by
    simp [SessionGuard.checkMessageSize, ensure, hsize]
  unfold step
  rw [hevent]
  dsimp only
  rw [hok]
  dsimp only
  split
  · exact applyRetarget_concludes _ _ _ _
  · exact finish_concludes _ _

/-- A turn is a submit, with what its handler did, or has routine effects. -/
theorem step_concludes (W : Wire) (H : Bytes → ByteVec 32) (A : AddressLib) (s : Session)
    (input : Input) :
    (∃ payloadLen decoded, input.event = .frame payloadLen (.submitExtended decoded) ∧
      payloadLen ≤ s.guard.maxMessageBytes ∧ input.env.rateOk ∧
      Concludes (handleSubmit W H input.env s decoded).effects (step W H A s input)) ∨
    ∃ effects, AllRoutine effects ∧ Concludes effects (step W H A s input) := by
  cases hevent : input.event with
  | frame payloadLen frame =>
    by_cases hsize : payloadLen ≤ s.guard.maxMessageBytes
    · have hframe := step_frame_concludes W H A hevent hsize
      by_cases hrate : input.env.rateOk
      · rw [handleMessage_of_rateOk W H A s frame hrate] at hframe
        cases frame with
        | submitExtended decoded => exact .inl ⟨payloadLen, decoded, rfl, hsize, hrate, hframe⟩
        | setupConnection decoded => exact .inr ⟨_, handleSetupConnection_routine decoded, hframe⟩
        | openExtended decoded => exact .inr ⟨_, handleOpenExtended_routine A decoded, hframe⟩
        | other _ => exact .inr ⟨_, allRoutine_nil, hframe⟩
      · refine .inr ⟨_, ?_, hframe⟩
        unfold handleMessage
        rw [if_pos hrate]
        simp [Routine]
    · have herror : s.guard.checkMessageSize payloadLen = .error (.messageTooLarge payloadLen) := by
        simp [SessionGuard.checkMessageSize, ensure, hsize]
      unfold step
      rw [hevent]
      dsimp only
      rw [herror]
      exact .inr ⟨_, by simp [Routine], finish_concludes _ _⟩
  | broadcast template clean =>
    unfold step
    rw [hevent]
    exact .inr (handleBroadcast_concludes _ _ _ _ _)
  | lagged _ =>
    unfold step
    rw [hevent]
    exact .inr ⟨[], allRoutine_nil, applyRetarget_concludes _ _ _ _⟩
  | closed =>
    unfold step
    rw [hevent]
    exact .inr ⟨[], allRoutine_nil, finish_concludes _ _⟩

end Sv2.Session

/-! ## What is left to the server -/

/-- What is left to do for a session that ends. -/
inductive Chore
  | ban
  | minerDisconnected
  deriving DecidableEq

namespace Effect

variable {μ : Type}

/-- The chore an effect does. -/
def chore : Effect μ → Option Chore
  | ban _ => some .ban
  | stats .minerDisconnected => some .minerDisconnected
  | _ => none

/-- The chores among effects, in order. -/
def chores (effects : List (Effect μ)) : List Chore := effects.filterMap chore

/-- How often the end of the session is reported. -/
def departures (effects : List (Effect μ)) : ℕ := (chores effects).count .minerDisconnected

theorem departures_append (a b : List (Effect μ)) :
    departures (a ++ b) = departures a + departures b := by
  rw [departures, chores, List.filterMap_append, List.count_append]
  rfl

theorem departures_cons (e : Effect μ) (effects : List (Effect μ)) :
    departures (e :: effects) = departures [e] + departures effects :=
  departures_append [e] effects

theorem AllRoutine.departures_eq {effects : List (Effect μ)} (h : AllRoutine effects) :
    departures effects = 0 := by
  refine List.count_eq_zero.mpr fun hmem => ?_
  obtain ⟨e, he, hchore⟩ := List.mem_filterMap.mp hmem
  have hroutine := h e he
  cases e with
  | stats event =>
    cases event with
    | minerDisconnected => exact hroutine
    | _ => cases hchore
  | _ => cases hchore

theorem departures_acceptEffects (submitResult : Except PoolError BlockSubmitOutcome)
    (sessionId worker : Str) (credit : UInt64) (share : AcceptedShare) :
    departures (acceptEffects (μ := μ) submitResult sessionId worker credit share) = 0 := by
  unfold acceptEffects
  dsimp only
  split
  · rfl
  · cases submitResult <;> rfl

end Effect

/-- The end of the session is reported once if it is over, and else not. -/
def Outcome.Departs {σ μ : Type} (out : Outcome σ (Effect μ)) : Prop :=
  Effect.departures out.outputs = if out.live then 0 else 1

theorem Concludes.departs {σ μ : Type} {effects : List (Effect μ)} {out : Outcome σ (Effect μ)}
    (h : Concludes effects out) (hnone : departures effects = 0) : out.Departs := by
  cases h with
  | goesOn tail houtputs htail hlive =>
    rw [Outcome.Departs, houtputs, departures_append, hnone, htail.departures_eq, hlive]
    rfl
  | ends before after houtputs hbefore hafter hdead =>
    rw [Outcome.Departs, houtputs, departures_append, departures_append, departures_cons, hnone,
      hbefore.departures_eq, hafter.departures_eq, hdead]
    rfl

theorem Sv1.Session.step_departs (H : Bytes → ByteVec 32) (A : AddressLib) (s : Session)
    (input : Input) : (step H A s input).Departs := by
  rcases step_concludes H A s input with ⟨id, params, -, -, h⟩ | ⟨effects, hroutine, h⟩
  · refine h.departs ?_
    rcases handleSubmit_cases H input.env s id params with ⟨reason, -, he⟩ |
      ⟨entry, result, hs, hnew⟩
    · rw [he]
      rfl
    · rw [handleSubmit_of_new hs hnew]
      exact departures_acceptEffects _ _ _ _ _
  · exact h.departs hroutine.departures_eq

/-- A message does not report the end of the session. -/
theorem Sv2.Session.departures_say {W : Wire} {env : Surroundings} {s : Session}
    {effects : List (Effect Message)} (h : departures effects = 0) (message : Message)
    (name : String) : departures (say W env s effects message name).effects = 0 := by
  unfold say
  split
  · rw [departures_append, h]
    rfl
  · exact h
  · exact h

theorem Sv2.Session.step_departs (W : Wire) (H : Bytes → ByteVec 32) (A : AddressLib) (s : Session)
    (input : Input) : (step W H A s input).Departs := by
  rcases step_concludes W H A s input with ⟨payloadLen, decoded, -, -, -, h⟩ |
    ⟨effects, hroutine, h⟩
  · refine h.departs ?_
    rcases handleSubmit_cases W H input.env s decoded with
      ⟨reason, he⟩ | ⟨seq, reason, code, he⟩ | ⟨submit, entry, result, rfl, hs, hnew⟩
    · rw [he]
      rfl
    · rw [he]
      unfold refuse
      dsimp only
      split
      · rfl
      · exact departures_say rfl _ _
    · rw [handleSubmit_of_new hs hnew]
      exact departures_say (departures_acceptEffects _ _ _ _ _) _ _
  · exact h.departs hroutine.departures_eq

end BtcPool
