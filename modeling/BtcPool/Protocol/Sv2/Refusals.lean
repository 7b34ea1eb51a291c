import BtcPool.Protocol.Sv2.SessionRefines

/-!
# Refused opens

A request for a channel that is answered with an `OpenMiningChannelError` should leave the session
as it is. `handle_open_extended` looks at the identity and at whether a channel is open before it
does anything, but at the size of the extranonce only after it has counted a new identity and
dropped the one held. So a request is harmless (`Harmless`) unless it comes with another identity to
a session without a channel; then it costs the identity held and a part of the budget, and repeated
often enough it ends the session.
-/

namespace BtcPool.Sv2.Session

open Bitcoin

variable {W : Wire} {A : AddressLib} {env : Surroundings} {s s' : Session}
  {effects : List (Effect Message)}

/-- The request is answered with an error. -/
def Refused (W : Wire) (A : AddressLib) (env : Surroundings) (s : Session) (o : OpenExtended) :
    Prop :=
  ∃ code, .openChannelError o.requestId code ∈
    Effect.messages (handleOpenExtended W A env s (.ok o)).effects

/-- The identity a request comes with, if it is one. -/
def presented (A : AddressLib) (s : Session) (o : OpenExtended) : Option MinerIdentity :=
  match s.guard.checkWorkerName o.userIdentity,
    MinerIdentity.parse A o.userIdentity s.network s.guard.maxWorkerNameLen with
  | .ok _, .ok identity => some identity
  | _, _ => none

/-- A request that is refused before the identity counts: the channel is open already, or the
identity is none, or the one held; or that finds nothing to drop and no budget to spend. -/
def Harmless (A : AddressLib) (s : Session) (o : OpenExtended) : Prop :=
  s.channelOpen ∨ ∀ identity, presented A s o = some identity →
    s.statsWorker = some identity.canonicalName ∨
      (s.guard.maxAuthorizations = 0 ∧ s.identity = none)

/-! ## One request -/

/-- What a refusal comes to: the request is turned away before or after a new identity counts. -/
inductive TurnedAway (A : AddressLib) (s : Session) (o : OpenExtended) :
    Session → List (Effect Message) → Prop
  | early {answer : Message} (h : s.channelOpen ∨ ∀ identity, presented A s o = some identity →
      s.statsWorker = some identity.canonicalName) :
    TurnedAway A s o s [.send answer]
  | late {answer : Message} {identity : MinerIdentity} (hclosed : s.channelOpen = false)
    (hpresented : presented A s o = some identity)
    (hother : s.statsWorker ≠ some identity.canonicalName) :
    TurnedAway A s o
      { s with guard := s.guard.recordNewAuthorization.2, worker := none, identity := none }
      ((s.statsWorker.map fun name => .stats (.workerOffline name)).toList ++ [.core .retire] ++
        [.send answer])

theorem notMem_say {e : Effect Message} {message : Message} {name : String} (h : e ∉ effects)
    (hne : e ≠ .send message) : e ∉ (say W env s effects message name).effects := by
  unfold say
  split
  · simp [h, hne]
  · exact h
  · exact h

/-- A channel that is announced is not refused. -/
theorem openChannelError_notMem_announceChannel {o : OpenExtended} {requestId : UInt32}
    {code : String} (h : .send (.openChannelError requestId code) ∉ effects) :
    .send (.openChannelError requestId code) ∉ (announceChannel W env s o effects).effects := by
  have hsaid : .send (.openChannelError requestId code) ∉ (say W env s effects
      (s.openExtendedSuccess o) "OpenExtendedMiningChannelSuccess").effects :=
    notMem_say h (by simp [openExtendedSuccess])
  unfold announceChannel
  split
  · exact h
  · dsimp only
    split
    · exact hsaid
    · split
      · exact hsaid
      · rename_i template _
        dsimp only
        generalize hsend : sendJob W env { s with channelOpen := true } template true false _ = sent
        obtain ⟨ok, s', effects'⟩ := sent
        cases jobSent_sendJob hsend with
        | unsent => exact hsaid
        | cut hjob hnew => simp [hsaid]
        | sent prev hidentity hjob hnew => simp [hsaid]

theorem mem_openError {o : OpenExtended} {code : String} {e : Effect Message}
    (h : e ∈ (openError W env s o.requestId code).effects) :
    openError W env s o.requestId code =
      ⟨s, [.send (.openChannelError o.requestId code)], .continue⟩ := by
  unfold openError say at h ⊢
  split
  · rfl
  · rename_i hsend
    simp [hsend] at h
  · rename_i hsend
    simp [hsend] at h

/-- A grant that is refused is refused for the size of the extranonce. -/
theorem mem_grantChannel {o : OpenExtended} {identity : MinerIdentity} {isNew : Bool}
    {code : String} (heffects : .send (.openChannelError o.requestId code) ∉ effects)
    (h : .send (.openChannelError o.requestId code) ∈
      (grantChannel W env s o identity isNew effects).effects) :
    grantChannel W env s o identity isNew effects = ⟨s, effects ++
      [.send (.openChannelError o.requestId "unsupported-min-extranonce-size")], .continue⟩ := by
  unfold grantChannel at h ⊢
  dsimp only at h ⊢
  split
  · rename_i hsize
    rw [if_pos hsize] at h
    unfold trySend at h ⊢
    split
    · rfl
    · rename_i hlost
      rw [if_neg hlost, List.append_nil] at h
      exact absurd h heffects
  · rename_i hsize
    rw [if_neg hsize] at h
    refine absurd h (openChannelError_notMem_announceChannel ?_)
    cases isNew <;> simp [heffects]

theorem turnedAway_of_refused {o : OpenExtended} (h : Refused W A env s o) :
    TurnedAway A s o (handleOpenExtended W A env s (.ok o)).session
      (handleOpenExtended W A env s (.ok o)).effects := by
  obtain ⟨code, h⟩ := h
  rw [Effect.mem_messages] at h
  unfold handleOpenExtended at h ⊢
  split
  · rename_i hsetup
    rw [if_pos hsetup] at h
    cases h
  · rename_i hsetup
    rw [if_neg hsetup] at h
    dsimp only at h ⊢
    cases hname : s.guard.checkWorkerName o.userIdentity with
    | error e =>
      rw [hname] at h
      rw [mem_openError h]
      exact .early (Or.inr fun identity hp => by simp [presented, hname] at hp)
    | ok u =>
      rw [hname] at h
      dsimp only at h ⊢
      cases hparse : MinerIdentity.parse A o.userIdentity s.network s.guard.maxWorkerNameLen with
      | error e =>
        rw [hparse] at h
        rw [mem_openError h]
        exact .early (Or.inr fun identity hp => by simp [presented, hname, hparse] at hp)
      | ok identity =>
        rw [hparse] at h
        dsimp only at h ⊢
        have hpresented : presented A s o = some identity := by
          simp only [presented, hname, hparse]
        split
        · rename_i hopen
          rw [if_pos hopen] at h
          rw [mem_openError h]
          exact .early (Or.inl hopen)
        · rename_i hclosed
          rw [if_neg hclosed] at h
          split
          · rename_i hsame
            rw [if_pos hsame] at h
            rw [mem_grantChannel List.not_mem_nil h]
            refine .early (Or.inr fun other hp => ?_)
            obtain rfl : other = identity := Option.some.inj (hp.symm.trans hpresented)
            exact hsame
          · rename_i hother
            rw [if_neg hother] at h
            split
            · rename_i hcap
              rw [if_pos hcap] at h
              cases h
            · rename_i hcap
              rw [if_neg hcap] at h
              rw [mem_grantChannel (by simp [dropIdentity, statsWorker]) h]
              exact .late (by simpa using hclosed) hpresented hother

/-! ## Sequences of requests -/

/-- A request for a channel, and what the session finds around it when it comes. -/
structure OpenRequest where
  env : Surroundings
  request : OpenExtended

/-- The session after requests, and what was done for them. -/
def handleOpens (W : Wire) (A : AddressLib) (s : Session) :
    List OpenRequest → Session × List (Effect Message)
  | [] => (s, [])
  | r :: rs =>
    let handled := handleOpenExtended W A r.env s (.ok r.request)
    let rest := handleOpens W A handled.session rs
    (rest.1, handled.effects ++ rest.2)

/-- Every request is refused in the state that the ones before it leave. -/
def AllRefused (W : Wire) (A : AddressLib) (s : Session) : List OpenRequest → Prop
  | [] => True
  | r :: rs => Refused W A r.env s r.request ∧
    AllRefused W A (handleOpenExtended W A r.env s (.ok r.request)).session rs

/-- The identity, the budget, the extranonce and the jobs are as before, and nothing was booked for
a worker. -/
structure Unmoved (s : Session) (after : Session × List (Effect Message)) : Prop where
  identity : after.1.identity = s.identity
  guard : after.1.guard = s.guard
  extranoncePrefix : after.1.extranoncePrefix = s.extranoncePrefix
  extranonceSize : after.1.extranonceSize = s.extranonceSize
  jobIds : after.1.jobIds = s.jobIds
  nextJobId : after.1.nextJobId = s.nextJobId
  issuedJobs : after.1.issuedJobs = s.issuedJobs
  stats : ∀ event, .stats event ∉ after.2

namespace TurnedAway

variable {o : OpenExtended}

/-- A harmless refusal moves nothing but the name as it was written. -/
theorem of_harmless (h : TurnedAway A s o s' effects) (hharmless : Harmless A s o) :
    (∃ worker, s' = { s with worker }) ∧ ∀ event, .stats event ∉ effects := by
  cases h with
  | early => exact ⟨⟨s.worker, rfl⟩, by simp⟩
  | @late answer identity hclosed hpresented hother =>
    rcases hharmless with hopen | hnone
    · rw [hclosed] at hopen
      cases hopen
    · obtain ⟨hzero, hidentity⟩ := (hnone identity hpresented).resolve_left hother
      have hguard : s.guard.recordNewAuthorization.2 = s.guard := by
        rw [SessionGuard.recordNewAuthorization, if_pos hzero]
      rw [hguard, ← hidentity]
      exact ⟨⟨none, rfl⟩, by simp [statsWorker, hidentity]⟩

/-- Any other one costs a part of the budget or the identity held. -/
theorem of_not_harmless (h : TurnedAway A s o s' effects) (hharm : ¬ Harmless A s o) :
    s.guard.authorizations < s'.guard.authorizations ∨
    (s.identity ≠ none ∧ s'.identity = none) := by
  cases h with
  | early hearly =>
    exact absurd (hearly.imp_right fun hsame identity hp => Or.inl (hsame identity hp)) hharm
  | @late answer identity hclosed hpresented hother =>
    by_cases hzero : s.guard.maxAuthorizations = 0
    · refine Or.inr ⟨fun hnone => hharm (Or.inr fun _ _ => Or.inr ⟨hzero, hnone⟩), rfl⟩
    · refine Or.inl ?_
      dsimp only
      rw [SessionGuard.recordNewAuthorization, if_neg hzero]
      exact Nat.lt_succ_self _

/-- The budget is not given back, nor the identity. -/
theorem monotone (h : TurnedAway A s o s' effects) :
    s.guard.authorizations ≤ s'.guard.authorizations ∧
    (s.identity = none → s'.identity = none) := by
  cases h with
  | early => exact ⟨le_rfl, fun h => h⟩
  | late =>
    refine ⟨?_, fun _ => rfl⟩
    dsimp only
    rw [SessionGuard.recordNewAuthorization]
    split
    · exact le_rfl
    · exact Nat.le_succ _

end TurnedAway

theorem monotone_handleOpens {rs : List OpenRequest} (h : AllRefused W A s rs) :
    s.guard.authorizations ≤ (handleOpens W A s rs).1.guard.authorizations ∧
      (s.identity = none → (handleOpens W A s rs).1.identity = none) := by
  induction rs generalizing s with
  | nil => exact ⟨le_rfl, fun h => h⟩
  | cons r rs ih =>
    obtain ⟨hle, hnone⟩ := (turnedAway_of_refused h.1).monotone
    obtain ⟨hle', hnone'⟩ := ih h.2
    exact ⟨hle.trans hle', fun h => hnone' (hnone h)⟩

theorem unmoved_handleOpens_iff {rs : List OpenRequest} (h : AllRefused W A s rs) :
    Unmoved s (handleOpens W A s rs) ↔ ∀ r ∈ rs, Harmless A s r.request := by
  induction rs generalizing s with
  | nil => exact iff_of_true ⟨rfl, rfl, rfl, rfl, rfl, rfl, rfl, by simp [handleOpens]⟩ (by simp)
  | cons r rs ih =>
    have haway := turnedAway_of_refused h.1
    by_cases hharmless : Harmless A s r.request
    · obtain ⟨⟨worker, hsame⟩, hquiet⟩ := haway.of_harmless hharmless
      have hrest := ih h.2
      rw [hsame] at hrest
      rw [List.forall_mem_cons, and_iff_right hharmless, handleOpens, hsame]
      -- neither side looks at the name
      refine Iff.trans ?_ hrest
      constructor
      · rintro ⟨hidentity, hguard, hprefix, hsize, hids, hnext, hjobs, hstats⟩
        exact ⟨hidentity, hguard, hprefix, hsize, hids, hnext, hjobs,
          fun event hevent => hstats event (List.mem_append_right _ hevent)⟩
      · rintro ⟨hidentity, hguard, hprefix, hsize, hids, hnext, hjobs, hstats⟩
        refine ⟨hidentity, hguard, hprefix, hsize, hids, hnext, hjobs, fun event hevent => ?_⟩
        exact (List.mem_append.mp hevent).elim (hquiet event) (hstats event)
    · refine iff_of_false (fun hunmoved => ?_) fun hall => hharmless (hall r List.mem_cons_self)
      have hguard : (handleOpens W A (handleOpenExtended W A r.env s (.ok r.request)).session
          rs).1.guard = s.guard := hunmoved.guard
      have hidentity : (handleOpens W A (handleOpenExtended W A r.env s (.ok r.request)).session
          rs).1.identity = s.identity := hunmoved.identity
      obtain ⟨hle, hnone⟩ := monotone_handleOpens h.2
      rcases haway.of_not_harmless hharmless with hspent | ⟨hheld, hdropped⟩
      · rw [hguard] at hle
        omega
      · exact hheld (hidentity.symm.trans (hnone hdropped))

/-! ## The end of a session -/

theorem flow_say {message : Message} {name : String} {reason : String}
    (h : (say W env s effects message name).flow = .disconnect reason) :
    reason = s!"encode {name}" ∨ reason = "write" := by
  unfold say at h
  split at h
  · cases h
  · cases h
    exact Or.inl rfl
  · cases h
    exact Or.inr rfl

theorem flow_announceChannel {o : OpenExtended} {reason : String}
    (h : (announceChannel W env s o effects).flow = .disconnect reason) :
    reason = "encode OpenExtendedMiningChannelSuccess" ∨ reason = "write" := by
  unfold announceChannel at h
  split at h
  · cases h
    exact Or.inl rfl
  · dsimp only at h
    split at h
    · exact flow_say h
    · split at h
      · cases h
      · dsimp only at h
        split at h
        · cases h
        · cases h
          exact Or.inr rfl

theorem flow_grantChannel {o : OpenExtended} {identity : MinerIdentity} {isNew : Bool}
    {reason : String}
    (h : (grantChannel W env s o identity isNew effects).flow = .disconnect reason) :
    reason = "encode OpenExtendedMiningChannelSuccess" ∨ reason = "write" := by
  unfold grantChannel at h
  dsimp only at h
  split at h
  · cases h
  · exact flow_announceChannel h

/-- A session is ended for too many identities only when its budget is spent. -/
theorem spent_of_disconnect {o : OpenExtended}
    (h : (handleOpenExtended W A env s (.ok o)).flow = .disconnect "too many worker identities") :
    s.guard.recordNewAuthorization.1 = false := by
  have hsay : ∀ code, (openError W env s o.requestId code).flow ≠
      .disconnect "too many worker identities" := by
    intro code hflow
    rcases flow_say hflow with hreason | hreason <;> exact absurd hreason (by decide)
  have hgrant : ∀ (s : Session) (identity : MinerIdentity) (isNew : Bool)
      (effects : List (Effect Message)), (grantChannel W env s o identity isNew effects).flow ≠
        .disconnect "too many worker identities" := by
    intro s identity isNew effects hflow
    rcases flow_grantChannel hflow with hreason | hreason <;> exact absurd hreason (by decide)
  unfold handleOpenExtended at h
  split at h
  · exact absurd (Flow.disconnect.inj h) (by decide)
  · dsimp only at h
    split at h
    · exact absurd h (hsay _)
    · split at h
      · exact absurd h (hsay _)
      · split at h
        · exact absurd h (hsay _)
        · split at h
          · exact absurd h (hgrant _ _ _ _)
          · split at h
            · rename_i hcap
              simpa using hcap
            · exact absurd h (hgrant _ _ _ _)

/-- **What refused opens cost.** Requests that are all answered with an error leave the identity,
the budget of identities, the extranonce, the jobs and the statistics of a session as they are
exactly if each of them is harmless in it. After such requests a session is ended for too many
identities only if its budget was spent before them. -/
theorem refused_opens_unmoved_iff (W : Wire) (A : AddressLib) (s : Session) (rs : List OpenRequest)
    (hrefused : AllRefused W A s rs) :
    (Unmoved s (handleOpens W A s rs) ↔ ∀ r ∈ rs, Harmless A s r.request) ∧
    ((∀ r ∈ rs, Harmless A s r.request) → ∀ env o,
      (handleOpenExtended W A env (handleOpens W A s rs).1 (.ok o)).flow =
        .disconnect "too many worker identities" → s.guard.recordNewAuthorization.1 = false) := by
  have hiff := unmoved_handleOpens_iff hrefused
  refine ⟨hiff, fun hharmless env o hflow => ?_⟩
  rw [← (hiff.mpr hharmless).guard]
  exact spent_of_disconnect hflow

/-! ## A regtest session -/

/-- A regtest session after its setup. -/
def regtestAwaiting : Session :=
  ((process .exact zeroHash regtestAddresses).run regtestSession [regtestSetup]).state

/-- A request with an identity, for so many bytes of the eight. -/
def regtestRequest (userIdentity : Str) (minExtranonceSize : UInt16) : OpenRequest where
  env := { toEnv := .regtest "1".toList, extranonceCounter := 1, nextChannelId := 1 }
  request :=
    { requestId := 1, userIdentity, maxTarget := List.Vector.replicate 32 0xff, minExtranonceSize }

/-- Names that are no identity. -/
theorem refused_opens_unmoved_iff_regtest :
    Unmoved regtestAwaiting (handleOpens .exact regtestAddresses regtestAwaiting
      [regtestRequest "x".toList 4, regtestRequest [] 9]) := by
  refine (refused_opens_unmoved_iff .exact regtestAddresses regtestAwaiting
    [regtestRequest "x".toList 4, regtestRequest [] 9] ?_).1.mpr ?_
  · exact ⟨⟨"invalid-user-identity", by decide +kernel⟩,
      ⟨"invalid-user-identity", by decide +kernel⟩, trivial⟩
  · have hnone : ∀ r ∈ [regtestRequest "x".toList 4, regtestRequest [] 9],
        (presented regtestAddresses regtestAwaiting r.request).isNone := by decide +kernel
    intro r hr
    refine Or.inr fun identity hp => ?_
    have hr := hnone r hr
    rw [hp] at hr
    cases hr

/-- A device that asks for nine bytes with the same valid identity is refused eight times; the next
time its session ends. -/
theorem refused_opens_end_session :
    (∀ k < 8, Refused .exact regtestAddresses (regtestRequest regtestPayout.address 9).env
      (handleOpens .exact regtestAddresses regtestAwaiting
        (List.replicate k (regtestRequest regtestPayout.address 9))).1
      (regtestRequest regtestPayout.address 9).request) ∧
    ¬ Unmoved regtestAwaiting (handleOpens .exact regtestAddresses regtestAwaiting
      [regtestRequest regtestPayout.address 9]) ∧
    (handleOpenExtended .exact regtestAddresses (regtestRequest regtestPayout.address 9).env
      (handleOpens .exact regtestAddresses regtestAwaiting
        (List.replicate 8 (regtestRequest regtestPayout.address 9))).1
      (.ok (regtestRequest regtestPayout.address 9).request)).flow =
        .disconnect "too many worker identities" := by
  have hrefused : ∀ k < 8, .openChannelError 1 "unsupported-min-extranonce-size" ∈
      Effect.messages (handleOpenExtended .exact regtestAddresses
        (regtestRequest regtestPayout.address 9).env
        (handleOpens .exact regtestAddresses regtestAwaiting
          (List.replicate k (regtestRequest regtestPayout.address 9))).1
        (.ok (regtestRequest regtestPayout.address 9).request)).effects := by
    decide +kernel
  refine ⟨fun k hk => ⟨_, hrefused k hk⟩, fun hunmoved => ?_, by decide +kernel⟩
  exact absurd hunmoved.guard (by decide +kernel)

end BtcPool.Sv2.Session
