import BtcPool.Network.Extranonce
import BtcPool.Network.Replays

/-!
# The extranonce of a share

The coinbase of a share is to carry the prefix of the session it comes from and the extranonce of
the submit. It does exactly if the extranonce has the size advertised
(`AcceptedShare.region_eq_iff`). A Stratum V2 session sees to that; a Stratum V1 session does not,
and a share of another size is a share of every session (`Sv1.short_extranonce_of_every_session`).
`extranonce_carried` says this for the runs of both.

The prefix of a Stratum V1 session is the one it was started with
(`Sv1.Session.step_sameExtranonce`), that of a Stratum V2 session the one its channel was granted
(`Sv2.Session.step_grants`).
-/

namespace BtcPool

open Bitcoin

/-! ## The region of a share -/

namespace AcceptedShare

/-- The reserved region of the coinbase that was hashed. -/
def region (share : AcceptedShare) : Bytes :=
  (share.coinbase.drop share.entry.job.extranonceOffset).take
    (share.entry.job.extranonce1Len + share.entry.job.extranonce2Len)

theorem length_region (share : AcceptedShare) :
    share.region.length = share.entry.job.extranonce1Len + share.entry.job.extranonce2Len := by
  have hregion := share.entry.job.region_le
  rw [region, coinbase, List.length_take, List.length_drop, StratumJob.length_assembleCoinbaseInto]
  omega

/-- The region holds the prefix of the session and the extranonce of the submit exactly if that is
of the size the session has for it. -/
theorem region_eq_iff {R : Core.Rules} {share : AcceptedShare} (hv : share.session.Valid R)
    (hacc : Core.Acceptable R share) :
    share.region = share.session.extranonce1 ++ share.params.extranonce2 ↔
      share.params.extranonce2.length = share.session.extranonce2Size := by
  obtain ⟨template, identity, -, -, hbuilt⟩ := hv.built share.entry hacc.mem
  have hlen := share.length_region
  rw [hbuilt.extranonce1Len, hbuilt.extranonce2Len] at hlen
  constructor
  · intro h
    rw [h, List.length_append] at hlen
    omega
  · intro h
    refine StratumJob.region_assembleCoinbaseInto _ ?_
    rw [hbuilt.extranonce1Len, hbuilt.extranonce2Len, h]

end AcceptedShare

/-! ## The extranonce of a session -/

/-- The prefix and the size of the rest are the same. -/
def Core.SameExtranonce (c c' : Core) : Prop :=
  c'.extranonce1 = c.extranonce1 ∧ c'.extranonce2Size = c.extranonce2Size

theorem Core.SameExtranonce.trans {c c' c'' : Core} (h : c.SameExtranonce c')
    (h' : c'.SameExtranonce c'') : c.SameExtranonce c'' :=
  ⟨h'.1.trans h.1, h'.2.trans h.2⟩

namespace Sv1.Session

variable {H : Bytes → ByteVec 32} {A : AddressLib} {s : Session} {env : Env Message}

theorem welcome_sameExtranonce (id : RequestId) (effects : List (Effect Message)) :
    s.core.SameExtranonce (s.welcome env id effects).session.core := by
  unfold welcome
  dsimp only
  split
  · exact ⟨rfl, rfl⟩
  · split <;> exact ⟨rfl, rfl⟩

theorem handleAuthorize_sameExtranonce (id : RequestId) (worker : Str) :
    s.core.SameExtranonce (handleAuthorize A env s id worker).session.core := by
  unfold handleAuthorize
  split
  · exact ⟨rfl, rfl⟩
  · split
    · exact ⟨rfl, rfl⟩
    · split
      · exact ⟨rfl, rfl⟩
      · split
        · exact welcome_sameExtranonce (s := { s with
            authorized := true, worker := some worker, identity := some _ }) id _
        · dsimp only
          split
          · exact ⟨rfl, rfl⟩
          · exact welcome_sameExtranonce (s := { (switchIdentity { s with
              guard := s.guard.recordNewAuthorization.2 } _).1 with
              authorized := true, worker := some worker, identity := some _ }) id _

theorem handleLine_sameExtranonce (line : Line) :
    s.core.SameExtranonce (handleLine H A env s line).session.core := by
  unfold handleLine
  split
  · exact ⟨rfl, rfl⟩
  · cases line with
    | request id message =>
      cases message with
      | authorize worker => exact handleAuthorize_sameExtranonce id worker
      | configure params =>
        dsimp only
        unfold handleConfigure
        dsimp only
        split <;> exact ⟨rfl, rfl⟩
      | submit params =>
        dsimp only
        rcases handleSubmit_cases H env s id params with ⟨reason, hs, -⟩ | ⟨entry, result, hs, hnew⟩
        · rw [hs]
          exact ⟨rfl, rfl⟩
        · rw [handleSubmit_of_new hs hnew]
          exact ⟨rfl, rfl⟩
      | _ => exact ⟨rfl, rfl⟩
    | _ => exact ⟨rfl, rfl⟩

/-- The extranonce a session is started with stays. -/
theorem step_sameExtranonce (input : Input) :
    s.core.SameExtranonce (step H A s input).state.core := by
  unfold step
  dsimp only
  split
  · rename_i line hevent
    split
    · rw [(sendThenRetarget_closes ..).core_eq]
      exact handleLine_sameExtranonce line
    · rw [(finish_closes ..).core_eq]
      exact handleLine_sameExtranonce line
  · unfold handleBroadcast
    dsimp only
    split
    · split
      · rw [(finish_closes ..).core_eq]
        split <;> exact ⟨rfl, rfl⟩
      · rw [(sendThenRetarget_closes ..).core_eq]
        split <;> exact ⟨rfl, rfl⟩
    · rw [(applyRetarget_closes ..).core_eq]
      split <;> exact ⟨rfl, rfl⟩
  · rw [(applyRetarget_closes ..).core_eq]
    exact ⟨rfl, rfl⟩
  · exact ⟨rfl, rfl⟩
  · exact ⟨rfl, rfl⟩

/-- Every share is accepted with the extranonce the session had at the start. -/
theorem sameExtranonce_of_accept {inputs : List Input} {share : AcceptedShare}
    (h : .accept share ∈ Effect.actions ((process H A).run s inputs).outputs) :
    s.core.SameExtranonce share.session := by
  have hrun := Process.run_invariant (p := process H A) (C := fun _ _ => True)
    (P := fun past t => s.core.SameExtranonce t.core ∧
      ∀ share, .accept share ∈ Effect.actions past → s.core.SameExtranonce share.session)
    (Q := fun past => ∀ share, .accept share ∈ Effect.actions past →
      s.core.SameExtranonce share.session) And.right ?_ (s := s) ⟨⟨rfl, rfl⟩, by simp⟩
    (Process.meets_of_forall (fun _ _ _ => trivial) s : (process H A).Meets _ s inputs)
  · exact hrun.1 share h
  · rintro past t input ⟨ht, hpast⟩ -
    have hshares : ∀ share, .accept share ∈
        Effect.actions (past ++ (step H A t input).outputs) →
          s.core.SameExtranonce share.session := by
      intro share hmem
      rw [Effect.actions_append, List.mem_append] at hmem
      rcases hmem with hmem | hmem
      · exact hpast share hmem
      · obtain ⟨id, params, entry, result, -, -, -, rfl⟩ := accept_of_step hmem
        exact ht
    exact ⟨fun _ => ⟨ht.trans (step_sameExtranonce input), hshares⟩, hshares⟩

end Sv1.Session

namespace Sv2.Session

variable {W : Wire} {H : Bytes → ByteVec 32} {A : AddressLib} {s s' : Session} {env : Surroundings}

/-- The extranonce and the state of the channel are the same. -/
structure Keeps (s s' : Session) : Prop where
  extranoncePrefix : s'.extranoncePrefix = s.extranoncePrefix
  extranonceSize : s'.extranonceSize = s.extranonceSize
  extranonceTotal : s'.extranonceTotal = s.extranonceTotal
  channelOpen : s'.channelOpen = s.channelOpen

/-- A channel was granted on a request that fits the reserved width. -/
structure Grants (s : Session) (env : Surroundings) (o : OpenExtended) (s' : Session) : Prop where
  closed : s.channelOpen = false
  fits : o.minExtranonceSize.toNat ≤ s.extranonceTotal
  extranonceSize : s'.extranonceSize = max o.minExtranonceSize.toNat 1
  extranoncePrefix : s'.extranoncePrefix = generateExtranonce1 env.extranonceCounter
    (s.extranonceTotal - max o.minExtranonceSize.toNat 1)
  extranonceTotal : s'.extranonceTotal = s.extranonceTotal

theorem Keeps.refl (s : Session) : s.Keeps s := ⟨rfl, rfl, rfl, rfl⟩

theorem Keeps.trans {s'' : Session} (h : s.Keeps s') (h' : s'.Keeps s'') : s.Keeps s'' :=
  ⟨h'.1.trans h.1, h'.2.trans h.2, h'.3.trans h.3, h'.4.trans h.4⟩

theorem Grants.keeps {s'' : Session} {o : OpenExtended} (h : s.Grants env o s')
    (h' : s'.Keeps s'') :
    s.Grants env o s'' :=
  ⟨h.closed, h.fits, h'.extranonceSize.trans h.extranonceSize,
    h'.extranoncePrefix.trans h.extranoncePrefix, h'.extranonceTotal.trans h.extranonceTotal⟩

theorem say_keeps (h : s.Keeps s') (effects : List (Effect Message)) (message : Message)
    (name : String) : s.Keeps (say W env s' effects message name).session := by
  rw [(say_eq ..).1]
  exact h

theorem sendJob_keeps (env : Surroundings) (template : JobTemplate) (future cleared : Bool)
    (effects : List (Effect Message)) :
    s.Keeps (sendJob W env s template future cleared effects).2.1 := by
  rcases hsend : sendJob W env s template future cleared effects with ⟨ok, s', effects'⟩
  obtain ⟨jobIds, nextJobId, ⟨-, rfl, -⟩ | ⟨identity, job, -, -, -, rfl, -⟩⟩ := sendJob_cases hsend
  · exact ⟨rfl, rfl, rfl, rfl⟩
  · exact ⟨rfl, rfl, rfl, rfl⟩

theorem applyRetarget_keeps (h : s.Keeps s') (effects : List (Effect Message)) :
    s.Keeps (applyRetarget W env s' effects).state := by
  refine h.trans ?_
  unfold applyRetarget
  split
  · exact .refl s'
  · dsimp only
    split
    · exact ⟨rfl, rfl, rfl, rfl⟩
    · split <;> exact ⟨rfl, rfl, rfl, rfl⟩

theorem handleBroadcast_keeps (template : JobTemplate) (clean : Bool) :
    s.Keeps (handleBroadcast W env s template clean).state := by
  unfold handleBroadcast
  dsimp only
  have hcleared : s.Keeps (if clean then { s with shareSet := s.shareSet.clear } else s) := by
    split <;> exact ⟨rfl, rfl, rfl, rfl⟩
  generalize (if clean then { s with shareSet := s.shareSet.clear } else s) = cleared at hcleared ⊢
  refine hcleared.trans ?_
  split
  · split
    · refine applyRetarget_keeps ?_ _
      exact (sendJob_keeps env template clean clean []).trans ⟨rfl, rfl, rfl, rfl⟩
    · exact sendJob_keeps env template clean clean []
  · exact applyRetarget_keeps (by exact ⟨rfl, rfl, rfl, rfl⟩) _

theorem handleSubmit_keeps (decoded : Except String SubmitExtended) :
    s.Keeps (handleSubmit W H env s decoded).session := by
  rcases handleSubmit_cases W H env s decoded with ⟨reason, hs⟩ | ⟨seq, reason, code, hs⟩ |
    ⟨submit, entry, result, rfl, h, hnew⟩
  · rw [hs]
    exact .refl s
  · rw [hs]
    unfold refuse
    dsimp only
    split
    · exact ⟨rfl, rfl, rfl, rfl⟩
    · exact say_keeps (by exact ⟨rfl, rfl, rfl, rfl⟩) _ _ _
  · rw [handleSubmit_of_new h hnew]
    unfold acceptShare
    dsimp only
    exact say_keeps (by exact ⟨rfl, rfl, rfl, rfl⟩) _ _ _

theorem handleSetupConnection_keeps (decoded : Except String SetupConn) :
    s.Keeps (handleSetupConnection W env s decoded).session := by
  unfold handleSetupConnection
  split
  · exact .refl s
  · dsimp only
    split_ifs
    · exact .refl s
    · exact .refl s
    · exact .refl s
    · exact say_keeps (by exact ⟨rfl, rfl, rfl, rfl⟩) _ _ _

/-- Announcing a channel opens it at most. -/
theorem announceChannel_extranonce (env : Surroundings) (o : OpenExtended)
    (effects : List (Effect Message)) :
    let s' := (announceChannel W env s o effects).session
    s'.extranoncePrefix = s.extranoncePrefix ∧ s'.extranonceSize = s.extranonceSize ∧
      s'.extranonceTotal = s.extranonceTotal := by
  unfold announceChannel
  split
  · exact ⟨rfl, rfl, rfl⟩
  · dsimp only
    split
    · rw [(say_eq ..).1]
      exact ⟨rfl, rfl, rfl⟩
    · split
      · exact ⟨rfl, rfl, rfl⟩
      · rename_i template htemplate
        have hsent := sendJob_keeps (W := W) (s := { s with channelOpen := true }) env
          template true false (say W env s effects (s.openExtendedSuccess o)
            "OpenExtendedMiningChannelSuccess").effects
        exact ⟨hsent.extranoncePrefix, hsent.extranonceSize, hsent.extranonceTotal⟩

theorem grantChannel_grants (h : s.Keeps s') (hclosed : s.channelOpen = false) (o : OpenExtended)
    (identity : MinerIdentity) (isNew : Bool) (effects : List (Effect Message)) :
    s.Keeps (grantChannel W env s' o identity isNew effects).session ∨
      s.Grants env o (grantChannel W env s' o identity isNew effects).session := by
  unfold grantChannel
  dsimp only
  split
  · exact Or.inl h
  · rename_i hfits
    obtain ⟨hstart, hsize, htotal⟩ := announceChannel_extranonce (W := W) (s := { s' with
      extranonceSize := max o.minExtranonceSize.toNat 1
      extranoncePrefix := generateExtranonce1 env.extranonceCounter
        (s'.extranonceTotal - max o.minExtranonceSize.toNat 1)
      channelId := env.nextChannelId
      worker := some o.userIdentity
      identity := some identity }) env o _
    rw [h.extranonceTotal] at hfits
    refine Or.inr ⟨hclosed, by omega, hsize, hstart.trans ?_, htotal.trans h.extranonceTotal⟩
    exact congrArg (fun total => generateExtranonce1 env.extranonceCounter
      (total - max o.minExtranonceSize.toNat 1)) h.extranonceTotal

theorem handleOpenExtended_grants (decoded : Except String OpenExtended) :
    s.Keeps (handleOpenExtended W A env s decoded).session ∨ ∃ o, decoded = .ok o ∧
      s.Grants env o (handleOpenExtended W A env s decoded).session := by
  unfold handleOpenExtended
  split
  · exact Or.inl (.refl s)
  · split
    · exact Or.inl (.refl s)
    · rename_i o
      split
      · exact Or.inl (say_keeps (.refl s) _ _ _)
      · split
        · exact Or.inl (say_keeps (.refl s) _ _ _)
        · split
          · exact Or.inl (say_keeps (.refl s) _ _ _)
          · rename_i hclosed
            have hclosed : s.channelOpen = false := by simpa using hclosed
            split
            · exact (grantChannel_grants (.refl s) hclosed o _ _ _).imp id fun h => ⟨o, rfl, h⟩
            · dsimp only
              split
              · exact Or.inl ⟨rfl, rfl, rfl, rfl⟩
              · exact (grantChannel_grants (by exact ⟨rfl, rfl, rfl, rfl⟩) hclosed o _ _ _).imp id
                  fun h => ⟨o, rfl, h⟩

theorem handleMessage_grants (frame : Frame) :
    s.Keeps (handleMessage W H A env s frame).session ∨ ∃ o, frame = .openExtended (.ok o) ∧
      s.Grants env o (handleMessage W H A env s frame).session := by
  unfold handleMessage
  split
  · exact Or.inl (.refl s)
  · cases frame with
    | setupConnection decoded => exact Or.inl (handleSetupConnection_keeps decoded)
    | openExtended decoded =>
      refine (handleOpenExtended_grants decoded).imp id ?_
      rintro ⟨o, rfl, h⟩
      exact ⟨o, rfl, h⟩
    | submitExtended decoded => exact Or.inl (handleSubmit_keeps decoded)
    | other msgType => exact Or.inl (.refl s)

/-- The extranonce of a session changes only when its channel is granted. -/
theorem step_grants (input : Input) :
    s.Keeps (step W H A s input).state ∨ ∃ payloadLen o,
      input.event = .frame payloadLen (.openExtended (.ok o)) ∧
      s.Grants input.env o (step W H A s input).state := by
  unfold step
  dsimp only
  split
  · rename_i payloadLen frame hevent
    split
    · exact Or.inl (.refl s)
    · -- what the handler did to the extranonce is kept until the end of the turn
      rcases handleMessage_grants (W := W) (H := H) (A := A) frame with h | ⟨o, rfl, h⟩
      · refine Or.inl ?_
        split
        · exact applyRetarget_keeps h _
        · exact h
      · refine Or.inr ⟨payloadLen, o, hevent, ?_⟩
        split
        · exact h.keeps (applyRetarget_keeps (.refl _) _)
        · exact h
  · exact Or.inl (handleBroadcast_keeps _ _)
  · exact Or.inl (applyRetarget_keeps (.refl s) _)
  · exact Or.inl (.refl s)

/-- The input granted a channel the prefix and the size, out of the width `total`. -/
def GrantedTo (total : ℕ) (input : Input) (c : Core) : Prop :=
  ∃ payloadLen o, input.event = .frame payloadLen (.openExtended (.ok o)) ∧
    o.minExtranonceSize.toNat ≤ total ∧ c.extranonce2Size = max o.minExtranonceSize.toNat 1 ∧
    c.extranonce1 = generateExtranonce1 input.env.extranonceCounter
      (total - max o.minExtranonceSize.toNat 1)

/-- Every share is accepted with an extranonce that was granted. -/
theorem grantedTo_of_accept (hclosed : s.channelOpen = false) {inputs : List Input}
    {share : AcceptedShare}
    (h : .accept share ∈ Effect.actions ((process W H A).run s inputs).outputs) :
    ∃ input ∈ inputs, GrantedTo s.extranonceTotal input share.session := by
  have hrun := Process.run_invariant (p := process W H A) (C := fun _ input => input ∈ inputs)
    (P := fun past t => (t.extranonceTotal = s.extranonceTotal ∧ (t.channelOpen →
        ∃ input ∈ inputs, GrantedTo s.extranonceTotal input t.core)) ∧
      ∀ share, .accept share ∈ Effect.actions past →
        ∃ input ∈ inputs, GrantedTo s.extranonceTotal input share.session)
    (Q := fun past => ∀ share, .accept share ∈ Effect.actions past →
      ∃ input ∈ inputs, GrantedTo s.extranonceTotal input share.session) And.right ?_ (s := s)
    ⟨⟨rfl, by simp [hclosed]⟩, by simp⟩
    (Process.meets_of_forall (fun _ hi _ => hi) s : (process W H A).Meets _ s inputs)
  · exact hrun.1 share h
  · rintro past t input ⟨⟨htotal, hgranted⟩, hpast⟩ hinput
    have hshares : ∀ share, .accept share ∈
        Effect.actions (past ++ (step W H A t input).outputs) →
          ∃ input ∈ inputs, GrantedTo s.extranonceTotal input share.session := by
      intro share hmem
      rw [Effect.actions_append, List.mem_append] at hmem
      rcases hmem with hmem | hmem
      · exact hpast share hmem
      · obtain ⟨_, submit, entry, result, -, hs, -, rfl⟩ := accept_of_step hmem
        exact hgranted hs.channel
    refine ⟨fun _ => ⟨?_, hshares⟩, hshares⟩
    rcases step_grants (W := W) (H := H) (A := A) (s := t) input with hk |
      ⟨payloadLen, o, hevent, hg⟩
    · refine ⟨hk.extranonceTotal.trans htotal, fun hopen => ?_⟩
      obtain ⟨granter, hmem, payloadLen, o, hevent, hfits, hsize, hstart⟩ :=
        hgranted (hk.channelOpen ▸ hopen)
      exact ⟨granter, hmem, payloadLen, o, hevent, hfits, hk.extranonceSize.trans hsize,
        hk.extranoncePrefix.trans hstart⟩
    · refine ⟨hg.extranonceTotal.trans htotal, fun _ => ?_⟩
      have hfits := hg.fits
      have hstart := hg.extranoncePrefix
      rw [htotal] at hfits hstart
      exact ⟨input, hinput, payloadLen, o, hevent, hfits, hg.extranonceSize, hstart⟩

end Sv2.Session

/-! ## Runs -/

section

variable {H : Bytes → ByteVec 32} {A : AddressLib} {W : Sv2.Wire} {cfg : Config} {network : Network}
  {sessionId : Str} {extranonce1 : Bytes} {template : Option JobTemplate} {now : Instant}
  {share : AcceptedShare}

theorem Sv1.Session.region_eq_iff (hA : A.Lawful) {inputs : List Input}
    (h : .accept share ∈ Effect.actions ((process H A).run
      (new cfg network sessionId extranonce1 template now) inputs).outputs) :
    share.region = extranonce1 ++ share.params.extranonce2 ↔
      share.params.extranonce2.length = cfg.pool.extranonce2Size := by
  let R := Core.Rules.plain H A network cfg.pool.coinbaseTag fun _ => True
  obtain ⟨hvalid, hacc, -⟩ := (Core.Valid.run (refinement R) hA
    (inv_new rfl (fun _ _ => trivial) ..) (Core.Valid.of_idle rfl nofun)
    (Process.meets_of_forall (fun _ _ _ => ⟨⟨fun _ _ _ => trivial, fun _ _ => trivial⟩,
      fun _ _ => trivial, fun _ _ => trivial⟩) _)).2 share h
  obtain ⟨hstart, hsize⟩ := sameExtranonce_of_accept h
  have hiff := AcceptedShare.region_eq_iff hvalid hacc
  rwa [hstart, hsize] at hiff

theorem Sv2.Session.region_eq (hA : A.Lawful) {inputs : List Input}
    (h : .accept share ∈ Effect.actions ((process W H A).run
      (new cfg network sessionId extranonce1 template now) inputs).outputs) :
    share.region = share.session.extranonce1 ++ share.params.extranonce2 ∧
      share.params.extranonce2.length = share.session.extranonce2Size ∧
      ∃ input ∈ inputs, GrantedTo (cfg.pool.extranonce1Size + cfg.pool.extranonce2Size) input
        share.session := by
  let R := rules H A network cfg.pool.coinbaseTag
  obtain ⟨hvalid, hacc, hform, -⟩ := (Core.Valid.run (refinement W R) hA
    (inv_new rfl (fun _ _ => trivial) ..) (Core.Valid.of_idle rfl nofun)
    (Process.meets_of_forall (fun _ _ _ => ⟨fun _ _ _ => trivial,
      fun _ hmem => regular_of_step hmem⟩) _)).2 share h
  exact ⟨(AcceptedShare.region_eq_iff hvalid hacc).mpr hform.extranonce2, hform.extranonce2,
    grantedTo_of_accept rfl h⟩

end

/-- In every run of a Stratum V1 session, an accepted share carries the session's prefix and the
extranonce of the submit exactly if the extranonce has the size advertised. In every run of a
Stratum V2 session it always does, with the prefix and the size that were granted. -/
theorem extranonce_carried {H : Bytes → ByteVec 32} {A : AddressLib} {W : Sv2.Wire} (hA : A.Lawful)
    (cfg : Config) (network : Network) (sessionId : Str) (extranonce1 : Bytes)
    (template : Option JobTemplate) (now : Instant) :
    (∀ (inputs : List Sv1.Input) (share : AcceptedShare),
      .accept share ∈ Effect.actions ((Sv1.Session.process H A).run
        (.new cfg network sessionId extranonce1 template now) inputs).outputs →
      (share.region = extranonce1 ++ share.params.extranonce2 ↔
        share.params.extranonce2.length = cfg.pool.extranonce2Size)) ∧
    ∀ (inputs : List Sv2.Input) (share : AcceptedShare),
      .accept share ∈ Effect.actions ((Sv2.Session.process W H A).run
        (.new cfg network sessionId extranonce1 template now) inputs).outputs →
      share.region = share.session.extranonce1 ++ share.params.extranonce2 ∧
        share.params.extranonce2.length = share.session.extranonce2Size ∧
        ∃ input ∈ inputs, Sv2.Session.GrantedTo
          (cfg.pool.extranonce1Size + cfg.pool.extranonce2Size) input share.session :=
  ⟨fun _ _ h => Sv1.Session.region_eq_iff hA h, fun _ _ h => Sv2.Session.region_eq hA h⟩

/-- The first share of a regtest run of either protocol carries the prefix and the submit's part. -/
theorem extranonce_carried_regtest :
    (∃ share ∈ Sv1.regtestAccepted Sv1.oneSubmit, share.region = [1, 2, 3, 4, 5, 6, 7, 8]) ∧
    ∃ share ∈ (Sv2.regtestStretch Sv2.twoSubmits).accepted,
      share.region = [0, 0, 0, 1, 5, 6, 7, 8] := by
  obtain ⟨hsv1, hsv2⟩ := extranonce_carried (H := lengthHash) (W := .exact) lawful_regtestAddresses
    regtestConfig .regtest "s".toList [1, 2, 3, 4] (some regtestTemplate) 0
  refine ⟨?_, ?_⟩
  · have hone : Sv1.regtestAccepted Sv1.oneSubmit ≠ [] ∧
        ∀ share ∈ Sv1.regtestAccepted Sv1.oneSubmit, share.params.extranonce2 = [5, 6, 7, 8] := by
      decide +kernel
    obtain ⟨share, hshare⟩ := List.exists_mem_of_ne_nil _ hone.1
    obtain ⟨st, hst, hmem⟩ := List.mem_flatMap.mp hshare
    have hcarried := (hsv1 (Sv1.regtestInputs ++ Sv1.oneSubmit) share
      (Core.mem_accepted_iff.mpr ⟨st, hst, hmem⟩)).mpr (by rw [hone.2 share hshare]; rfl)
    rw [hone.2 share hshare] at hcarried
    exact ⟨share, hshare, hcarried⟩
  · have htwo : (Sv2.regtestStretch Sv2.twoSubmits).accepted ≠ [] ∧
        ∀ share ∈ (Sv2.regtestStretch Sv2.twoSubmits).accepted,
          share.session.extranonce1 = [0, 0, 0, 1] ∧ share.params.extranonce2 = [5, 6, 7, 8] := by
      decide +kernel
    obtain ⟨share, hshare⟩ := List.exists_mem_of_ne_nil _ htwo.1
    obtain ⟨hcarried, -⟩ := hsv2 (Sv2.regtestInputs ++ Sv2.twoSubmits) share
      (Sv2.accept_of_regtestStretch hshare)
    rw [(htwo.2 share hshare).1, (htwo.2 share hshare).2] at hcarried
    exact ⟨share, hshare, hcarried⟩

/-- The shares a regtest session with the given prefix accepts for a submit without an
extranonce. -/
def Sv1.acceptedShort (extranonce1 : Bytes) : List AcceptedShare :=
  (Core.history (Effect.actions ((Sv1.Session.process lengthHash regtestAddresses).run
    (.new regtestConfig .regtest "s".toList extranonce1 (some regtestTemplate) 0)
    (Sv1.regtestInputs ++
      [.regtest (.submit { Sv1.regtestSubmit with extranonce2 := [] })])).outputs)
    ).current.accepted

/-- A submit without an extranonce is accepted, and its coinbase and header are the same in every
session: the region is left zero. -/
theorem Sv1.short_extranonce_of_every_session :
    (Sv1.acceptedShort [1, 2, 3, 4]).length = 1 ∧ (Sv1.acceptedShort [9, 9, 9, 9]).length = 1 ∧
    ∀ a ∈ Sv1.acceptedShort [1, 2, 3, 4], ∀ b ∈ Sv1.acceptedShort [9, 9, 9, 9],
      a.region = List.replicate 8 0 ∧ a.coinbase = b.coinbase ∧
        a.header lengthHash = b.header lengthHash := by
  decide +kernel

end BtcPool
