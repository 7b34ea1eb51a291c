import BtcPool.Mining.CoinbaseFits
import BtcPool.Protocol.Sv2.Dialogue

/-!
# Which channels can be opened

A device asks for a number of extranonce bytes; it gets them out of the reserved width, and the rest
becomes the pool's prefix. The prefix goes out in a field of at most 32 bytes, but the boot check
bounds the reserved width only by the room in the scriptSig. `opens_iff` says for which requests the
channel opens: those that leave a prefix that fits. On a pool with a wide extranonce a device that
asks for little is dropped (`wide_extranonce_dropped`).
-/

namespace BtcPool.Sv2.Session

open Bitcoin

/-- A session that waits for its channel to be opened, with the widths of its configuration. -/
structure Awaiting (c : LoadedConfig) (s : Session) : Prop where
  setupDone : s.setupDone
  closed : s.channelOpen = false
  total : s.extranonceTotal = c.pool.extranonce1Size + c.pool.extranonce2Size
  tag : s.coinbaseTag = c.pool.coinbaseTag

/-- The width granted to a device. -/
def granted (o : OpenExtended) : ℕ := max o.minExtranonceSize.toNat 1

/-- A template the first job can be made of: one the engine accepted, whose coinbase fits. -/
def Sendable (template : JobTemplate) : Prop :=
  template.Buildable ∧ ∃ H gbt, buildJobTemplate H gbt = .ok template

/-- The channel is open and announced, with the granted bytes and a prefix that fits and fills the
rest of the width; and the session goes on, if there is no job to send or one that can be made. -/
structure OpensChannel (s : Session) (o : OpenExtended) (identity : MinerIdentity) (total : ℕ)
    (after : Session) (ms : List Message) (continues : Prop) : Prop where
  isOpen : after.channelOpen
  granted_pos : 1 ≤ granted o
  granted : after.extranonceSize = granted o
  width : after.extranoncePrefix.length + after.extranonceSize = total
  fits : after.extranoncePrefix.length ≤ 32
  announced : .openExtendedSuccess o.requestId after.channelId (s.openTarget o.maxTarget)
    (UInt16.ofNat after.extranonceSize) after.extranoncePrefix ∈ ms
  continues : identity.payout.scriptPubkey.length ≤ 42 →
    (∀ template, s.pendingTemplate = some template → Sendable template) → continues

section Opening

variable {c : LoadedConfig} {W : Wire} {env : Surroundings} {s : Session} {o : OpenExtended}
  {identity : MinerIdentity}

theorem deliver_eq_sent (hW : W.Lawful) (hwritten : ∀ m, env.written m) (m : Message) :
    deliver W env m = .sent := by
  rw [deliver, if_neg (by simp [hW.encodes m]), if_pos (hwritten m)]

/-! ## The first job -/

/-- The messages of a job of a template the engine accepted fit their fields. -/
theorem exists_buildNewExtendedJob (hW : W.Lawful) {template : JobTemplate} (ht : Sendable template)
    {payout : PayoutDescriptor} {tag : Str} {en1 en2 : ℕ} {job : StratumJob}
    (hjob : BuiltJob template payout tag en1 en2 job) (channelId jobId : UInt32) (future : Bool) :
    ∃ m, buildNewExtendedJob W job channelId jobId future = .ok m := by
  obtain ⟨-, H, gbt, hbuilt⟩ := ht
  have hbranch := (buildJobTemplate_spec H hbuilt).length_merkleBranchRaw_le
  have hweight := hjob.coinbase.weight
  simp only [buildNewExtendedJob, bind_eq_ok, ensure_eq_ok, pure_eq_ok]
  refine ⟨_, (), (hW.fitsSeq0255_iff _).mpr ?_, (), (hW.fitsB064K_iff _).mpr ?_, (),
    (hW.fitsB064K_iff _).mpr ?_, rfl⟩
  · rw [hjob.merkleBranchRaw]
    omega
  · rw [hjob.coinbase1, List.length_take]
    omega
  · rw [hjob.coinbase2, List.length_drop]
    omega

theorem exists_buildSetNewPrevHash {template : JobTemplate} (ht : Sendable template)
    {payout : PayoutDescriptor} {tag : Str} {en1 en2 : ℕ} {job : StratumJob}
    (hjob : BuiltJob template payout tag en1 en2 job) (channelId jobId : UInt32) :
    ∃ m, buildSetNewPrevHash job channelId jobId = .ok m := by
  obtain ⟨-, H, gbt, hbuilt⟩ := ht
  have hspec := buildJobTemplate_spec H hbuilt
  obtain ⟨bytes, -, hlen, hprev⟩ := hspec.prevHash
  obtain ⟨bits, hbits, -⟩ := hspec.networkTarget
  have h32 : (wordSwap bytes.reverse).length = 32 := by
    rw [length_wordSwap, List.length_reverse, hlen]
  have hinternal : stratumPrevhashToInternal job.prevHash =
      .ok ⟨wordSwap (wordSwap bytes.reverse), by rw [length_wordSwap, h32]⟩ := by
    rw [stratumPrevhashToInternal, hjob.prevHash, hprev, hexDecode_hexEncode]
    exact dif_pos h32
  unfold buildSetNewPrevHash
  rw [hinternal, hjob.bits, hspec.bits, hbits]
  exact ⟨_, rfl⟩

/-- With every write going through, the first job of a channel goes out. -/
theorem sendJob_ok (hc : c.Accepted) (hW : W.Lawful) (hwritten : ∀ m, env.written m)
    (hidentity : s.identity = some identity) (hscript : identity.payout.scriptPubkey.length ≤ 42)
    (htag : s.coinbaseTag = c.pool.coinbaseTag)
    (hwidth : s.extranoncePrefix.length + s.extranonceSize =
      c.pool.extranonce1Size + c.pool.extranonce2Size)
    {template : JobTemplate} (ht : Sendable template) (effects : List (Effect Message)) :
    (sendJob W env s template true false effects).1 = true := by
  obtain ⟨job, hjob⟩ := hc.exists_job env.jobId ht.1 hscript hwidth
  have hbuilt := (buildJobForPayout_spec hjob).2
  obtain ⟨newJob, hnew⟩ := exists_buildNewExtendedJob hW ht hbuilt
    (s.assignJobId job.jobId).2.channelId (s.assignJobId job.jobId).1 true
  obtain ⟨setPrev, hprev⟩ := exists_buildSetNewPrevHash ht hbuilt
    (s.assignJobId job.jobId).2.channelId (s.assignJobId job.jobId).1
  have hsent := deliver_eq_sent hW hwritten
  unfold sendJob
  simp only [hidentity, htag, hjob, hnew, hprev, hsent, ne_eq, not_true_eq_false, if_false]

/-- What a job sent or not sent leaves as it is. -/
theorem sendJob_frame {template : JobTemplate} {future cleared ok : Bool} {s' : Session}
    {effects effects' : List (Effect Message)}
    (h : sendJob W env s template future cleared effects = (ok, s', effects')) :
    s'.channelOpen = s.channelOpen ∧ s'.channelId = s.channelId ∧
      s'.extranonceSize = s.extranonceSize ∧ s'.extranoncePrefix = s.extranoncePrefix ∧
      Effect.messages effects <+: Effect.messages effects' := by
  have hmessages : Effect.messages effects <+: Effect.messages effects' := by
    rcases sendJob_messages h with ⟨-, hsame | ⟨_, _, -, -, hjob⟩⟩ | ⟨_, _, _, -, -, -, -, -, hjob⟩
    · rw [hsame]
    · exact ⟨_, hjob.symm⟩
    · exact ⟨_, hjob.symm⟩
  obtain ⟨_, _, ⟨-, rfl, -⟩ | ⟨_, _, -, -, -, rfl, -⟩⟩ := sendJob_cases h
  · exact ⟨rfl, rfl, rfl, rfl, hmessages⟩
  · exact ⟨rfl, rfl, rfl, rfl, hmessages⟩

/-! ## The answer -/

theorem announceChannel_opens (hc : c.Accepted) (hW : W.Lawful) (hwritten : ∀ m, env.written m)
    (hidentity : s.identity = some identity) (htag : s.coinbaseTag = c.pool.coinbaseTag)
    (hsize : s.extranonceSize = granted o)
    (hwidth : s.extranoncePrefix.length + s.extranonceSize =
      c.pool.extranonce1Size + c.pool.extranonce2Size)
    (hfits : s.extranoncePrefix.length ≤ 32) (effects : List (Effect Message)) :
    OpensChannel s o identity (c.pool.extranonce1Size + c.pool.extranonce2Size)
      (announceChannel W env s o effects).session
      (Effect.messages (announceChannel W env s o effects).effects)
      ((announceChannel W env s o effects).flow = .continue) := by
  have hpos : 1 ≤ granted o := le_max_right _ _
  have hsaid : say W env s effects (s.openExtendedSuccess o) "OpenExtendedMiningChannelSuccess" =
      ⟨s, effects ++ [.send (s.openExtendedSuccess o)], .continue⟩ := by
    rw [say, deliver_eq_sent hW hwritten]
  have hannounced : s.openExtendedSuccess o ∈
      Effect.messages (effects ++ [.send (s.openExtendedSuccess o)]) := by
    simp
  rw [announceChannel, if_neg (by simpa using (hW.fitsB032_iff _).mpr hfits), hsaid]
  dsimp only
  split
  · exact ⟨rfl, hpos, hsize, hwidth, hfits, hannounced, fun _ _ => rfl⟩
  · rename_i template htemplate
    have hok := fun hscript (ht : Sendable template) =>
      sendJob_ok (s := { s with channelOpen := true }) hc hW hwritten hidentity hscript htag hwidth
        ht (effects ++ [.send (s.openExtendedSuccess o)])
    generalize hsend : sendJob W env _ template true false _ = sent at hok ⊢
    obtain ⟨ok, s', effects'⟩ := sent
    obtain ⟨hopen, hid, hsize', hrest, hmore⟩ := sendJob_frame hsend
    refine ⟨hopen, hpos, hsize'.trans hsize, ?_, ?_, ?_, ?_⟩
    · dsimp only
      rw [hrest, hsize']
      exact hwidth
    · dsimp only
      rw [hrest]
      exact hfits
    · dsimp only
      rw [hid, hsize', hrest]
      exact hmore.subset hannounced
    · intro hscript hsendable
      exact if_pos (hok hscript (hsendable template htemplate))

/-- A session that got its share of the reserved width. -/
structure Granted (s : Session) (o : OpenExtended) (identity : MinerIdentity) (s' : Session) :
    Prop where
  identity : s'.identity = some identity
  size : s'.extranonceSize = granted o
  rest : s'.extranoncePrefix.length = s.extranonceTotal - granted o
  same : s' = { s with
    extranonceSize := s'.extranonceSize, extranoncePrefix := s'.extranoncePrefix
    channelId := s'.channelId, worker := s'.worker, identity := s'.identity, guard := s'.guard }

/-- A request within the reserved width is granted. -/
theorem grantChannel_eq (W : Wire) (env : Surroundings) (s : Session) (identity : MinerIdentity)
    (hrequest : o.minExtranonceSize.toNat ≤ s.extranonceTotal)
    (isNew : Bool) (effects : List (Effect Message)) :
    ∃ s' effects', Granted s o identity s' ∧
      grantChannel W env s o identity isNew effects = announceChannel W env s' o effects' := by
  unfold grantChannel
  dsimp only
  rw [if_neg (by omega)]
  exact ⟨_, _, ⟨rfl, rfl, length_generateExtranonce1 _ _, rfl⟩, rfl⟩

theorem checkWorkerName_of_parse {A : AddressLib} {raw : Str} {network : Network}
    {guard : SessionGuard}
    (h : MinerIdentity.parse A raw network guard.maxWorkerNameLen = .ok identity) :
    guard.checkWorkerName raw = .ok () := by
  simp only [MinerIdentity.parse, bind_eq_ok] at h
  obtain ⟨_, hname, -⟩ := h
  exact ok_of_mapError hname

/-- The first open of a valid identity comes to the answer, with the width granted. -/
theorem handleOpenExtended_eq (W : Wire) (env : Surroundings) {A : AddressLib} (hs : Awaiting c s)
    (hparse : MinerIdentity.parse A o.userIdentity s.network s.guard.maxWorkerNameLen =
      .ok identity)
    (hcap : s.guard.recordNewAuthorization.1)
    (hrequest : o.minExtranonceSize.toNat ≤ c.pool.extranonce1Size + c.pool.extranonce2Size) :
    ∃ s' effects', Granted s o identity s' ∧
      handleOpenExtended W A env s (.ok o) = announceChannel W env s' o effects' := by
  have hrequest : o.minExtranonceSize.toNat ≤ s.extranonceTotal := hs.total ▸ hrequest
  unfold handleOpenExtended
  rw [if_neg (by simp [hs.setupDone])]
  simp only [checkWorkerName_of_parse hparse, hparse, hcap, not_true_eq_false, if_false]
  rw [if_neg (by simp [hs.closed])]
  split
  · exact grantChannel_eq W env s identity hrequest false []
  · let admitted : Session := { s with guard := s.guard.recordNewAuthorization.2 }
    obtain ⟨s', effects', hgranted, heq⟩ :=
      grantChannel_eq W env admitted.dropIdentity.1 identity hrequest true admitted.dropIdentity.2
    exact ⟨s', effects', ⟨hgranted.identity, hgranted.size, hgranted.rest, hgranted.same⟩, heq⟩

/-! ## The turn -/

/-- With every write going through, the end of a turn does not drop the session. -/
theorem applyRetarget_opens (hW : W.Lawful) (hwritten : ∀ m, env.written m) {before : Session}
    {total : ℕ} {effects : List (Effect Message)} {continues : Prop}
    (h : OpensChannel before o identity total s (Effect.messages effects) continues) :
    OpensChannel before o identity total (applyRetarget W env s effects).state
      (Effect.messages (applyRetarget W env s effects).outputs)
      (applyRetarget W env s effects).live := by
  have hsent := deliver_eq_sent hW hwritten
  rcases hret : s.vardiff.checkRetarget env.now (networkDifficulty s.pendingTemplate) env.rate with
    ⟨_ | d, vardiff⟩
  · have heq : applyRetarget W env s effects = ⟨{ s with vardiff }, effects, true⟩ := by
      rw [applyRetarget, if_neg (not_not.mpr h.isOpen), hret]
    rw [heq]
    exact ⟨h.isOpen, h.granted_pos, h.granted, h.width, h.fits, h.announced,
      fun _ _ => rfl⟩
  · have heq : ∃ more, applyRetarget W env s effects =
        ⟨{ s with vardiff, difficulty := d }, effects ++ more, true⟩ := by
      simp only [applyRetarget, if_neg (not_not.mpr h.isOpen), hret, hsent, if_true,
        List.append_assoc]
      exact ⟨_, rfl⟩
    obtain ⟨more, heq⟩ := heq
    rw [heq]
    refine ⟨h.isOpen, h.granted_pos, h.granted, h.width, h.fits, ?_,
      fun _ _ => rfl⟩
    rw [Effect.messages_append]
    exact List.mem_append_left _ h.announced

/-- The rest of the turn, after the handler. -/
theorem turn_opens (hW : W.Lawful) (hwritten : ∀ m, env.written m) {before : Session} {total : ℕ}
    (handled : Handled) (h : OpensChannel before o identity total handled.session
      (Effect.messages handled.effects) (handled.flow = .continue))
    {out : Outcome Session (Effect Message)}
    (hout : out = match handled.flow with
      | .continue => applyRetarget W env handled.session handled.effects
      | .disconnect _ => handled.session.finish handled.effects) :
    OpensChannel before o identity total out.state (Effect.messages out.outputs) out.live := by
  subst hout
  split
  · exact applyRetarget_opens hW hwritten h
  · rename_i reason hflow
    refine ⟨h.isOpen, h.granted_pos, h.granted, h.width, h.fits, ?_, fun hscript ht => ?_⟩
    · simpa [finish] using h.announced
    · have hcontinue := h.continues hscript ht
      rw [hflow] at hcontinue
      cases hcontinue

/-- A device that may open a channel, with a valid name and a request within the reserved width,
gets its channel if what it does not ask for fits in a prefix of 32 bytes. -/
theorem step_opens (hc : c.Accepted) (hW : W.Lawful) (hwritten : ∀ m, env.written m)
    (hrate : env.rateOk) (H : Bytes → ByteVec 32) {A : AddressLib} (hs : Awaiting c s)
    {payloadLen : ℕ} (hlen : s.guard.checkMessageSize payloadLen = .ok ())
    (hparse : MinerIdentity.parse A o.userIdentity s.network s.guard.maxWorkerNameLen =
      .ok identity)
    (hcap : s.guard.recordNewAuthorization.1)
    (hrequest : o.minExtranonceSize.toNat ≤ c.pool.extranonce1Size + c.pool.extranonce2Size)
    (hfits : c.pool.extranonce1Size + c.pool.extranonce2Size ≤ 32 + granted o) :
    OpensChannel s o identity (c.pool.extranonce1Size + c.pool.extranonce2Size)
      (step W H A s ⟨.frame payloadLen (.openExtended (.ok o)), env⟩).state
      (Effect.messages (step W H A s ⟨.frame payloadLen (.openExtended (.ok o)), env⟩).outputs)
      (step W H A s ⟨.frame payloadLen (.openExtended (.ok o)), env⟩).live := by
  obtain ⟨s', effects', hgranted, heq⟩ := handleOpenExtended_eq W env hs hparse hcap hrequest
  have hrest := hgranted.rest
  rw [hs.total] at hrest
  have hgrant : granted o ≤ c.pool.extranonce1Size + c.pool.extranonce2Size :=
    max_le hrequest hc.extranonce
  have htag : s'.coinbaseTag = c.pool.coinbaseTag := by
    rw [hgranted.same]
    exact hs.tag
  have hopens := announceChannel_opens hc hW hwritten hgranted.identity htag hgranted.size
    (by rw [hgranted.size]; omega) (by omega) effects'
  have htarget : s'.openTarget o.maxTarget = s.openTarget o.maxTarget := by
    rw [hgranted.same]
    rfl
  have htemplate : s'.pendingTemplate = s.pendingTemplate := by rw [hgranted.same]
  refine turn_opens hW hwritten (announceChannel W env s' o effects') ?_ ?_
  · refine ⟨hopens.isOpen, hopens.granted_pos, hopens.granted, hopens.width, hopens.fits, ?_, ?_⟩
    · rw [← htarget]
      exact hopens.announced
    · rw [← htemplate]
      exact hopens.continues
  · have hhandle : handleMessage W H A env s (.openExtended (.ok o)) =
        announceChannel W env s' o effects' := by
      rw [handleMessage, if_neg (not_not.mpr hrate)]
      exact heq
    cases hflow : (announceChannel W env s' o effects').flow <;> simp [step, hlen, hhandle, hflow]

end Opening

/-- In every run of a pool that started, a device that asks for its first channel after the setup,
with a valid name, within its identities and with a request within the reserved width, gets it if
and only if what it does not ask for fits in a prefix of 32 bytes. -/
theorem opens_iff {c : LoadedConfig} (hc : c.validate = .ok ()) {W : Wire} (hW : W.Lawful)
    (H : Bytes → ByteVec 32) (A : AddressLib) (network : Network) (sessionId : Str)
    (extranoncePrefix : Bytes) (template : Option JobTemplate) (now : Instant) (inputs : List Input)
    (hlive : ((process W H A).run
      (new c.toConfig network sessionId extranoncePrefix template now) inputs).live) :
    let s := ((process W H A).run
      (new c.toConfig network sessionId extranoncePrefix template now) inputs).state
    s.setupDone → s.channelOpen = false →
    ∀ (env : Surroundings) (payloadLen : ℕ) (o : OpenExtended) (identity : MinerIdentity),
      env.rateOk → (∀ m, env.written m) → s.guard.checkMessageSize payloadLen = .ok () →
      MinerIdentity.parse A o.userIdentity s.network s.guard.maxWorkerNameLen = .ok identity →
      s.guard.recordNewAuthorization.1 →
      o.minExtranonceSize.toNat ≤ c.pool.extranonce1Size + c.pool.extranonce2Size →
      let out := step W H A s ⟨.frame payloadLen (.openExtended (.ok o)), env⟩
      OpensChannel s o identity (c.pool.extranonce1Size + c.pool.extranonce2Size) out.state
          (Effect.messages out.outputs) out.live ↔
        c.pool.extranonce1Size + c.pool.extranonce2Size ≤ 32 + max o.minExtranonceSize.toNat 1 := by
  intro s hsetup hclosed env payloadLen o identity hrate hwritten hlen hparse hcap hrequest out
  have hsettings := run_settings _ inputs hlive
  have hs : Awaiting c s := ⟨hsetup, hclosed, congrArg (fun v => v.2.2) hsettings,
    congrArg (fun v => v.2.1) hsettings⟩
  constructor
  · intro h
    have hwidth := h.width
    have hfits := h.fits
    have hsize := h.granted
    unfold granted at hsize
    omega
  · intro hfits
    exact step_opens (LoadedConfig.validate_eq_ok.mp hc) hW hwritten hrate H hs hlen hparse hcap
      hrequest hfits

/-- A device that asks for a channel. -/
def regtestOpen : OpenExtended where
  requestId := 1
  userIdentity := regtestPayout.address
  maxTarget := List.Vector.replicate 32 0xff
  minExtranonceSize := 4

/-- A device that asks the regtest pool for four bytes gets its channel. -/
theorem opens_iff_regtest :
    let s := ((process .exact zeroHash regtestAddresses).run
      (new regtestConfig .regtest "s".toList [1, 2, 3, 4] (some regtestTemplate) 0)
      [regtestSetup]).state
    ∃ identity, MinerIdentity.parse regtestAddresses regtestPayout.address .regtest 128 =
        .ok identity ∧
      OpensChannel s regtestOpen identity 8
        (step .exact zeroHash regtestAddresses s (.regtest (.openExtended (.ok regtestOpen)))).state
        (Effect.messages (step .exact zeroHash regtestAddresses s
          (.regtest (.openExtended (.ok regtestOpen)))).outputs)
        (step .exact zeroHash regtestAddresses s
          (.regtest (.openExtended (.ok regtestOpen)))).live := by
  obtain ⟨identity, hparse⟩ := exists_of_isOk
    (x := MinerIdentity.parse regtestAddresses regtestPayout.address .regtest 128)
      (by decide +kernel)
  refine ⟨identity, hparse, ?_⟩
  refine (opens_iff validate_regtestLoaded Wire.lawful_exact zeroHash regtestAddresses .regtest
    "s".toList [1, 2, 3, 4] (some regtestTemplate) 0 [regtestSetup] (by decide +kernel)
    (by decide +kernel) (by decide +kernel)
    { toEnv := .regtest "1".toList, extranonceCounter := 1, nextChannelId := 1 } 100 regtestOpen _
    rfl (fun _ => rfl) (by decide +kernel) hparse (by decide +kernel) (by decide +kernel)).mpr
    (by decide +kernel)

/-- The regtest pool with an extranonce of 44 bytes. -/
def wideLoaded : LoadedConfig :=
  { regtestLoaded with pool := { regtestLoaded.pool with extranonce2Size := 40 } }

/-- It starts, and drops a device that asks for four of the 44 bytes: the prefix of the other 40 is
no value of its field, so the open is not answered. -/
theorem wide_extranonce_dropped :
    let s := ((process .exact zeroHash regtestAddresses).run
      (new wideLoaded.toConfig .regtest "s".toList [1, 2, 3, 4] (some regtestTemplate) 0)
      [regtestSetup]).state
    let out := step .exact zeroHash regtestAddresses s (.regtest (.openExtended (.ok regtestOpen)))
    wideLoaded.validate = .ok () ∧ wideLoaded.sv2.enabled ∧ s.setupDone ∧
      (MinerIdentity.parse regtestAddresses regtestPayout.address .regtest 128).isOk ∧
      s.guard.recordNewAuthorization.1 ∧ regtestOpen.minExtranonceSize.toNat ≤ 44 ∧
      out.state.extranoncePrefix.length = 40 ∧ out.state.channelOpen = false ∧
      Effect.messages out.outputs = [] ∧ out.live = false ∧
      (handleOpenExtended .exact regtestAddresses
        { toEnv := .regtest "1".toList, extranonceCounter := 1, nextChannelId := 1 } s
        (.ok regtestOpen)).flow = .disconnect "encode OpenExtendedMiningChannelSuccess" := by
  decide +kernel

end BtcPool.Sv2.Session
