import BtcPool.Network.Effects
import BtcPool.Network.Extranonce
import BtcPool.Protocol.Messages

/-!
# The Stratum V2 session

The session loop of `protocol/sv2/mod.rs` and its handlers, one definition each, in the form of the
Stratum V1 session. A frame comes here as what the decoder of its type made of it; the Noise
transport is not modelled. `Session.process` is the loop as a process.
-/

namespace BtcPool.Sv2

open Bitcoin

/-! ## State -/

/-- A session that speaks Stratum V2. -/
structure Session where
  sessionId : Str
  worker : Option Str
  identity : Option MinerIdentity
  setupDone : Bool
  channelOpen : Bool
  channelId : UInt32
  extranoncePrefix : Bytes
  extranonceSize : ℕ
  extranonceTotal : ℕ
  difficulty : UInt64
  vardiff : Vardiff
  vardiffCfg : VardiffConfig
  credit : ShareCredit
  shareSet : ShareSet
  guard : SessionGuard
  jobIds : List (UInt32 × Str)
  nextJobId : UInt32
  issuedJobs : IssuedJobs
  pendingTemplate : Option JobTemplate
  coinbaseTag : Str
  network : Network

/-- What the decoder made of a frame, by its type. -/
inductive Frame
  | setupConnection (decoded : Except String SetupConn)
  | openExtended (decoded : Except String OpenExtended)
  | submitExtended (decoded : Except String SubmitExtended)
  | other (msgType : UInt8)

/-- What a session turns to next. -/
inductive Event
  | frame (payloadLen : ℕ) (frame : Frame)
  | broadcast (template : JobTemplate) (clean : Bool)
  | lagged (missed : ℕ)
  /-- The reader closed, the connection timed out, or the engine is gone. -/
  | closed

/-- Besides what every session takes from the world, the next numbers of two counters. -/
structure Surroundings extends Env Message where
  extranonceCounter : UInt64
  nextChannelId : UInt32

/-- An event and what the session finds around it. -/
structure Input where
  event : Event
  env : Surroundings

/-- The templates that come in with an input are among those offered. -/
def Input.Offers (input : Input) (offered : JobTemplate → Prop) : Prop :=
  ∀ template clean, input.event = .broadcast template clean → offered template

/-- Whether the session goes on. -/
inductive Flow
  | continue
  | disconnect (reason : String)
  deriving DecidableEq

/-- The session after a handler, what it did, and whether it goes on. -/
structure Handled where
  session : Session
  effects : List (Effect Message)
  flow : Flow

namespace Session

/-- A session that has just connected. -/
def new (cfg : Config) (network : Network) (sessionId : Str) (extranoncePrefix : Bytes)
    (template : Option JobTemplate) (now : Instant) : Session where
  sessionId := sessionId
  worker := none
  identity := none
  setupDone := false
  channelOpen := false
  channelId := 0
  extranoncePrefix := extranoncePrefix
  extranonceSize := cfg.pool.extranonce2Size
  extranonceTotal := cfg.pool.extranonce1Size + cfg.pool.extranonce2Size
  difficulty := cfg.pool.initialDifficulty
  vardiff := .new cfg.vardiff cfg.pool.initialDifficulty now
  vardiffCfg := cfg.vardiff
  credit := .new cfg.vardiff.minDifficulty now
  shareSet := .new
  guard := .new cfg.security
  jobIds := []
  nextJobId := 1
  issuedJobs := .new
  pendingTemplate := template
  coinbaseTag := cfg.pool.coinbaseTag
  network := network

/-- The name the session is booked under. -/
def statsWorker (s : Session) : Option Str := s.identity.map fun i => i.canonicalName

/-- What the session keeps that both protocols keep. -/
def core (s : Session) : Core where
  identity := s.identity
  extranonce1 := s.extranoncePrefix
  extranonce2Size := s.extranonceSize
  rollMask := versionRollingMask
  issuedJobs := s.issuedJobs
  shareSet := s.shareSet

/-! ## Job ids -/

/-- Allocate a job id of the protocol and remember the job it stands for, of the last sixteen. -/
def assignJobId (s : Session) (engineJobId : Str) : UInt32 × Session :=
  let id := s.nextJobId
  let following := id + 1
  let jobIds := s.jobIds ++ [(id, engineJobId)]
  (id, { s with
    nextJobId := if following = 0 then 1 else following
    jobIds := jobIds.drop (jobIds.length - 16) })

/-- The engine's name for a job of the channel. -/
def engineJobId (s : Session) (sv2JobId : UInt32) : Option Str :=
  (s.jobIds.find? fun entry => entry.1 == sv2JobId).map fun entry => entry.2

/-! ## Setup -/

/-- The outcome of encoding and writing a message. -/
inductive Delivery
  | sent
  | unencodable
  | lost
  deriving DecidableEq

/-- What becomes of a message. -/
def deliver (W : Wire) (env : Surroundings) (message : Message) : Delivery :=
  if ¬ W.encodes message then .unencodable else if env.written message then .sent else .lost

/-- Write a message and go on if it went out. -/
def say (W : Wire) (env : Surroundings) (s : Session) (effects : List (Effect Message))
    (message : Message) (name : String) : Handled :=
  match deliver W env message with
  | .sent => ⟨s, effects ++ [.send message], .continue⟩
  | .unencodable => ⟨s, effects, .disconnect s!"encode {name}"⟩
  | .lost => ⟨s, effects, .disconnect "write"⟩

/-- Write a message if it can be written; what follows does not depend on it. -/
def trySend (W : Wire) (env : Surroundings) (message : Message) : List (Effect Message) :=
  if deliver W env message = .sent then [.send message] else []

/-- The version of the protocol the pool speaks. -/
def sv2ProtocolVersion : UInt16 := 2

/-- The features a device may not require. -/
def unsupportedSetupFlags : UInt32 := 0b11

/-- Tell the device why, then disconnect. -/
def setupError (W : Wire) (env : Surroundings) (s : Session) (code : String) (flags : UInt32)
    (reason : String) : Handled :=
  ⟨s, trySend W env (.setupConnectionError code flags), .disconnect reason⟩

/-- `SetupConnection`: the device and the pool settle the protocol and its version. -/
def handleSetupConnection (W : Wire) (env : Surroundings) (s : Session)
    (decoded : Except String SetupConn) : Handled :=
  match decoded with
  | .error e => ⟨s, [], .disconnect s!"bad SetupConnection: {e}"⟩
  | .ok setup =>
    let low := setup.minVersion
    let high := setup.maxVersion
    let shownFlags := String.ofList (Nat.toDigits 16 setup.flags.toNat)
    if setup.protocol ≠ .mining then
      let shown := setup.protocol.debug
      setupError W env s "unsupported-protocol" 0 s!"unsupported sub-protocol: {shown}"
    else if setup.minVersion > sv2ProtocolVersion then
      setupError W env s "protocol-version-mismatch" 0
        s!"unsupported SV2 version range {low}..{high}"
    else if setup.flags &&& unsupportedSetupFlags ≠ 0 then
      setupError W env s "unsupported-feature-flags" unsupportedSetupFlags
        s!"unsupported feature flags 0x{shownFlags}"
    else
      say W env { s with setupDone := true } []
        (.setupConnectionSuccess (min sv2ProtocolVersion setup.maxVersion)) "SetupConnectionSuccess"

/-! ## Jobs -/

/-- Send a job to the device. With `future` the job waits for the previous hash sent after it; else
it is for the one announced last. False when the session should end. The action recorded for the
core clears the shares too if the caller did. -/
def sendJob (W : Wire) (env : Surroundings) (s : Session) (template : JobTemplate)
    (future cleared : Bool) (effects : List (Effect Message)) :
    Bool × Session × List (Effect Message) :=
  match s.identity with
  | none => (false, s, effects)
  | some identity =>
    match buildJobForPayout env.jobId template identity.payout s.coinbaseTag
        s.extranoncePrefix.length s.extranonceSize with
    | .error _ => (false, s, effects)
    | .ok job =>
      let (sv2JobId, s) := s.assignJobId job.jobId
      match buildNewExtendedJob W job s.channelId sv2JobId future with
      | .error _ => (false, s, effects)
      | .ok newJob =>
        if deliver W env (.newExtendedMiningJob newJob) ≠ .sent then (false, s, effects)
        else
          let effects := effects ++ [.send (.newExtendedMiningJob newJob)]
          let issued := { s with issuedJobs := s.issuedJobs.issue job future s.difficulty }
          let action : Core.Action := if cleared then .renew template job s.difficulty
            else .issue template job future s.difficulty
          if ¬ future then (true, issued, effects ++ [.core action])
          else
            match buildSetNewPrevHash job s.channelId sv2JobId with
            | .error _ => (false, s, effects)
            | .ok setPrev =>
              if deliver W env (.setNewPrevHash setPrev) ≠ .sent then (false, s, effects)
              else (true, issued, effects ++ [.send (.setNewPrevHash setPrev), .core action])

/-! ## Opening a channel -/

/-- A channel is refused. -/
def openError (W : Wire) (env : Surroundings) (s : Session) (requestId : UInt32) (code : String) :
    Handled :=
  say W env s [] (.openChannelError requestId code) "OpenMiningChannelError"

/-- Another identity: the one held goes offline. -/
def dropIdentity (s : Session) : Session × List (Effect Message) :=
  ({ s with worker := none, identity := none },
    (s.statsWorker.map fun name => .stats (.workerOffline name)).toList ++ [.core .retire])

/-- The target of the channel: that of the difficulty, or the device's own if that is harder. -/
def openTarget (s : Session) (maxTarget : ByteVec 32) : ByteVec 32 :=
  let target := difficultyToSv2Target s.difficulty
  if sv2TargetLe target maxTarget then target else maxTarget

/-- The answer to a device that gets its channel. -/
def openExtendedSuccess (s : Session) (o : OpenExtended) : Message :=
  .openExtendedSuccess o.requestId s.channelId (s.openTarget o.maxTarget)
    (UInt16.ofNat s.extranonceSize) s.extranoncePrefix

/-- Answer the open, and send the first job if there is a template. -/
def announceChannel (W : Wire) (env : Surroundings) (s : Session) (o : OpenExtended)
    (effects : List (Effect Message)) : Handled :=
  if ¬ W.fitsB032 s.extranoncePrefix then
    ⟨s, effects, .disconnect "encode OpenExtendedMiningChannelSuccess"⟩
  else
    let said := say W env s effects (s.openExtendedSuccess o) "OpenExtendedMiningChannelSuccess"
    match said.flow with
    | .disconnect _ => said
    | .continue =>
      let s := { s with channelOpen := true }
      match s.pendingTemplate with
      | none => ⟨s, said.effects, .continue⟩
      | some template =>
        let (ok, s, effects) := sendJob W env s template true false said.effects
        ⟨s, effects, if ok then .continue else .disconnect "write"⟩

/-- Give the device the bytes it asks for out of the reserved width, and the pool the rest. -/
def grantChannel (W : Wire) (env : Surroundings) (s : Session) (o : OpenExtended)
    (identity : MinerIdentity) (isNew : Bool) (effects : List (Effect Message)) : Handled :=
  let requested := o.minExtranonceSize.toNat
  if requested > s.extranonceTotal then
    ⟨s, effects ++ trySend W env (.openChannelError o.requestId "unsupported-min-extranonce-size"),
      .continue⟩
  else
    let granted := max requested 1
    let extranoncePrefix := generateExtranonce1 env.extranonceCounter (s.extranonceTotal - granted)
    let s := { s with
      extranonceSize := granted
      extranoncePrefix
      channelId := env.nextChannelId
      worker := some o.userIdentity
      identity := some identity }
    let online : List (Effect Message) := if isNew then
        [.stats (.workerOnline identity.canonicalName s.difficulty),
          .stats (.workerProtocol identity.canonicalName "sv2")]
      else []
    announceChannel W env s o
      (effects ++ [.core (.assign extranoncePrefix granted), .core (.identify identity)] ++ online)

/-- `OpenExtendedMiningChannel`: the device gets an identity, a channel and a first job. -/
def handleOpenExtended (W : Wire) (A : AddressLib) (env : Surroundings) (s : Session)
    (decoded : Except String OpenExtended) : Handled :=
  if ¬ s.setupDone then ⟨s, [], .disconnect "OpenExtendedMiningChannel before SetupConnection"⟩
  else
    match decoded with
    | .error e => ⟨s, [], .disconnect s!"bad OpenExtendedMiningChannel: {e}"⟩
    | .ok o =>
      match s.guard.checkWorkerName o.userIdentity with
      | .error _ => openError W env s o.requestId "invalid-user-identity"
      | .ok _ =>
        match MinerIdentity.parse A o.userIdentity s.network s.guard.maxWorkerNameLen with
        | .error _ => openError W env s o.requestId "invalid-user-identity"
        | .ok identity =>
          if s.channelOpen then openError W env s o.requestId "multiple-channels-unsupported"
          else if s.statsWorker = some identity.canonicalName then
            grantChannel W env s o identity false []
          else
            let (allowed, guard) := s.guard.recordNewAuthorization
            let s := { s with guard }
            if ¬ allowed then ⟨s, [], .disconnect "too many worker identities"⟩
            else
              let (s, effects) := s.dropIdentity
              grantChannel W env s o identity true effects

/-! ## Shares -/

/-- Book a rejected share; true when the session should be dropped. -/
def rejectShare (s : Session) (reason : RejectReason) : Bool × Session × Effect Message :=
  let (exceeded, guard) := s.guard.recordRejected reason
  (exceeded, { s with guard }, .stats (.rejected (s.statsWorker.getD ['?']) reason))

/-- A share is refused, and too many of those end the session. -/
def refuse (W : Wire) (env : Surroundings) (s : Session) (seq : UInt32) (reason : RejectReason)
    (code : String) : Handled :=
  let (exceeded, s, effect) := s.rejectShare reason
  if exceeded then ⟨s, [effect], .disconnect "too many invalid shares"⟩
  else say W env s [effect] (.submitSharesError s.channelId seq code) "SubmitSharesError"

/-- Book an accepted share and answer. -/
def acceptShare (W : Wire) (env : Surroundings) (s : Session) (seq : UInt32)
    (share : AcceptedShare) : Handled :=
  let (credited, credit) := s.credit.credit s.difficulty share.entry.difficulty
    share.result.hashDifficulty env.now
  let s := { s with
    shareSet := s.shareSet.insert share.key
    credit
    vardiff := s.vardiff.recordShare env.now }
  say W env s
    (acceptEffects env.submitResult s.sessionId (s.statsWorker.getD ['?']) credited share)
    (.submitSharesSuccess s.channelId seq s.difficulty) "SubmitSharesSuccess"

/-- `SubmitSharesExtended`: the share is resolved, checked and booked. -/
def handleSubmit (W : Wire) (H : Bytes → ByteVec 32) (env : Surroundings) (s : Session)
    (decoded : Except String SubmitExtended) : Handled :=
  if ¬ s.channelOpen then ⟨s, [], .disconnect "SubmitShares before channel open"⟩
  else
    match decoded with
    | .error e => ⟨s, [], .disconnect s!"bad SubmitSharesExtended: {e}"⟩
    | .ok submit =>
      let seq := submit.sequenceNumber
      -- the splice into the coinbase depends on the granted size
      if submit.extranonce.length ≠ s.extranonceSize then
        refuse W env s seq .badExtranonce "bad-extranonce-size"
      else
        match (s.engineJobId submit.jobId).bind s.issuedJobs.find with
        | none => refuse W env s seq .jobNotFound "stale-job"
        | some entry =>
          let key := submit.shareKey entry.job.jobId
          if s.shareSet.contains key then refuse W env s seq .duplicate "duplicate-share"
          else
            let params := submit.shareParams entry.job.jobId
            -- a share is held to the configured floor, not to the assigned difficulty
            let floor := s.vardiffCfg.minDifficulty
            match validateShareNoDedup H params entry.job entry s.extranoncePrefix floor
                env.unixTime with
            | .error e =>
              let reason := RejectReason.fromError e
              refuse W env s seq reason reason.label
            | .ok result =>
              acceptShare W env s seq
                { session := s.core
                  params := params
                  key := key
                  entry := entry
                  floor := floor
                  now := env.unixTime
                  result := result }

/-! ## The loop -/

/-- A frame that was read, unless they come too fast. -/
def handleMessage (W : Wire) (H : Bytes → ByteVec 32) (A : AddressLib) (env : Surroundings)
    (s : Session) (frame : Frame) : Handled :=
  if ¬ env.rateOk then
    ⟨s, [.stats (.rateLimited s.statsWorker), .ban "message rate exceeded"],
      .disconnect "rate limited"⟩
  else
    match frame with
    | .setupConnection decoded => handleSetupConnection W env s decoded
    | .openExtended decoded => handleOpenExtended W A env s decoded
    | .submitExtended decoded => handleSubmit W H env s decoded
    | .other _ => ⟨s, [], .continue⟩

/-- The code after the loop: the session ends. -/
def finish (s : Session) (effects : List (Effect Message)) : Outcome Session (Effect Message) where
  state := s
  outputs := effects ++ [.stats .minerDisconnected] ++
    (s.statsWorker.map fun name => .stats (.workerOffline name)).toList
  live := false

/-- Check the difficulty at the end of a turn and tell the device if it moved. -/
def applyRetarget (W : Wire) (env : Surroundings) (s : Session) (effects : List (Effect Message)) :
    Outcome Session (Effect Message) :=
  if ¬ s.channelOpen then ⟨s, effects, true⟩
  else
    let (newDiff, vardiff) :=
      s.vardiff.checkRetarget env.now (networkDifficulty s.pendingTemplate) env.rate
    let s := { s with vardiff }
    match newDiff with
    | none => ⟨s, effects, true⟩
    | some newDiff =>
      let s := { s with difficulty := newDiff }
      let effects := effects ++
        (s.statsWorker.map fun name => .stats (.workerVardiff name newDiff)).toList
      let message : Message := .setTarget s.channelId (difficultyToSv2Target newDiff)
      if deliver W env message = .sent then ⟨s, effects ++ [.send message], true⟩
      else s.finish effects

/-- A template from the engine. A clean one clears the shares: the jobs they belong to are
retired. -/
def handleBroadcast (W : Wire) (env : Surroundings) (s : Session) (template : JobTemplate)
    (clean : Bool) : Outcome Session (Effect Message) :=
  let s := if clean then { s with shareSet := s.shareSet.clear } else s
  if s.channelOpen then
    let (ok, s, effects) := sendJob W env s template clean clean []
    if ok then applyRetarget W env { s with pendingTemplate := some template } effects
    else s.finish effects
  else
    applyRetarget W env { s with pendingTemplate := some template }
      (if clean then [.core .clearShares] else [])

/-- A turn of the session. -/
def step (W : Wire) (H : Bytes → ByteVec 32) (A : AddressLib) (s : Session) (input : Input) :
    Outcome Session (Effect Message) :=
  let env := input.env
  match input.event with
  | .frame payloadLen frame =>
    match s.guard.checkMessageSize payloadLen with
    | .error _ => s.finish [.ban "message too large"]
    | .ok _ =>
      let handled := handleMessage W H A env s frame
      match handled.flow with
      | .continue => applyRetarget W env handled.session handled.effects
      | .disconnect _ => handled.session.finish handled.effects
  | .broadcast template clean => handleBroadcast W env s template clean
  | .lagged _ => applyRetarget W env s []
  | .closed => s.finish []

/-- The session as a process. -/
def process (W : Wire) (H : Bytes → ByteVec 32) (A : AddressLib) :
    Process Session Input (Effect Message) :=
  { step := step W H A }

end Session

/-! ## A regtest session -/

/-- A frame in regtest surroundings. -/
def Input.regtest (frame : Frame) : Input :=
  ⟨.frame 100 frame, { toEnv := .regtest "1".toList, extranonceCounter := 1, nextChannelId := 1 }⟩

/-- The setup of a session. -/
def regtestSetup : Input :=
  .regtest (.setupConnection (.ok
    { protocol := .mining, minVersion := 2, maxVersion := 2, flags := 0 }))

/-- A device that sets up its connection and opens a channel. -/
def regtestInputs : List Input :=
  [.regtest (.setupConnection (.ok
      { protocol := .mining, minVersion := 2, maxVersion := 2, flags := 0 })),
    .regtest (.openExtended (.ok
      { requestId := 1, userIdentity := regtestPayout.address,
        maxTarget := List.Vector.replicate 32 0xff, minExtranonceSize := 4 }))]

/-- A session that is to open a channel, and to get the job 1. -/
def regtestSession : Session :=
  .new regtestConfig .regtest "s".toList [1, 2, 3, 4] (some regtestTemplate) 0

/-- A share of that job. -/
def regtestSubmit : SubmitExtended where
  sequenceNumber := 1
  jobId := 1
  nonce := 0
  ntime := regtestTemplate.curTime
  version := regtestTemplate.version
  extranonce := [5, 6, 7, 8]

end BtcPool.Sv2
