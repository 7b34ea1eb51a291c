import BtcPool.Network.Effects
import BtcPool.Protocol.Messages

/-!
# The Stratum V1 session

The session loop of `network/session.rs` and its handlers, one definition each. A line of the miner
comes here as what the JSON parser made of it. `Session.process` is the loop as a process: one
input is one turn of the loop, and the effects of a turn that ends the session close with those of
the code after the loop.

`Session.core` is the part both protocols share; what is done to it is recorded among the effects.
-/

namespace BtcPool.Sv1

open Bitcoin

/-! ## State -/

/-- A session that speaks Stratum V1. -/
structure Session where
  worker : Option Str
  identity : Option MinerIdentity
  userAgent : Option Str
  sessionId : Str
  subscribed : Bool
  authorized : Bool
  versionRollingEnabled : Bool
  versionRollingMask : UInt32
  versionRollingMinBitCount : Option UInt32
  extranonce1 : Bytes
  extranonce2Size : ℕ
  currentTemplate : Option JobTemplate
  issuedJobs : IssuedJobs
  coinbaseTag : Str
  network : Network
  difficulty : UInt64
  vardiff : Vardiff
  vardiffCfg : VardiffConfig
  credit : ShareCredit
  shareSet : ShareSet
  guard : SessionGuard

/-- What the parser made of a line. -/
inductive Line
  | blank
  | malformed
  | badParams (id : RequestId) (error : PoolError)
  | request (id : RequestId) (message : ClientMessage)
  deriving DecidableEq

/-- What a session turns to next. -/
inductive Event
  | line (line : Line)
  | broadcast (template : JobTemplate) (clean : Bool)
  | lagged (missed : ℕ)
  /-- A line over the size limit. -/
  | oversized
  /-- The connection closed, timed out or failed, or the engine is gone. -/
  | closed

/-- An event and what the session finds around it. -/
structure Input where
  event : Event
  env : Env Message

/-- The templates that come in with an input are among those offered. -/
def Input.Offers (input : Input) (offered : JobTemplate → Prop) : Prop :=
  (∀ template clean, input.event = .broadcast template clean → offered template) ∧
    ∀ template, input.env.engineTemplate = some template → offered template

/-- What a handler wants: messages sent, or the connection closed. -/
inductive HandleResult
  | messages (messages : List Message)
  | disconnect (reason : String)
  deriving DecidableEq

/-- The session after a handler, what it did, and its answer. -/
structure Handled where
  session : Session
  effects : List (Effect Message)
  result : HandleResult

namespace Session

/-- A new session; the template of the engine is kept for when the miner authorizes. -/
def new (cfg : Config) (network : Network) (sessionId : Str) (extranonce1 : Bytes)
    (template : Option JobTemplate) (now : Instant) : Session where
  worker := none
  identity := none
  userAgent := none
  sessionId := sessionId
  subscribed := false
  authorized := false
  versionRollingEnabled := false
  versionRollingMask := Bitcoin.versionRollingMask
  versionRollingMinBitCount := none
  extranonce1 := extranonce1
  extranonce2Size := cfg.pool.extranonce2Size
  currentTemplate := template
  issuedJobs := .new
  coinbaseTag := cfg.pool.coinbaseTag
  network := network
  difficulty := cfg.pool.initialDifficulty
  vardiff := .new cfg.vardiff cfg.pool.initialDifficulty now
  vardiffCfg := cfg.vardiff
  credit := .new cfg.vardiff.minDifficulty now
  shareSet := .new
  guard := .new cfg.security

/-- The name the session is booked under. -/
def statsWorker (s : Session) : Option Str := s.identity.map fun i => i.canonicalName

/-- What the session keeps that both protocols keep. -/
def core (s : Session) : Core where
  identity := s.identity
  extranonce1 := s.extranonce1
  extranonce2Size := s.extranonce2Size
  rollMask := if s.versionRollingEnabled then s.versionRollingMask else 0
  issuedJobs := s.issuedJobs
  shareSet := s.shareSet

/-- The job of a template for the identity held. -/
def materializeJob (s : Session) (jobId : Str) (template : JobTemplate) :
    Except PoolError StratumJob :=
  match s.identity with
  | none => .error .notAuthorized
  | some identity => buildJobForPayout jobId template identity.payout s.coinbaseTag
      s.extranonce1.length s.extranonce2Size

/-! ## Handlers -/

/-- Answer without doing anything. -/
def reply (s : Session) (messages : List Message) : Handled := ⟨s, [], .messages messages⟩

/-- The number of bits set. -/
def countOnes (n : UInt32) : ℕ := (List.range 32).countP fun i => n.toNat.testBit i

/-- `mining.configure`: rolling is granted if the masks share enough bits. -/
def handleConfigure (s : Session) (id : RequestId) (params : ConfigureParams) : Handled :=
  let answer (s : Session) : HandleResult := .messages [.configure id s.versionRollingEnabled
    s.versionRollingMask s.difficulty params.subscribeExtranonce]
  if params.versionRolling then
    let negotiated := match params.versionRollingMask with
      | some m => m &&& s.versionRollingMask
      | none => s.versionRollingMask
    let minBitsOk := match params.versionRollingMinBitCount with
      | some minBits => decide (minBits.toNat ≤ countOnes negotiated)
      | none => true
    let s := { s with
      versionRollingEnabled := minBitsOk && negotiated ≠ 0
      versionRollingMask := negotiated
      versionRollingMinBitCount := params.versionRollingMinBitCount }
    ⟨s, [.core (.negotiate s.core.rollMask)], answer s⟩
  else ⟨s, [], answer s⟩

/-- `mining.suggest_difficulty`: the hint is applied as far as it is allowed. -/
def handleSuggestDifficulty (env : Env Message) (s : Session) (id : RequestId)
    (difficulty : UInt64) : Handled :=
  let (applied, vardiff) := s.vardiff.suggest difficulty env.now
  let s := { s with vardiff, difficulty := applied }
  s.reply (.ok id true :: if s.subscribed then [.setDifficulty applied] else [])

/-- `mining.subscribe`: the session tells its extranonce. -/
def handleSubscribe (s : Session) (id : RequestId) (userAgent : Option Str) : Handled :=
  let s := { s with subscribed := true, userAgent }
  s.reply [.subscribe id s.sessionId (hexEncode s.extranonce1) s.extranonce2Size]

/-- Another identity: the one held goes offline, with its jobs and shares. -/
def switchIdentity (s : Session) (identity : MinerIdentity) : Session × List (Effect Message) :=
  ({ s with
      worker := none
      identity := none
      issuedJobs := s.issuedJobs.clear
      shareSet := s.shareSet.clear },
    (s.statsWorker.map fun name => .stats (.workerOffline name)).toList ++
      [.core .retire, .stats (.workerOnline identity.canonicalName s.difficulty),
        .stats (.workerProtocol identity.canonicalName "sv1")])

/-- Send an authorized miner its difficulty and, if there is one, its first job. -/
def welcome (env : Env Message) (s : Session) (id : RequestId) (effects : List (Effect Message)) :
    Handled :=
  let greeting : List Message := [.ok id true, .setDifficulty s.difficulty]
  match s.currentTemplate <|> env.engineTemplate with
  | none => ⟨s, effects, .messages greeting⟩
  | some template =>
    match s.materializeJob env.jobId template with
    | .error _ => ⟨s, effects, .disconnect "internal payout job error"⟩
    | .ok job =>
      ⟨{ s with
          currentTemplate := some template
          issuedJobs := s.issuedJobs.issue job true s.difficulty },
        effects ++ [.core (.issue template job true s.difficulty)],
        .messages (greeting ++ [.notify (buildNotify job true)])⟩

/-- `mining.authorize`: the session takes an identity, and hands out a first job. -/
def handleAuthorize (A : AddressLib) (env : Env Message) (s : Session) (id : RequestId)
    (worker : Str) : Handled :=
  if ¬ s.subscribed then s.reply [.err id PoolError.notSubscribed.toStratumError]
  else
    match s.guard.checkWorkerName worker with
    | .error e => s.reply [.err id e.toStratumError]
    | .ok _ =>
      match MinerIdentity.parse A worker s.network s.guard.maxWorkerNameLen with
      | .error _ => s.reply [.ok id false]
      | .ok identity =>
        -- names are compared canonically: a new spelling is not a new identity
        if s.statsWorker = some identity.canonicalName then
          welcome env
            { s with authorized := true, worker := some worker, identity := some identity } id
            [.core (.identify identity)]
        else
          let (allowed, guard) := s.guard.recordNewAuthorization
          let s := { s with guard }
          if ¬ allowed then ⟨s, [], .disconnect "too many worker identities"⟩
          else
            let (s, effects) := s.switchIdentity identity
            welcome env
              { s with authorized := true, worker := some worker, identity := some identity } id
              (effects ++ [.core (.identify identity)])

/-! ## Shares -/

/-- Book a rejected share; true when the session should be dropped. -/
def rejectShare (s : Session) (reason : RejectReason) : Bool × Session × Effect Message :=
  let (exceeded, guard) := s.guard.recordRejected reason
  (exceeded, { s with guard }, .stats (.rejected (s.statsWorker.getD ['?']) reason))

/-- A share is refused, and too many of those end the session. -/
def refuse (s : Session) (id : RequestId) (reason : RejectReason) (code : StratumErrCode) :
    Handled :=
  let (exceeded, s, effect) := s.rejectShare reason
  ⟨s, [effect], if exceeded then .disconnect "too many invalid shares"
    else .messages [.err id code]⟩

/-- Book an accepted share and answer. -/
def acceptShare (env : Env Message) (s : Session) (id : RequestId) (worker : Str)
    (share : AcceptedShare) : Handled :=
  let (credited, credit) := s.credit.credit s.difficulty share.entry.difficulty
    share.result.hashDifficulty env.now
  let s := { s with
    shareSet := s.shareSet.insert share.key
    credit
    vardiff := s.vardiff.recordShare env.now }
  ⟨s, acceptEffects env.submitResult s.sessionId worker credited share, .messages [.ok id true]⟩

/-- `mining.submit`: the share is resolved, checked and booked. -/
def handleSubmit (H : Bytes → ByteVec 32) (env : Env Message) (s : Session) (id : RequestId)
    (params : SubmitParams) : Handled :=
  if ¬ s.authorized ∨ s.worker ≠ some params.worker then
    let (_, s, effect) := s.rejectShare .unauthorized
    ⟨s, [effect], .messages [.err id PoolError.notAuthorized.toStratumError]⟩
  else
    match s.issuedJobs.find params.jobId with
    | none => s.refuse id .jobNotFound (PoolError.staleJob params.jobId).toStratumError
    | some entry =>
      if s.shareSet.contains params.shareKey then
        s.refuse id .duplicate PoolError.duplicateShare.toStratumError
      else
        let shareParams := params.shareParams s.versionRollingEnabled s.versionRollingMask
        -- a share is held to the configured floor, not to the assigned difficulty
        let floor := s.vardiffCfg.minDifficulty
        match validateShareNoDedup H shareParams entry.job entry s.extranonce1 floor
          env.unixTime with
        | .error e => s.refuse id (.fromError e) e.toStratumError
        | .ok result =>
          s.acceptShare env id (s.statsWorker.getD params.worker)
            { session := s.core
              params := shareParams
              key := params.shareKey
              entry := entry
              floor := floor
              now := env.unixTime
              result := result }

/-! ## The loop -/

/-- A line that was read, unless they come too fast. -/
def handleLine (H : Bytes → ByteVec 32) (A : AddressLib) (env : Env Message) (s : Session)
    (line : Line) : Handled :=
  if ¬ env.rateOk then
    ⟨s, [.stats (.rateLimited s.statsWorker), .ban "message rate exceeded"],
      .disconnect "rate limited"⟩
  else
    match line with
    | .blank => s.reply []
    | .malformed => ⟨s, [], .disconnect "parse error"⟩
    | .badParams id error => s.reply [.err id error.toStratumError]
    | .request id message =>
      match message with
      | .configure params => s.handleConfigure id params
      | .subscribe userAgent => s.handleSubscribe id userAgent
      | .authorize worker => handleAuthorize A env s id worker
      | .submit params => handleSubmit H env s id params
      | .suggestDifficulty difficulty => handleSuggestDifficulty env s id difficulty
      | .extranonceSubscribe => s.reply [.ok id true]
      | .unknown method => s.reply [.err id (PoolError.unknownMethod method).toStratumError]

/-- The code after the loop: the session ends. -/
def finish (s : Session) (effects : List (Effect Message)) : Outcome Session (Effect Message) where
  state := s
  outputs := effects ++ [.stats .minerDisconnected] ++
    (s.statsWorker.map fun name => .stats (.workerOffline name)).toList
  live := false

/-- Check the difficulty at the end of a turn and tell the miner if it moved. -/
def applyRetarget (env : Env Message) (s : Session) (effects : List (Effect Message)) :
    Outcome Session (Effect Message) :=
  let (newDiff, vardiff) :=
    s.vardiff.checkRetarget env.now (networkDifficulty s.currentTemplate) env.rate
  let s := { s with vardiff }
  match newDiff with
  | none => ⟨s, effects, true⟩
  | some newDiff =>
    let s := { s with difficulty := newDiff }
    let effects := effects ++
      (s.statsWorker.map fun name => .stats (.workerVardiff name newDiff)).toList
    let (sent, ok) := sendMessages env.written [Message.setDifficulty newDiff]
    if ok then ⟨s, effects ++ sent, true⟩ else s.finish (effects ++ sent)

/-- Write messages, then go on to the end of the turn. -/
def sendThenRetarget (env : Env Message) (s : Session) (effects : List (Effect Message))
    (messages : List Message) : Outcome Session (Effect Message) :=
  let (sent, ok) := sendMessages env.written messages
  if ok then s.applyRetarget env (effects ++ sent) else s.finish (effects ++ sent)

/-- A template from the engine. A clean one clears the shares: the jobs they belong to are
retired. -/
def handleBroadcast (env : Env Message) (s : Session) (template : JobTemplate) (clean : Bool) :
    Outcome Session (Effect Message) :=
  let cleared := if clean then { s with shareSet := s.shareSet.clear } else s
  if s.subscribed ∧ s.authorized then
    match s.materializeJob env.jobId template with
    | .error _ => cleared.finish []
    | .ok job =>
      let s := { cleared with
        issuedJobs := s.issuedJobs.issue job clean s.difficulty
        currentTemplate := some template }
      sendThenRetarget env s
        [.core (if clean then .renew template job s.difficulty
          else .issue template job false s.difficulty)]
        [.setDifficulty s.difficulty, .notify (buildNotify job clean)]
  else
    applyRetarget env { cleared with currentTemplate := some template }
      (if clean then [.core .clearShares] else [])

/-- A turn of the session. -/
def step (H : Bytes → ByteVec 32) (A : AddressLib) (s : Session) (input : Input) :
    Outcome Session (Effect Message) :=
  let env := input.env
  match input.event with
  | .line line =>
    let handled := handleLine H A env s line
    match handled.result with
    | .messages messages => sendThenRetarget env handled.session handled.effects messages
    | .disconnect _ => handled.session.finish handled.effects
  | .broadcast template clean => handleBroadcast env s template clean
  | .lagged _ => applyRetarget env s []
  | .oversized => s.finish [.ban "message too large"]
  | .closed => s.finish []

/-- The session as a process. -/
def process (H : Bytes → ByteVec 32) (A : AddressLib) : Process Session Input (Effect Message) :=
  { step := step H A }

end Session

/-! ## A regtest session -/

/-- A request in regtest surroundings. -/
def Input.regtest (message : ClientMessage) : Input :=
  ⟨.line (.request "7".toList message), .regtest "1".toList⟩

/-- A miner that subscribes and authorizes. -/
def regtestInputs : List Input :=
  [.regtest (.subscribe none), .regtest (.authorize regtestPayout.address)]

/-- A session that is to be subscribed and authorized, and to get the job `1`. -/
def regtestSession : Session :=
  .new regtestConfig .regtest "s".toList [1, 2, 3, 4] (some regtestTemplate) 0

/-- A share of that job. -/
def regtestSubmit : SubmitParams where
  worker := regtestPayout.address
  jobId := "1".toList
  extranonce2 := [5, 6, 7, 8]
  ntime := regtestTemplate.curTime
  nonce := 0
  versionBits := none

end BtcPool.Sv1
