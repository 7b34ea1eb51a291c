import BtcPool.Mining.Validator

/-!
# Messages of the two protocols

What the pool sends and receives on a Stratum V1 and on a Stratum V2 connection, as data: the JSON
of V1 and the binary frames of V2 are left to their libraries. The jobs of `StratumJob` are put into
messages here (`buildNotify`, `buildNewExtendedJob`, `buildSetNewPrevHash`), and difficulties into
V2 targets.
-/

namespace BtcPool

open Bitcoin

/-! ## Stratum V1 -/

namespace Sv1

/-- The id of a request, echoed in its reply. -/
abbrev RequestId := Str

/-- A submit of Stratum V1. -/
structure SubmitParams where
  worker : Str
  jobId : Str
  extranonce2 : Bytes
  ntime : UInt32
  nonce : UInt32
  versionBits : Option UInt32
deriving DecidableEq

/-- What the validator is given for a submit; bits are looked at only when rolling was
negotiated. -/
def SubmitParams.shareParams (params : SubmitParams) (versionRollingEnabled : Bool)
    (versionRollingMask : UInt32) : ShareParams where
  jobId := params.jobId
  extranonce2 := params.extranonce2
  ntime := params.ntime
  nonce := params.nonce
  versionBits := if versionRollingEnabled then params.versionBits else none
  versionRollingMask := if versionRollingEnabled then some versionRollingMask else none

/-- What makes two submits the same share. -/
def SubmitParams.shareKey (params : SubmitParams) : ShareKey where
  jobId := params.jobId
  extranonce2 := params.extranonce2
  ntime := params.ntime
  nonce := params.nonce
  versionBits := params.versionBits.getD 0

/-- The extensions a miner asks for. -/
structure ConfigureParams where
  versionRolling : Bool
  versionRollingMask : Option UInt32
  versionRollingMinBitCount : Option UInt32
  subscribeExtranonce : Bool
deriving DecidableEq

/-- A request of a miner that speaks Stratum V1. -/
inductive ClientMessage
  | subscribe (userAgent : Option Str)
  | authorize (worker : Str)
  | submit (params : SubmitParams)
  | configure (params : ConfigureParams)
  | suggestDifficulty (difficulty : UInt64)
  | extranonceSubscribe
  | unknown (method : Str)
  deriving DecidableEq

/-- The parameters of `mining.notify`, as the texts that are sent. -/
structure Notify where
  jobId : Str
  prevHash : Str
  coinbase1 : Str
  coinbase2 : Str
  merkleBranch : List Str
  version : Str
  bits : Str
  ntime : Str
  cleanJobs : Bool
deriving DecidableEq

/-- What the pool sends in Stratum V1. -/
inductive Message
  | ok (id : RequestId) (result : Bool)
  | err (id : RequestId) (code : StratumErrCode)
  | subscribe (id : RequestId) (sessionId extranonce1 : Str) (extranonce2Size : ℕ)
  | configure (id : RequestId) (versionRolling : Bool) (mask : UInt32) (minDifficulty : UInt64)
    (subscribeExtranonce : Bool)
  | setDifficulty (difficulty : UInt64)
  | notify (params : Notify)
  deriving DecidableEq

/-- The `mining.notify` of a job. -/
def buildNotify (job : StratumJob) (clean : Bool) : Notify where
  jobId := job.jobId
  prevHash := job.prevHash
  coinbase1 := hexEncode job.coinbase1
  coinbase2 := hexEncode job.coinbase2
  merkleBranch := job.merkleBranch
  version := hex08 job.version
  bits := job.bits
  ntime := hex08 job.curTime
  cleanJobs := clean

end Sv1

/-! ## Stratum V2 -/

namespace Sv2

/-- The protocols of Stratum V2 a device can ask for. -/
inductive SubProtocol
  | mining
  | jobDeclaration
  | templateDistribution
  deriving DecidableEq

/-- The name a protocol is shown with. -/
def SubProtocol.debug : SubProtocol → String
  | mining => "MiningProtocol"
  | jobDeclaration => "JobDeclarationProtocol"
  | templateDistribution => "TemplateDistributionProtocol"

/-- The `SetupConnection` of a device. -/
structure SetupConn where
  protocol : SubProtocol
  minVersion : UInt16
  maxVersion : UInt16
  flags : UInt32
deriving DecidableEq

/-- The `OpenExtendedMiningChannel` of a device. -/
structure OpenExtended where
  requestId : UInt32
  userIdentity : Str
  maxTarget : ByteVec 32
  minExtranonceSize : UInt16
deriving DecidableEq

/-- The `SubmitSharesExtended` of a device. -/
structure SubmitExtended where
  sequenceNumber : UInt32
  jobId : UInt32
  nonce : UInt32
  ntime : UInt32
  version : UInt32
  extranonce : Bytes
deriving DecidableEq

/-- What the validator is given for a submit to the job of the given id: of the version only the
bits a device may roll. -/
def SubmitExtended.shareParams (submit : SubmitExtended) (jobId : Str) : ShareParams where
  jobId := jobId
  extranonce2 := submit.extranonce
  ntime := submit.ntime
  nonce := submit.nonce
  versionBits := some (submit.version &&& versionRollingMask)
  versionRollingMask := some versionRollingMask

/-- What makes two submits the same share. -/
def SubmitExtended.shareKey (submit : SubmitExtended) (jobId : Str) : ShareKey where
  jobId := jobId
  extranonce2 := submit.extranonce
  ntime := submit.ntime
  nonce := submit.nonce
  versionBits := submit.version &&& versionRollingMask

/-- A job on its way to a device. -/
structure NewExtendedMiningJob where
  channelId : UInt32
  jobId : UInt32
  minNtime : Option UInt32
  version : UInt32
  versionRollingAllowed : Bool
  merklePath : List (ByteVec 32)
  coinbaseTxPrefix : Bytes
  coinbaseTxSuffix : Bytes
deriving DecidableEq

/-- The previous hash that puts a job in force. -/
structure SetNewPrevHash where
  channelId : UInt32
  jobId : UInt32
  prevHash : ByteVec 32
  minNtime : UInt32
  nbits : UInt32
deriving DecidableEq

/-- What the pool sends in Stratum V2. -/
inductive Message
  | setupConnectionSuccess (usedVersion : UInt16)
  | setupConnectionError (code : String) (flags : UInt32)
  | openExtendedSuccess (requestId channelId : UInt32) (target : ByteVec 32)
    (extranonceSize : UInt16) (extranoncePrefix : Bytes)
  | openChannelError (requestId : UInt32) (code : String)
  | newExtendedMiningJob (job : NewExtendedMiningJob)
  | setNewPrevHash (msg : SetNewPrevHash)
  | setTarget (channelId : UInt32) (target : ByteVec 32)
  | submitSharesSuccess (channelId sequenceNumber : UInt32) (sharesSum : UInt64)
  | submitSharesError (channelId sequenceNumber : UInt32) (code : String)
  deriving DecidableEq

/-- The wire types of `binary_sv2` that can refuse a value, and its encoder. -/
structure Wire where
  fitsB032 : Bytes → Bool
  fitsB064K : Bytes → Bool
  fitsSeq0255 : ℕ → Bool
  encodes : Message → Bool

/-- The bounds in the names of the types, and that a message of values that fit is encoded. -/
structure Wire.Lawful (W : Wire) : Prop where
  fitsB032_iff : ∀ bs, W.fitsB032 bs ↔ bs.length ≤ 32
  fitsB064K_iff : ∀ bs, W.fitsB064K bs ↔ bs.length < 2 ^ 16
  fitsSeq0255_iff : ∀ n, W.fitsSeq0255 n ↔ n ≤ 255
  encodes : ∀ m, W.encodes m

/-- The wire types exactly as their names say. -/
def Wire.exact : Wire where
  fitsB032 bs := bs.length ≤ 32
  fitsB064K bs := bs.length < 2 ^ 16
  fitsSeq0255 n := n ≤ 255
  encodes _ := true

theorem Wire.lawful_exact : Wire.exact.Lawful :=
  ⟨by simp [exact], by simp [exact], by simp [exact], fun _ => rfl⟩

/-- A hash read from the other end. -/
def reverseVec (v : ByteVec 32) : ByteVec 32 :=
  ⟨v.toList.reverse, by rw [List.length_reverse, v.toList_length]⟩

/-- A share target in the little-endian order of the wire. -/
def difficultyToSv2Target (difficulty : UInt64) : ByteVec 32 :=
  reverseVec (difficultyToTarget difficulty)

/-- Whether one little-endian target is at most another. -/
def sv2TargetLe (a b : ByteVec 32) : Bool := lexLe (reverseVec a).toList (reverseVec b).toList

/-- The previous hash in internal order, from the Stratum V1 form a job holds. -/
def stratumPrevhashToInternal (stratumHex : Str) : Except String (ByteVec 32) :=
  match hexDecode stratumHex with
  | .error e =>
    let why := e.text
    .error s!"prev_hash hex: {why}"
  | .ok bytes =>
    let len := bytes.length
    if h : bytes.length = 32 then .ok ⟨wordSwap bytes, by rw [length_wordSwap, h]⟩
    else .error s!"prev_hash must be 32 bytes, got {len}"

/-- The message of a job; a future one has no time yet. -/
def buildNewExtendedJob (W : Wire) (job : StratumJob) (channelId jobId : UInt32) (future : Bool) :
    Except String NewExtendedMiningJob := do
  ensure (W.fitsSeq0255 job.merkleBranchRaw.length) "merkle_path"
  ensure (W.fitsB064K job.coinbase1) "coinbase_tx_prefix"
  ensure (W.fitsB064K job.coinbase2) "coinbase_tx_suffix"
  return {
    channelId, jobId
    -- a future job waits for the previous hash that activates it
    minNtime := if future then none else some job.curTime
    version := job.version
    versionRollingAllowed := true
    merklePath := job.merkleBranchRaw
    coinbaseTxPrefix := job.coinbase1
    coinbaseTxSuffix := job.coinbase2 }

/-- The message that puts a job in force. -/
def buildSetNewPrevHash (job : StratumJob) (channelId jobId : UInt32) :
    Except String SetNewPrevHash := do
  let prev ← stratumPrevhashToInternal job.prevHash
  match fromStrRadix16 32 job.bits with
  | none => .error "nbits"
  | some nbits =>
    return {
      channelId, jobId, prevHash := prev, minNtime := job.curTime, nbits := UInt32.ofNat nbits }

end Sv2

end BtcPool
