import BtcPool.Foundations.Hex

/-!
# Errors of the pool

`PoolError` with the data and the texts its variants carry (`display`), the reply a miner gets for
an error (`toStratumError`, a code and its fixed message), the label of a failed block submission,
and the reason a rejected share is booked under (`RejectReason`). Replies, labels and reasons are
closed sets: none of them is made from the text of an error.
-/

namespace BtcPool

/-- A text as a Lean string, for the messages of errors. -/
def Str.show (s : Str) : String := String.ofList s

/-- A 32-bit number in eight hexadecimal digits. -/
def hex08 (n : UInt32) : Str := hexEncode (leBytes 4 n.toNat).reverse

/-- The text a hex error is shown with. -/
def FromHexError.text : FromHexError → String
  | .invalidHexCharacter c index =>
    let shown := Char.quote (Char.ofNat c.toNat)
    s!"Invalid character {shown} at position {index}"
  | .oddLength => "Odd number of digits"
  | .invalidStringLength => "Invalid string length"

/-- Everything that goes wrong in the pool. -/
inductive PoolError
  | parse (text : String)
  | unknownMethod (method : Str)
  | notSubscribed
  | notAuthorized
  | invalidParams (method detail : String)
  | staleJob (jobId : Str)
  | duplicateShare
  | lowDifficulty
  | invalidHeader
  | rpc (text : String)
  | templateUnavailable
  | submitBlockRejected (reason : Str)
  | messageTooLarge (bytes : ℕ)
  | io (text : String)
  | other (text : String)
  deriving DecidableEq, Repr

/-! ## Replies -/

/-- The error codes of Stratum V1. -/
inductive StratumErrCode
  | unknown
  | jobNotFound
  | duplicateShare
  | lowDifficultyShare
  | unauthorized
  | notSubscribed
  deriving DecidableEq, Repr

namespace StratumErrCode

/-- The number of a code on the wire. -/
def code : StratumErrCode → ℕ
  | unknown => 20
  | jobNotFound => 21
  | duplicateShare => 22
  | lowDifficultyShare => 23
  | unauthorized => 24
  | notSubscribed => 25

/-- The message that goes with a code. -/
def message : StratumErrCode → String
  | unknown => "Unknown problem"
  | jobNotFound => "Job not found"
  | duplicateShare => "Duplicate share"
  | lowDifficultyShare => "Low difficulty share"
  | unauthorized => "Unauthorized worker"
  | notSubscribed => "Not subscribed"

end StratumErrCode

namespace PoolError

/-- The text an error is shown with. -/
def display : PoolError → String
  | parse text => s!"Stratum parse error: {text}"
  | unknownMethod method =>
    let shown := method.show
    s!"Unknown Stratum method: {shown}"
  | notSubscribed => "Miner not subscribed"
  | notAuthorized => "Miner not authorized"
  | invalidParams method detail => s!"Invalid params for {method}: {detail}"
  | staleJob jobId =>
    let shown := jobId.show
    s!"Stale job id: {shown}"
  | duplicateShare => "Duplicate share"
  | lowDifficulty => "Low difficulty share"
  | invalidHeader => "Invalid block header"
  | rpc text => s!"RPC error: {text}"
  | templateUnavailable => "Template unavailable — node not ready"
  | submitBlockRejected reason =>
    let shown := reason.show
    s!"submitblock rejected: {shown}"
  | messageTooLarge bytes => s!"Message too large ({bytes} bytes)"
  | io text => s!"I/O error: {text}"
  | other text => text

/-- The code a miner is told; its message goes with it. -/
def toStratumError : PoolError → StratumErrCode
  | staleJob _ => .jobNotFound
  | duplicateShare => .duplicateShare
  | lowDifficulty => .lowDifficultyShare
  | notAuthorized => .unauthorized
  | notSubscribed => .notSubscribed
  | _ => .unknown

end PoolError

/-! ## Reasons of a rejected share -/

/-- Why a share is rejected. -/
inductive RejectReason
  | unauthorized
  | jobNotFound
  | duplicate
  | stale
  | lowDifficulty
  | badExtranonce
  | invalid
  deriving DecidableEq, Repr

namespace RejectReason

/-- The name a reason is counted under. -/
def label : RejectReason → String
  | unauthorized => "unauthorized"
  | jobNotFound => "job_not_found"
  | duplicate => "duplicate"
  | stale => "stale"
  | lowDifficulty => "low_difficulty"
  | badExtranonce => "bad_extranonce"
  | invalid => "invalid"

/-- Whether a rejection counts towards the invalid-share budget of the session. -/
def countsAsInvalid : RejectReason → Bool
  | lowDifficulty | stale | unauthorized => false
  | _ => true

/-- The reason for an error of the validator. -/
def fromError : PoolError → RejectReason
  | .staleJob _ => stale
  | .duplicateShare => duplicate
  | .lowDifficulty => lowDifficulty
  | _ => invalid

end RejectReason

end BtcPool
