import BtcPool.Error
import BtcPool.Foundations.Fallible

/-!
# Security guards of a session

The checks of `security/mod.rs` a session makes: the text of an untrusted worker name, the size of a
message, the budget of distinct identities and the budget of invalid shares. The token bucket of the
message rate is a module of its own (`ShareRateLimiter`); its verdict is an input of the session's
step.
-/

namespace BtcPool

/-! ## Worker names -/

/-- The control characters: the Unicode category Cc. -/
def isControl (c : Char) : Bool :=
  c.toNat ≤ 0x1f || (0x7f ≤ c.toNat && c.toNat ≤ 0x9f)

/-- The characters with the Unicode property White_Space. -/
def isWhitespace (c : Char) : Bool :=
  (0x09 ≤ c.toNat && c.toNat ≤ 0x0d) || (0x2000 ≤ c.toNat && c.toNat ≤ 0x200a) ||
    [0x20, 0x85, 0xa0, 0x1680, 0x2028, 0x2029, 0x202f, 0x205f, 0x3000].contains c.toNat

/-- The checks of a worker's name. -/
def validateWorkerName (name : Str) (maxLen : ℕ) : Except PoolError Unit := do
  ensure (name ≠ []) (.invalidParams "worker name" "worker name must not be empty")
  ensure ((utf8 name).length ≤ maxLen) (.invalidParams "worker name" "worker name too long")
  ensure (¬ name.any fun c => isControl c || isWhitespace c)
    (.invalidParams "worker name"
      "worker name must not contain control or whitespace characters")

/-! ## Budgets -/

/-- How many invalid shares were seen, and how many are tolerated. -/
structure InvalidShareCounter where
  count : ℕ
  max : ℕ
deriving DecidableEq, Repr

/-- Count an invalid share; true when the session should be dropped. A maximum of zero disables. -/
def InvalidShareCounter.recordInvalid (c : InvalidShareCounter) : Bool × InvalidShareCounter :=
  if c.max = 0 then (false, c) else (c.count + 1 ≥ c.max, { c with count := c.count + 1 })

/-- The limits of a session. -/
structure SecurityConfig where
  maxInvalidShares : ℕ
  maxMessageBytes : ℕ
  maxWorkerNameLen : ℕ
  maxAuthorizationsPerSession : ℕ
deriving DecidableEq, Repr

/-- What a session has used up of its limits. -/
structure SessionGuard where
  invalidShares : InvalidShareCounter
  maxMessageBytes : ℕ
  maxWorkerNameLen : ℕ
  authorizations : ℕ
  maxAuthorizations : ℕ
deriving DecidableEq, Repr

namespace SessionGuard

/-- A session that has used up nothing. -/
def new (cfg : SecurityConfig) : SessionGuard where
  invalidShares := { count := 0, max := cfg.maxInvalidShares }
  maxMessageBytes := cfg.maxMessageBytes
  maxWorkerNameLen := cfg.maxWorkerNameLen
  authorizations := 0
  maxAuthorizations := cfg.maxAuthorizationsPerSession

/-- Count one more distinct identity; false when the budget is exceeded. Zero disables. -/
def recordNewAuthorization (g : SessionGuard) : Bool × SessionGuard :=
  if g.maxAuthorizations = 0 then (true, g)
  else (g.authorizations + 1 ≤ g.maxAuthorizations,
    { g with authorizations := g.authorizations + 1 })

/-- The check of a message's size. -/
def checkMessageSize (g : SessionGuard) (len : ℕ) : Except PoolError Unit :=
  ensure (len ≤ g.maxMessageBytes) (.messageTooLarge len)

/-- The check of a worker's name. -/
def checkWorkerName (g : SessionGuard) (name : Str) : Except PoolError Unit :=
  validateWorkerName name g.maxWorkerNameLen

/-- Book a rejection; true when it exceeds the budget of invalid shares. -/
def recordRejected (g : SessionGuard) (reason : RejectReason) : Bool × SessionGuard :=
  if reason.countsAsInvalid then
    let (exceeded, invalidShares) := g.invalidShares.recordInvalid
    (exceeded, { g with invalidShares })
  else (false, g)

end SessionGuard

end BtcPool
