import BtcPool.Mining.SessionCore

/-!
# Configurations the pool starts with

`Config::validate`, which the loader calls before anything else runs. `LoadedConfig` is the
configuration a session works with (`Config`) together with the settings only the check looks at.
`validate_eq_ok` says what a configuration that passed is; later proofs use the fields of
`Accepted`.
-/

namespace BtcPool

open Bitcoin

/-- The settings of the Stratum V2 listener. -/
structure Sv2Config where
  enabled : Bool
  persistAuthorityKey : Bool
  authorityKeyFile : Str
deriving DecidableEq

/-- A configuration as it is loaded. -/
structure LoadedConfig extends Config where
  confirmationDepth : UInt32
  statsDbPath : Option Str
  sv2 : Sv2Config
deriving DecidableEq

namespace LoadedConfig

/-- One length byte and up to four bytes of height. -/
def widestHeightPush : ℕ := 5

/-- The longest scriptSig a coinbase of this pool can have. -/
def scriptSigLen (c : LoadedConfig) : ℕ :=
  widestHeightPush + (utf8 c.pool.coinbaseTag).length + c.pool.extranonce1Size +
    c.pool.extranonce2Size

/-- The key file is not named: trimming leaves nothing. -/
def Sv2KeyFileMissing (c : LoadedConfig) : Prop :=
  c.sv2.enabled ∧ c.sv2.persistAuthorityKey ∧ c.sv2.authorityKeyFile.all isWhitespace

instance (c : LoadedConfig) : Decidable c.Sv2KeyFileMissing :=
  inferInstanceAs (Decidable (_ ∧ _ ∧ _))

/-- Reject configurations that would later panic or misbehave. The factors are exact numbers here,
so they are always finite; they are shown as fractions. -/
def validate (c : LoadedConfig) : Except String Unit := do
  ensure (c.statsDbPath ≠ some [])
    "[metrics] stats_db_path is empty: set a path or remove the key to run without persistence"
  let en1 := c.pool.extranonce1Size
  let en2 := c.pool.extranonce2Size
  let tagLen := (utf8 c.pool.coinbaseTag).length
  ensure (en1 + en2 ≠ 0)
    ("[pool] extranonce1_size + extranonce2_size must be >= 1 (got 0): " ++
      "a zero total extranonce width underflows SV2 channel setup")
  (checkCoinbaseScriptSigLen c.scriptSigLen).mapError fun e =>
    let why := e.display
    s!"{why}; shorten [pool] coinbase_tag ({tagLen} bytes) or the extranonce sizes ({en1} + {en2})"
  let depth := c.confirmationDepth
  ensure (1 ≤ c.confirmationDepth ∧ c.confirmationDepth ≤ 100)
    (s!"[pool] confirmation_depth must be between 1 and 100 (got {depth}); " ++
      "6 is the conventional finality threshold")
  let low := c.vardiff.minDifficulty
  let high := c.vardiff.maxDifficulty
  let factor := c.vardiff.maxRetargetFactor
  let zoneLow := c.vardiff.deadzoneLow
  let zoneHigh := c.vardiff.deadzoneHigh
  ensure (c.vardiff.targetShareTimeSecs ≠ 0)
    "[vardiff] target_share_time_secs must be >= 1 (got 0)"
  ensure (c.vardiff.minDifficulty ≠ 0) "[vardiff] min_difficulty must be >= 1 (got 0)"
  ensure (c.vardiff.minDifficulty ≤ c.vardiff.maxDifficulty)
    s!"[vardiff] min_difficulty ({low}) must not exceed max_difficulty ({high})"
  ensure (1 < c.vardiff.maxRetargetFactor)
    (s!"[vardiff] max_retarget_factor must be > 1.0 (got {factor}); " ++
      "it bounds a difficulty change to that ratio in either direction")
  ensure (0 < c.vardiff.deadzoneLow ∧ c.vardiff.deadzoneLow < 1)
    (s!"[vardiff] deadzone_low must be between 0.0 and 1.0 (got {zoneLow}); " ++
      "it is the fraction of the assigned difficulty the optimum has to " ++
      "fall to before the difficulty is lowered")
  ensure (1 < c.vardiff.deadzoneHigh)
    (s!"[vardiff] deadzone_high must be > 1.0 (got {zoneHigh}); " ++
      "it is the multiple of the assigned difficulty the optimum has to " ++
      "reach before the difficulty is raised")
  ensure (¬ c.Sv2KeyFileMissing)
    "[sv2] authority_key_file must not be empty while persist_authority_key = true"

/-- What a configuration that passed the check is. -/
structure Accepted (c : LoadedConfig) : Prop where
  statsDbPath : c.statsDbPath ≠ some []
  extranonce : 1 ≤ c.pool.extranonce1Size + c.pool.extranonce2Size
  scriptSig : c.scriptSigLen ≤ 100
  depth : 1 ≤ c.confirmationDepth ∧ c.confirmationDepth ≤ 100
  targetShareTime : c.vardiff.targetShareTimeSecs ≠ 0
  minDifficulty : c.vardiff.minDifficulty ≠ 0
  difficulties : c.vardiff.minDifficulty ≤ c.vardiff.maxDifficulty
  factor : 1 < c.vardiff.maxRetargetFactor
  deadzoneLow : 0 < c.vardiff.deadzoneLow ∧ c.vardiff.deadzoneLow < 1
  deadzoneHigh : 1 < c.vardiff.deadzoneHigh
  keyFile : ¬ c.Sv2KeyFileMissing

theorem validate_eq_ok {c : LoadedConfig} : c.validate = .ok () ↔ c.Accepted := by
  have hlen : ∀ f : PoolError → String,
      ((checkCoinbaseScriptSigLen c.scriptSigLen).mapError f = .ok ()) ↔ c.scriptSigLen ≤ 100 := by
    intro f
    -- the push of the height alone is longer than the shortest scriptSig
    have hpush : 2 ≤ c.scriptSigLen := by
      unfold scriptSigLen widestHeightPush
      omega
    constructor
    · intro h
      exact (ensure_eq_ok.mp (ok_of_mapError h)).2
    · intro h
      rw [checkCoinbaseScriptSigLen, ensure, if_pos ⟨hpush, h⟩]
      rfl
  simp only [validate, bind_eq_ok, ensure_eq_ok, hlen]
  constructor
  · rintro ⟨-, h1, -, h2, -, h3, -, h4, -, h5, -, h6, -, h7, -, h8, -, h9, -, h10, h11⟩
    exact ⟨h1, by omega, h3, h4, h5, h6, h7, h8, h9, h10, h11⟩
  · intro h
    have hen := h.extranonce
    exact ⟨(), h.statsDbPath, (), by omega, (), h.scriptSig, (), h.depth, (), h.targetShareTime, (),
      h.minDifficulty, (), h.difficulties, (), h.factor, (), h.deadzoneLow, (), h.deadzoneHigh,
      h.keyFile⟩

/-- The check can be run. -/
instance (c : LoadedConfig) : Decidable c.Accepted := decidable_of_iff _ validate_eq_ok

end LoadedConfig

/-- The regtest pool as it would be loaded, with both protocols on. -/
def regtestLoaded : LoadedConfig :=
  { regtestConfig with
    confirmationDepth := 6
    statsDbPath := none
    sv2 :=
      { enabled := true, persistAuthorityKey := true,
        authorityKeyFile := "sv2-authority.key".toList } }

theorem validate_regtestLoaded : regtestLoaded.validate = .ok () := by
  decide +kernel

end BtcPool
